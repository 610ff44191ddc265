import Mathlib.Tactic.SplitIfs
import FlowAtlas.Proofs.Data.KeyOrder
import FlowAtlas.Proofs.Markup.Values
import FlowAtlas.Tables.Load

/-!
# What loaded tables hold

A table with a file of its own holds what the lines of this file say, or nothing if the file cannot
be read; the four tables of the objectives are filled record by record.  Every name in a loaded
table is an attribute value.  An entry under the absent id is there only if a line without an id
filed it.

Main facts: `gives_load` (where each table comes from), `isValue_of_gives_load` and
`get?_none_of_identified`.
-/

namespace FlowAtlas

/-! ## Loading that succeeds -/

namespace Loading

variable {α β : Type}

/-- The loading comes to a result. -/
def Gives (x : Loading α) (a : α) : Prop := x.run.value = .ok a

theorem gives_pure {a b : α} : Gives (pure a) b ↔ b = a := by
  constructor
  · intro h
    cases h
    rfl
  · rintro rfl
    rfl

theorem run_value_bind (x : Loading α) (f : α → Loading β) :
    (x >>= f).run.value =
      match x.run.value with
      | .ok a => (f a).run.value
      | .error e => .error e := by
  show (ExceptT.bindCont f x.run.value).value = _
  cases x.run.value <;> rfl

theorem gives_bind {x : Loading α} {f : α → Loading β} {b : β} :
    Gives (x >>= f) b ↔ ∃ a, Gives x a ∧ Gives (f a) b := by
  unfold Gives
  rw [run_value_bind]
  constructor
  · intro h
    cases hx : x.run.value with
    | error e =>
      rw [hx] at h
      cases h
    | ok a =>
      rw [hx] at h
      exact ⟨a, rfl, h⟩
  · rintro ⟨a, hx, hf⟩
    rw [hx]
    exact hf

theorem exists_gives_of_map {x : Loading α} {f : α → β} {b : β}
    (h : x.run.value.toOption.map f = some b) : ∃ a, Gives x a ∧ f a = b := by
  unfold Gives
  cases hx : x.run.value with
  | error e =>
    rw [hx] at h
    cases h
  | ok a =>
    rw [hx] at h
    exact ⟨a, rfl, Option.some.inj h⟩

end Loading

/-! ## Where tables come from -/

/-- The file that a table is read from, if it has one of its own. -/
def SourceLayout.fileOf (layout : SourceLayout) : TableKind → Option Path
  | .gameTokens => some layout.gameTokens
  | .gameMetrics => some layout.gameMetrics
  | .remoteEvents => some layout.remoteEvents
  | .locations => some layout.locations
  | .connectivity => some layout.connectivity
  | .objectives | .tasks | .descriptions | .clues => none

namespace Tables

open Loading

variable {tree : FileTree} {settings : Settings} {tables : Tables} {kind : TableKind}

/-- A table is what the lines of its file say, or empty if the system cannot read it. -/
theorem gives_loadTable {path : Path} {table : Table} (h : Gives (loadTable tree kind path) table) :
    (∃ lines, readLines tree path = .ok lines ∧ table = tableOf (filingOf kind) lines) ∨
      (∃ e, readLines tree path = .error (.system e)) ∧ table = .empty := by
  unfold loadTable at h
  split at h
  · rename_i lines hlines
    exact Or.inl ⟨lines, hlines, gives_pure.mp h⟩
  · rename_i e he
    obtain ⟨_, -, htable⟩ := gives_bind.mp h
    exact Or.inr ⟨⟨e, he⟩, gives_pure.mp htable⟩
  · cases h

/-- The four tables of the objectives are loaded together, every other one from its own file. -/
theorem gives_load (h : Gives (load tree settings) tables) :
    (∃ fromObjectives : ObjectiveTables,
      Gives (ObjectiveTables.load tree (settings.sourceRoot.join settings.layout.objectives))
        fromObjectives ∧
      tables.table .objectives = fromObjectives.objectives ∧
      tables.table .tasks = fromObjectives.tasks ∧
      tables.table .descriptions = fromObjectives.descriptions ∧
      tables.table .clues = fromObjectives.clues) ∧
    ∀ kind path, settings.layout.fileOf kind = some path →
      Gives (loadTable tree kind (settings.sourceRoot.join path)) (tables.table kind) := by
  unfold load at h
  simp only [gives_bind, gives_pure] at h
  obtain ⟨fromObjectives, hobjectives, gameTokens, htokens, gameMetrics, hmetrics, remoteEvents,
    hevents, locations, hlocations, connectivity, hconnectivity, _, -, rfl⟩ := h
  refine ⟨⟨fromObjectives, hobjectives, rfl, rfl, rfl, rfl⟩, ?_⟩
  intro kind path hpath
  cases kind <;> cases hpath <;> assumption

/-! ## Names are attribute values -/

/-- Every name in the table is an attribute value. -/
def NamesAreValues (table : Table) : Prop :=
  ∀ id name, table.get? id = some (some name) → Markup.IsValue name

theorem namesAreValues_empty : NamesAreValues .empty := by
  intro id name h
  cases h

theorem NamesAreValues.insert {table : Table} (h : NamesAreValues table) {id name : Option String}
    (hname : ∀ value, name = some value → Markup.IsValue value) :
    NamesAreValues (table.insert id name) := by
  intro other value hvalue
  rw [OrderedMap.get?_insert] at hvalue
  split_ifs at hvalue
  · exact hname value (Option.some.inj hvalue)
  · exact h other value hvalue

theorem isValue_of_filing {key line value : String} {id : Option String}
    (h : Markup.filing key line = (id, some value)) : Markup.IsValue value :=
  Markup.isValue_of_get? (Prod.mk.inj h).2

/-- Every line that files something files its id and one other attribute. -/
theorem exists_filing {line : String} {filing : Filing} (h : filingOf kind line = some filing) :
    ∃ key, filing = Markup.filing key line := by
  have hmarked : ∀ {mark key : String}, markedFiling mark key line = some filing →
      ∃ key, filing = Markup.filing key line := by
    intro mark key hm
    unfold markedFiling at hm
    split_ifs at hm
    exact ⟨key, (Option.some.inj hm).symm⟩
  cases kind with
  | gameTokens => exact hmarked h
  | gameMetrics => exact hmarked h
  | locations => exact hmarked h
  | remoteEvents =>
    change (if _ then _ else _) = _ at h
    split_ifs at h
    exact ⟨"name", (Option.some.inj h).symm⟩
  | connectivity =>
    rcases Option.or_eq_some_iff.mp h with h | ⟨-, h⟩
    · exact hmarked h
    · exact hmarked h
  | objectives => cases h
  | tasks => cases h
  | descriptions => cases h
  | clues => cases h

theorem namesAreValues_tableOf (kind : TableKind) (lines : List String) :
    NamesAreValues (tableOf (filingOf kind) lines) := by
  intro id name h
  unfold tableOf at h
  rw [OrderedMap.ofList_eq_latest, OrderedMap.get?_latest] at h
  obtain ⟨line, -, hline⟩ :=
    List.mem_filterMap.mp (OrderedMap.mem_valuesOf.mp (List.mem_of_getLast? h))
  obtain ⟨key, hkey⟩ := exists_filing hline
  exact isValue_of_filing hkey.symm

end Tables

namespace ObjectiveTables

open Tables

/-- Every name in the four tables is an attribute value. -/
structure NamesAreValues (t : ObjectiveTables) : Prop where
  objectives : Tables.NamesAreValues t.objectives
  tasks : Tables.NamesAreValues t.tasks
  descriptions : Tables.NamesAreValues t.descriptions
  clues : Tables.NamesAreValues t.clues

theorem namesAreValues_start : NamesAreValues start :=
  ⟨namesAreValues_empty, namesAreValues_empty, namesAreValues_empty, namesAreValues_empty⟩

def nameOf? : ObjectiveRecord → Option String
  | .objective _ => none
  | .description _ name => name
  | .task _ name => name
  | .clue _ name => name

theorem isValue_of_parse? {line name : String} {r : ObjectiveRecord}
    (h : ObjectiveRecord.parse? line = some r) (hname : nameOf? r = some name) :
    Markup.IsValue name := by
  have hfiled : (Markup.filing "displayname" line).2 = some name := by
    unfold ObjectiveRecord.parse? at h
    dsimp only at h
    split_ifs at h
    all_goals
      cases h
      first
      | exact hname
      | cases hname
  exact Markup.isValue_of_get? hfiled

theorem NamesAreValues.nameObjective {t : ObjectiveTables} (h : NamesAreValues t)
    (waiting : Option (Option String)) {name : Option String}
    (hname : ∀ value, name = some value → Markup.IsValue value) :
    NamesAreValues (t.nameObjective waiting name) := by
  cases waiting with
  | none => exact h
  | some id => exact ⟨h.objectives.insert hname, h.tasks, h.descriptions, h.clues⟩

theorem namesAreValues_readRecord {state : ObjectiveTables × Option (Option String)}
    (h : NamesAreValues state.1) {r : ObjectiveRecord}
    (hname : ∀ value, nameOf? r = some value → Markup.IsValue value) :
    NamesAreValues (readRecord state r).1 := by
  cases r with
  | objective id => exact h
  | description id name =>
    exact ⟨h.objectives, h.tasks, h.descriptions.insert hname, h.clues⟩
  | task id name =>
    have htasks : NamesAreValues { state.1 with tasks := state.1.tasks.insert id name } :=
      ⟨h.objectives, h.tasks.insert hname, h.descriptions, h.clues⟩
    exact htasks.nameObjective state.2 hname
  | clue id name =>
    have hclues : NamesAreValues { state.1 with clues := state.1.clues.insert id name } :=
      ⟨h.objectives, h.tasks, h.descriptions, h.clues.insert hname⟩
    exact hclues.nameObjective state.2 hname

theorem namesAreValues_foldl_readRecord {records : List ObjectiveRecord}
    {state : ObjectiveTables × Option (Option String)} (h : NamesAreValues state.1)
    (hrecords : ∀ r ∈ records, ∀ value, nameOf? r = some value → Markup.IsValue value) :
    NamesAreValues (records.foldl readRecord state).1 := by
  induction records generalizing state with
  | nil => exact h
  | cons r records ih =>
    refine ih (namesAreValues_readRecord h (hrecords r (List.mem_cons_self ..))) ?_
    exact fun other hother => hrecords other (List.mem_cons_of_mem _ hother)

theorem NamesAreValues.readFile {t : ObjectiveTables} (h : NamesAreValues t)
    (lines : List String) : NamesAreValues (t.readFile lines) := by
  refine namesAreValues_foldl_readRecord h ?_
  intro r hr value hvalue
  obtain ⟨line, -, hline⟩ := List.mem_filterMap.mp hr
  exact isValue_of_parse? hline hvalue

theorem namesAreValues_foldl_readFile {t : ObjectiveTables} (h : NamesAreValues t)
    (files : List (Path × List UInt8)) :
    NamesAreValues (files.foldl (fun t f => t.readFile (Text.linesOfBytes f.2)) t) := by
  induction files generalizing t with
  | nil => exact h
  | cons f files ih => exact ih (h.readFile _)

theorem exists_files_of_read {tree : FileTree} {directory : Path} {t : ObjectiveTables}
    (h : read tree directory = .ok (some t)) :
    ∃ files : List (Path × List UInt8),
      t = files.foldl (fun t f => t.readFile (Text.linesOfBytes f.2)) start := by
  unfold ObjectiveTables.read at h
  cases hdirectory : tree.isDirectory directory with
  | error e =>
    rw [hdirectory] at h
    cases h
  | ok is =>
    rw [hdirectory] at h
    cases is with
    | false => cases h
    | true =>
      cases hfiles : tree.filesAmong directory (tree.list directory) with
      | error e =>
        change (do let files ← tree.filesAmong directory (tree.list directory); _) = _ at h
        rw [hfiles] at h
        cases h
      | ok files =>
        change (do let files ← tree.filesAmong directory (tree.list directory); _) = _ at h
        rw [hfiles] at h
        exact ⟨files, (Option.some.inj (Except.ok.inj h)).symm⟩

theorem namesAreValues_of_gives_load {tree : FileTree} {directory : Path} {t : ObjectiveTables}
    (h : Loading.Gives (load tree directory) t) : NamesAreValues t := by
  unfold load at h
  split at h
  · rename_i read hread
    rw [Loading.gives_pure.mp h]
    obtain ⟨files, rfl⟩ := exists_files_of_read hread
    exact namesAreValues_foldl_readFile namesAreValues_start files
  · obtain ⟨_, -, hstart⟩ := Loading.gives_bind.mp h
    rw [Loading.gives_pure.mp hstart]
    exact namesAreValues_start
  · cases h

end ObjectiveTables

namespace Tables

variable {tree : FileTree} {settings : Settings} {tables : Tables}

/-- **Every name in a loaded table is an attribute value.** -/
theorem isValue_of_gives_load (h : Loading.Gives (load tree settings) tables) {kind : TableKind}
    {id : Option String} {name : String} (hname : (tables.table kind).get? id = some (some name)) :
    Markup.IsValue name := by
  obtain ⟨⟨fromObjectives, hobjectives, ho, ht, hd, hc⟩, hfile⟩ := gives_load h
  have hvalues := ObjectiveTables.namesAreValues_of_gives_load hobjectives
  have hown : ∀ path, settings.layout.fileOf kind = some path → Markup.IsValue name := by
    intro path hpath
    rcases gives_loadTable (hfile kind path hpath) with ⟨lines, -, htable⟩ | ⟨-, htable⟩
    · rw [htable] at hname
      exact namesAreValues_tableOf kind lines id name hname
    · rw [htable] at hname
      exact namesAreValues_empty id name hname
  cases kind with
  | objectives => exact hvalues.objectives id name (ho ▸ hname)
  | tasks => exact hvalues.tasks id name (ht ▸ hname)
  | descriptions => exact hvalues.descriptions id name (hd ▸ hname)
  | clues => exact hvalues.clues id name (hc ▸ hname)
  | gameTokens => exact hown _ rfl
  | gameMetrics => exact hown _ rfl
  | remoteEvents => exact hown _ rfl
  | locations => exact hown _ rfl
  | connectivity => exact hown _ rfl

/-! ## The absent id -/

/-- Every line that files something in the table has an id. -/
def Identified (tree : FileTree) (settings : Settings) (kind : TableKind) : Prop :=
  ∀ path lines, settings.layout.fileOf kind = some path →
    readLines tree (settings.sourceRoot.join path) = .ok lines →
      ∀ line ∈ lines, ∀ filing, filingOf kind line = some filing → filing.1 ≠ none

/-- Nothing is filed under the absent id if all lines have ids. -/
theorem get?_none_of_identified (h : Loading.Gives (load tree settings) tables) {kind : TableKind}
    {path : Path} (hpath : settings.layout.fileOf kind = some path)
    (hids : Identified tree settings kind) : (tables.table kind).get? none = none := by
  have hgives := (gives_load h).2 kind path hpath
  rcases gives_loadTable hgives with ⟨lines, hlines, htable⟩ | ⟨-, htable⟩
  · rw [htable]
    unfold tableOf
    rw [OrderedMap.ofList_eq_latest, OrderedMap.get?_latest, List.getLast?_eq_none_iff,
      OrderedMap.valuesOf_eq_nil_iff]
    intro hmem
    obtain ⟨filing, hfiling, hid⟩ := List.mem_map.mp hmem
    obtain ⟨line, hline, hfiled⟩ := List.mem_filterMap.mp hfiling
    exact hids path lines hpath hlines line hline filing hfiled hid
  · rw [htable]
    rfl

end Tables

end FlowAtlas
