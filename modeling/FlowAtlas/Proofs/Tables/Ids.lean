import FlowAtlas.Proofs.Tables.Loaded

/-!
# Ids in loaded tables

What is filed in a loaded table is filed under the id of some line, so every id that a table knows
is an attribute value like the names.

Main fact: `idsAreValues_of_gives_load`.
-/

namespace FlowAtlas

/-- The id is absent or an attribute value. -/
def IsIdValue (id : Option String) : Prop := ∀ text, id = some text → Markup.IsValue text

theorem isIdValue_filing (key line : String) : IsIdValue (Markup.filing key line).1 :=
  fun _ hid => Markup.isValue_of_get? hid

/-- All ids that the table knows are absent or attribute values. -/
def Tables.IdsAreValues (table : Table) : Prop := ∀ id ∈ table.keys, IsIdValue id

theorem Tables.IdsAreValues.insert {table : Table} (h : IdsAreValues table)
    {id : Option String} (hid : IsIdValue id) (name : Option String) :
    IdsAreValues (table.insert id name) := by
  intro other hother
  rw [OrderedMap.keys_insert] at hother
  split_ifs at hother
  · exact h other hother
  · rcases List.mem_append.mp hother with hother | hother
    · exact h other hother
    · exact List.mem_singleton.mp hother ▸ hid

theorem Tables.idsAreValues_empty : IdsAreValues .empty := by
  intro id h
  cases h

theorem Tables.idsAreValues_tableOf (kind : TableKind) (lines : List String) :
    IdsAreValues (tableOf (filingOf kind) lines) := by
  intro id h
  unfold tableOf at h
  rw [OrderedMap.ofList_eq_latest, OrderedMap.keys_latest, OrderedMap.mem_distinct] at h
  obtain ⟨filing, hfiling, rfl⟩ := List.mem_map.mp h
  obtain ⟨line, -, hline⟩ := List.mem_filterMap.mp hfiling
  obtain ⟨key, rfl⟩ := exists_filing hline
  exact isIdValue_filing key line

namespace ObjectiveTables

open Tables

/-- All ids that the four tables know, and the one that waits for a name, are absent or attribute
values. -/
structure IdsAreValues (state : ObjectiveTables × Option (Option String)) : Prop where
  objectives : Tables.IdsAreValues state.1.objectives
  tasks : Tables.IdsAreValues state.1.tasks
  descriptions : Tables.IdsAreValues state.1.descriptions
  clues : Tables.IdsAreValues state.1.clues
  waiting : ∀ id, state.2 = some id → IsIdValue id

def idOf : ObjectiveRecord → Option String
  | .objective id => id
  | .description id _ => id
  | .task id _ => id
  | .clue id _ => id

theorem isIdValue_of_parse? {line : String} {r : ObjectiveRecord}
    (h : ObjectiveRecord.parse? line = some r) : IsIdValue (idOf r) := by
  have hid : idOf r = (Markup.filing "displayname" line).1 := by
    unfold ObjectiveRecord.parse? at h
    dsimp only at h
    split_ifs at h <;> cases h <;> rfl
  exact hid ▸ isIdValue_filing _ line

theorem IdsAreValues.nameObjective {t : ObjectiveTables} {waiting : Option (Option String)}
    (h : IdsAreValues (t, waiting)) (name : Option String) :
    IdsAreValues (t.nameObjective waiting name, none) := by
  have hnone : ∀ id, (none : Option (Option String)) = some id → IsIdValue id := by
    intro id hid
    cases hid
  cases waiting with
  | none => exact ⟨h.objectives, h.tasks, h.descriptions, h.clues, hnone⟩
  | some id =>
    exact ⟨h.objectives.insert (h.waiting id rfl) name, h.tasks, h.descriptions, h.clues, hnone⟩

theorem idsAreValues_readRecord {state : ObjectiveTables × Option (Option String)}
    (h : IdsAreValues state) {r : ObjectiveRecord} (hr : IsIdValue (idOf r)) :
    IdsAreValues (readRecord state r) := by
  obtain ⟨t, waiting⟩ := state
  cases r with
  | objective id =>
    refine ⟨h.objectives, h.tasks, h.descriptions, h.clues, fun other hother => ?_⟩
    exact Option.some.inj hother ▸ hr
  | description id name =>
    exact ⟨h.objectives, h.tasks, h.descriptions.insert hr name, h.clues, h.waiting⟩
  | task id name =>
    have htasks : IdsAreValues ({ t with tasks := t.tasks.insert id name }, waiting) :=
      ⟨h.objectives, h.tasks.insert hr name, h.descriptions, h.clues, h.waiting⟩
    exact htasks.nameObjective name
  | clue id name =>
    have hclues : IdsAreValues ({ t with clues := t.clues.insert id name }, waiting) :=
      ⟨h.objectives, h.tasks, h.descriptions, h.clues.insert hr name, h.waiting⟩
    exact hclues.nameObjective name

theorem idsAreValues_foldl_readRecord {records : List ObjectiveRecord}
    {state : ObjectiveTables × Option (Option String)} (h : IdsAreValues state)
    (hrecords : ∀ r ∈ records, IsIdValue (idOf r)) :
    IdsAreValues (records.foldl readRecord state) := by
  induction records generalizing state with
  | nil => exact h
  | cons r records ih =>
    refine ih (idsAreValues_readRecord h (hrecords r (List.mem_cons_self ..))) ?_
    exact fun other hother => hrecords other (List.mem_cons_of_mem _ hother)

/-- No objective waits between two files. -/
theorem IdsAreValues.readFile {t : ObjectiveTables} (h : IdsAreValues (t, none))
    (lines : List String) : IdsAreValues (t.readFile lines, none) := by
  have hrecords : ∀ r ∈ lines.filterMap ObjectiveRecord.parse?, IsIdValue (idOf r) := by
    intro r hr
    obtain ⟨line, -, hline⟩ := List.mem_filterMap.mp hr
    exact isIdValue_of_parse? hline
  have hfile := idsAreValues_foldl_readRecord h hrecords
  exact ⟨hfile.objectives, hfile.tasks, hfile.descriptions, hfile.clues, h.waiting⟩

theorem idsAreValues_foldl_readFile {t : ObjectiveTables} (h : IdsAreValues (t, none))
    (files : List (Path × List UInt8)) :
    IdsAreValues (files.foldl (fun t f => t.readFile (Text.linesOfBytes f.2)) t, none) := by
  induction files generalizing t with
  | nil => exact h
  | cons f files ih => exact ih (h.readFile _)

theorem idsAreValues_of_gives_load {tree : FileTree} {directory : Path} {t : ObjectiveTables}
    (h : Loading.Gives (load tree directory) t) : IdsAreValues (t, none) := by
  have hstart : IdsAreValues (start, none) := by
    refine ⟨idsAreValues_empty, idsAreValues_empty, idsAreValues_empty, idsAreValues_empty, ?_⟩
    intro id hid
    cases hid
  unfold load at h
  split at h
  · rename_i read hread
    rw [Loading.gives_pure.mp h]
    obtain ⟨files, rfl⟩ := exists_files_of_read hread
    exact idsAreValues_foldl_readFile hstart files
  · obtain ⟨_, -, hgives⟩ := Loading.gives_bind.mp h
    rw [Loading.gives_pure.mp hgives]
    exact hstart
  · cases h

end ObjectiveTables

namespace Tables

/-- **Every id that a loaded table knows is absent or an attribute value.** -/
theorem idsAreValues_of_gives_load {tree : FileTree} {settings : Settings} {tables : Tables}
    (h : Loading.Gives (load tree settings) tables) (kind : TableKind) :
    IdsAreValues (tables.table kind) := by
  obtain ⟨⟨fromObjectives, hobjectives, ho, ht, hd, hc⟩, hfile⟩ := gives_load h
  have hvalues := ObjectiveTables.idsAreValues_of_gives_load hobjectives
  have hown : ∀ path, settings.layout.fileOf kind = some path →
      IdsAreValues (tables.table kind) := by
    intro path hpath
    rcases gives_loadTable (hfile kind path hpath) with ⟨lines, -, htable⟩ | ⟨-, htable⟩
    · rw [htable]
      exact idsAreValues_tableOf kind lines
    · rw [htable]
      exact idsAreValues_empty
  cases kind with
  | objectives => exact ho ▸ hvalues.objectives
  | tasks => exact ht ▸ hvalues.tasks
  | descriptions => exact hd ▸ hvalues.descriptions
  | clues => exact hc ▸ hvalues.clues
  | gameTokens => exact hown _ rfl
  | gameMetrics => exact hown _ rfl
  | remoteEvents => exact hown _ rfl
  | locations => exact hown _ rfl
  | connectivity => exact hown _ rfl

end Tables

end FlowAtlas
