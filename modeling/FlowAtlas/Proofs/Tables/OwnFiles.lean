import FlowAtlas.Proofs.Tables.Objectives
import FlowAtlas.Proofs.Text.Occurrence

/-!
# Tables and their own files

A table with a file of its own holds the last name that the lines of this file give to each id, and
is empty where no file can be read.  It depends on nothing else.  A source that is missing, or is no
file, does not keep the tables from being loaded; a path does that holds a NUL, or that is too long
for the system to say what stands in the objectives directory.

Main facts: `lineSays_iff` and `lastNames_tableOf` (what a table holds), `exists_gives_load_iff`
(when there are tables) and `Tables.load_ownFiles`.
-/

namespace FlowAtlas

open OrderedMap (valuesOf)

/-! ## What lines say -/

/-- What a line of a table's own file says: the name of an id, each of which may be absent. -/
inductive LineSays (line : String) : TableKind → Option String → Option String → Prop
  | gameToken (h : "<GameToken ".toList <:+: line.toList) :
      LineSays line .gameTokens ((Markup.attributes line).get? "id")
        ((Markup.attributes line).get? "name")
  | gameMetric (h : "<ArkGameMetricProperties".toList <:+: line.toList) :
      LineSays line .gameMetrics ((Markup.attributes line).get? "id")
        ((Markup.attributes line).get? "name")
  | remoteEvent (h : Markup.tag line = "ArkRemoteEvent") :
      LineSays line .remoteEvents ((Markup.attributes line).get? "id")
        ((Markup.attributes line).get? "name")
  | location (h : "<ArkLocation ".toList <:+: line.toList) :
      LineSays line .locations ((Markup.attributes line).get? "id")
        ((Markup.attributes line).get? "name")
  | path (h : "<ArkStationPath ".toList <:+: line.toList) :
      LineSays line .connectivity ((Markup.attributes line).get? "id")
        ((Markup.attributes line).get? "name")
  /-- An airlock has the location that it leads to for a name. -/
  | airlock (hpath : ¬ "<ArkStationPath ".toList <:+: line.toList)
      (h : "<ArkStationAirlock ".toList <:+: line.toList) :
      LineSays line .connectivity ((Markup.attributes line).get? "id")
        ((Markup.attributes line).get? "location")

/-- The table has the last name that the lines give to each id. -/
structure LastNames (kind : TableKind) (lines : List String) (table : Table) : Prop where
  known : ∀ id name, table.get? id = some name ↔ ∃ front line back,
    lines = front ++ line :: back ∧ LineSays line kind id name ∧
      ∀ later ∈ back, ∀ other, ¬ LineSays later kind id other
  unknown : ∀ id, table.get? id = none ↔ ∀ line ∈ lines, ∀ name, ¬ LineSays line kind id name

namespace Tables

section Lines

variable {kind : TableKind} {line : String} {id name : Option String}

theorem markedFiling_eq_some_iff {mark key : String} :
    markedFiling mark key line = some (id, name) ↔ mark.toList <:+: line.toList ∧
      id = (Markup.attributes line).get? "id" ∧ name = (Markup.attributes line).get? key := by
  unfold markedFiling
  rw [← Text.hasWord_iff]
  split
  · rename_i h
    simp [h, Markup.filing, eq_comm]
  · rename_i h
    simp [h]

theorem markedFiling_eq_none_iff {mark key : String} :
    markedFiling mark key line = none ↔ ¬ mark.toList <:+: line.toList := by
  unfold markedFiling
  rw [← Text.hasWord_iff]
  split
  · rename_i h
    simp [h]
  · rename_i h
    simp [h]

/-- A line files what it says. -/
theorem lineSays_iff : LineSays line kind id name ↔ filingOf kind line = some (id, name) := by
  constructor
  · rintro (h | h | h | h | h | ⟨hpath, h⟩)
    · exact markedFiling_eq_some_iff.mpr ⟨h, rfl, rfl⟩
    · exact markedFiling_eq_some_iff.mpr ⟨h, rfl, rfl⟩
    · exact if_pos h
    · exact markedFiling_eq_some_iff.mpr ⟨h, rfl, rfl⟩
    · exact Option.or_eq_some_iff.mpr (Or.inl (markedFiling_eq_some_iff.mpr ⟨h, rfl, rfl⟩))
    · exact Option.or_eq_some_iff.mpr (Or.inr
        ⟨markedFiling_eq_none_iff.mpr hpath, markedFiling_eq_some_iff.mpr ⟨h, rfl, rfl⟩⟩)
  · intro h
    cases kind with
    | gameTokens =>
      obtain ⟨hmark, rfl, rfl⟩ := markedFiling_eq_some_iff.mp h
      exact .gameToken hmark
    | gameMetrics =>
      obtain ⟨hmark, rfl, rfl⟩ := markedFiling_eq_some_iff.mp h
      exact .gameMetric hmark
    | locations =>
      obtain ⟨hmark, rfl, rfl⟩ := markedFiling_eq_some_iff.mp h
      exact .location hmark
    | remoteEvents =>
      change taggedFiling "ArkRemoteEvent" line = _ at h
      unfold taggedFiling at h
      split at h
      · rename_i htag
        cases h
        exact .remoteEvent htag
      · cases h
    | connectivity =>
      rcases Option.or_eq_some_iff.mp h with h | ⟨hpath, h⟩
      · obtain ⟨hmark, rfl, rfl⟩ := markedFiling_eq_some_iff.mp h
        exact .path hmark
      · obtain ⟨hmark, rfl, rfl⟩ := markedFiling_eq_some_iff.mp h
        exact .airlock (markedFiling_eq_none_iff.mp hpath) hmark
    | objectives => cases h
    | tasks => cases h
    | descriptions => cases h
    | clues => cases h

/-- A line says one thing. -/
theorem eq_of_lineSays {id' name' : Option String} (h : LineSays line kind id name)
    (h' : LineSays line kind id' name') : id = id' ∧ name = name' := by
  have hboth := (lineSays_iff.mp h).symm.trans (lineSays_iff.mp h')
  cases hboth
  exact ⟨rfl, rfl⟩

/-- What a line files under an id. -/
def filedUnder (filing : String → Option Filing) (id : Option String) (line : String) :
    Option (Option String) :=
  (filing line).bind fun filed => if filed.1 = id then some filed.2 else none

theorem filedUnder_eq_some_iff :
    filedUnder (filingOf kind) id line = some name ↔ LineSays line kind id name := by
  unfold filedUnder
  rw [lineSays_iff, Option.bind_eq_some_iff]
  constructor
  · rintro ⟨⟨other, otherName⟩, hfiled, h⟩
    split at h
    · rename_i heq
      cases heq
      cases h
      exact hfiled
    · cases h
  · intro h
    exact ⟨(id, name), h, if_pos rfl⟩

theorem filedUnder_eq_none_iff :
    filedUnder (filingOf kind) id line = none ↔ ∀ name, ¬ LineSays line kind id name := by
  rw [Option.eq_none_iff_forall_ne_some]
  exact forall_congr' fun name => not_congr filedUnder_eq_some_iff

theorem valuesOf_filterMap (filing : String → Option Filing) (id : Option String)
    (lines : List String) :
    valuesOf id (lines.filterMap filing) = lines.filterMap (filedUnder filing id) := by
  induction lines with
  | nil => rfl
  | cons line lines ih =>
    cases hfiled : filing line with
    | none => simpa [filedUnder, hfiled] using ih
    | some filed =>
      by_cases heq : filed.1 = id
      · simpa [valuesOf, filedUnder, hfiled, heq] using ih
      · simpa [valuesOf, filedUnder, hfiled, heq] using ih

/-- **The last line that names an id counts.** -/
theorem lastNames_tableOf (kind : TableKind) (lines : List String) :
    LastNames kind lines (tableOf (filingOf kind) lines) := by
  -- The last line of an id is the first that is found from the end.
  have hget : ∀ id, (tableOf (filingOf kind) lines).get? id =
      lines.reverse.findSome? (filedUnder (filingOf kind) id) := by
    intro id
    unfold tableOf
    rw [OrderedMap.ofList_eq_latest, OrderedMap.get?_latest, valuesOf_filterMap,
      List.getLast?_filterMap]
  constructor
  · intro id name
    rw [hget, List.findSome?_eq_some_iff]
    constructor
    · rintro ⟨later, line, earlier, hlines, hline, hlater⟩
      refine ⟨earlier.reverse, line, later.reverse, ?_, filedUnder_eq_some_iff.mp hline, ?_⟩
      · have hforth : lines = lines.reverse.reverse := (List.reverse_reverse lines).symm
        rw [hforth, hlines]
        simp
      · intro other hother
        exact filedUnder_eq_none_iff.mp (hlater other (List.mem_reverse.mp hother))
    · rintro ⟨front, line, back, rfl, hline, hback⟩
      refine ⟨back.reverse, line, front.reverse, by simp, filedUnder_eq_some_iff.mpr hline, ?_⟩
      intro other hother
      exact filedUnder_eq_none_iff.mpr (hback other (List.mem_reverse.mp hother))
  · intro id
    rw [hget, List.findSome?_eq_none_iff]
    simp only [List.mem_reverse, filedUnder_eq_none_iff]

end Lines

end Tables

/-! ## Sources -/

namespace FileTree

section Sources

variable {tree : FileTree} {path directory : Path}

/-- The content of the file at a path, if there is one. -/
def sourceAt (tree : FileTree) (path : Path) : Option (List UInt8) :=
  (tree.status path).toOption.bind contentOf?

/-- The contents of the regular files in a directory, by name; none if there is no directory. -/
def sourcesIn (tree : FileTree) (directory : Path) : List (List UInt8) :=
  if tree.isDirectory directory = .ok true then (tree.regularFiles directory).toOption.getD []
  else []

/-- The system can be asked what stands at the path: neither the path nor a name that it is followed
to is too long. -/
def Takes (tree : FileTree) (path : Path) : Prop :=
  path.hasNul = true ∨ tree.locate path ≠ .error .nameTooLong

/-- The system can be asked about the directory and about everything in it. -/
structure Examinable (tree : FileTree) (directory : Path) : Prop where
  path : tree.Takes directory
  names : tree.isDirectory directory = .ok true →
    ∀ name ∈ tree.list directory, tree.Takes (directory.entry name)

theorem exists_status_iff : (∃ entry, tree.status path = .ok entry) ↔ tree.Takes path := by
  unfold status Takes
  cases hnul : path.hasNul with
  | true => simp
  | false =>
    cases hlocate : tree.locate path with
    | ok location => simp
    | error fault => cases fault <;> simp

theorem exists_map_iff {α β ε : Type} {f : α → β} {asked : Except ε α} :
    (∃ answer, asked.map f = .ok answer) ↔ ∃ answer, asked = .ok answer := by
  cases asked with
  | ok answer => exact ⟨fun _ => ⟨answer, rfl⟩, fun _ => ⟨f answer, rfl⟩⟩
  | error e =>
    constructor
    · rintro ⟨answer, h⟩
      cases h
    · rintro ⟨answer, h⟩
      cases h

theorem exists_isDirectory_iff :
    (∃ answer, tree.isDirectory directory = .ok answer) ↔ tree.Takes directory :=
  exists_map_iff.trans exists_status_iff

/-- All items are answered exactly if none is refused. -/
theorem exists_mapM_iff {α β ε : Type} {ask : α → Except ε β} {items : List α} :
    (∃ answers, items.mapM ask = .ok answers) ↔
      ∀ item ∈ items, ∃ answer, ask item = .ok answer := by
  induction items with
  | nil => exact ⟨fun _ => List.forall_mem_nil _, fun _ => ⟨[], rfl⟩⟩
  | cons item items ih =>
    rw [List.forall_mem_cons, ← ih, List.mapM_cons]
    cases ask item with
    | error e =>
      constructor
      · rintro ⟨answers, h⟩
        cases h
      · rintro ⟨⟨answer, h⟩, -⟩
        cases h
    | ok answer =>
      cases items.mapM ask with
      | error e =>
        constructor
        · rintro ⟨answers, h⟩
          cases h
        · rintro ⟨-, ⟨answers, h⟩⟩
          cases h
      | ok answers => exact ⟨fun _ => ⟨⟨answer, rfl⟩, ⟨answers, rfl⟩⟩, fun _ => ⟨_, rfl⟩⟩

theorem exists_regularFiles_iff : (∃ contents, tree.regularFiles directory = .ok contents) ↔
    ∀ name ∈ tree.list directory, tree.Takes (directory.entry name) := by
  simp only [← exists_status_iff]
  exact exists_map_iff.trans exists_mapM_iff

end Sources

end FileTree

namespace Tables

open Loading

section Load

variable {tree : FileTree} {settings : Settings} {kind : TableKind} {path : Path}

/-- What a table with a file of its own holds. -/
def tableAt (tree : FileTree) (kind : TableKind) (path : Path) : Table :=
  match tree.sourceAt path with
  | some content => tableOf (filingOf kind) (Text.linesOfBytes content)
  | none => .empty

/-- A path without a NUL is read if a file stands there, and refused otherwise. -/
theorem readLines_cases (tree : FileTree) (h : path.hasNul = false) :
    (∃ content, tree.sourceAt path = some content ∧
      readLines tree path = .ok (Text.linesOfBytes content)) ∨
    (tree.sourceAt path = none ∧ ∃ e, readLines tree path = .error (.system e)) := by
  unfold FileTree.sourceAt FileTree.status readLines FileTree.read
  rw [h]
  cases tree.locate path with
  | error fault => cases fault <;> exact Or.inr ⟨rfl, _, rfl⟩
  | ok location =>
    dsimp only
    cases tree.entryAt location with
    | none => exact Or.inr ⟨rfl, _, rfl⟩
    | some entry =>
      cases entry with
      | directory => exact Or.inr ⟨rfl, _, rfl⟩
      | file content => exact Or.inl ⟨content, rfl, rfl⟩

theorem gives_loadTable_iff {table : Table} :
    Gives (loadTable tree kind path) table ↔
      path.hasNul = false ∧ table = tableAt tree kind path := by
  cases hnul : path.hasNul with
  | true =>
    have hread : readLines tree path = .error .nulInPath := by
      unfold readLines FileTree.read
      rw [hnul]
      rfl
    unfold loadTable
    rw [hread]
    constructor
    · intro h
      cases h
    · rintro ⟨h, -⟩
      cases h
  | false =>
    unfold loadTable tableAt
    rcases readLines_cases tree hnul with ⟨content, hsource, hread⟩ | ⟨hsource, e, hread⟩
    · rw [hsource, hread]
      exact ⟨fun h => ⟨rfl, gives_pure.mp h⟩, fun h => gives_pure.mpr h.2⟩
    · rw [hsource, hread]
      constructor
      · intro h
        obtain ⟨_, -, htable⟩ := gives_bind.mp h
        exact ⟨rfl, gives_pure.mp htable⟩
      · rintro ⟨-, rfl⟩
        exact gives_bind.mpr ⟨(), rfl, gives_pure.mpr rfl⟩

end Load

end Tables

namespace ObjectiveTables

variable {tree : FileTree} {directory : Path} {t : ObjectiveTables}

/-- The tables of the objectives are loaded exactly if the system can be asked about their directory
and what is in it; they tell what the files there say. -/
theorem gives_load_iff :
    Loading.Gives (load tree directory) t ↔
      tree.Examinable directory ∧ t = told ((tree.sourcesIn directory).map recordsOf) := by
  unfold load FileTree.sourcesIn
  cases hdirectory : tree.isDirectory directory with
  | error e =>
    have hread : read tree directory = .error e := by
      unfold ObjectiveTables.read
      rw [hdirectory]
      rfl
    rw [hread]
    constructor
    · intro h
      cases h
    · rintro ⟨hexaminable, -⟩
      obtain ⟨answer, hanswer⟩ := FileTree.exists_isDirectory_iff.mpr hexaminable.path
      rw [hdirectory] at hanswer
      cases hanswer
  | ok answer =>
    have htakes : tree.Takes directory :=
      FileTree.exists_isDirectory_iff.mp ⟨answer, hdirectory⟩
    cases answer with
    | false =>
      have hread : read tree directory = .ok none := by
        unfold ObjectiveTables.read
        rw [hdirectory]
        rfl
      rw [hread]
      constructor
      · intro h
        obtain ⟨_, -, ht⟩ := Loading.gives_bind.mp h
        refine ⟨⟨htakes, fun htrue => ?_⟩, Loading.gives_pure.mp ht⟩
        rw [hdirectory] at htrue
        cases htrue
      · rintro ⟨-, rfl⟩
        exact Loading.gives_bind.mpr ⟨(), rfl, Loading.gives_pure.mpr rfl⟩
    | true =>
      rw [read_eq hdirectory, if_pos rfl]
      have hnames : (∃ contents, tree.regularFiles directory = .ok contents) ↔
          ∀ name ∈ tree.list directory, tree.Takes (directory.entry name) :=
        FileTree.exists_regularFiles_iff
      cases hfiles : tree.regularFiles directory with
      | error e =>
        constructor
        · intro h
          cases h
        · rintro ⟨hexaminable, -⟩
          obtain ⟨contents, hcontents⟩ := hnames.mpr (hexaminable.names hdirectory)
          rw [hfiles] at hcontents
          cases hcontents
      | ok contents =>
        have hexaminable : tree.Examinable directory :=
          ⟨htakes, fun _ => hnames.mp ⟨contents, hfiles⟩⟩
        exact ⟨fun h => ⟨hexaminable, Loading.gives_pure.mp h⟩,
          fun h => Loading.gives_pure.mpr h.2⟩

end ObjectiveTables

/-! ## All tables -/

namespace Tables

open Loading

/-- The system can be asked about everything in the objectives directory, and no path to a table's
own file holds a NUL. -/
structure Loadable (tree : FileTree) (settings : Settings) : Prop where
  objectives : tree.Examinable (settings.sourceRoot.join settings.layout.objectives)
  files : ∀ kind path, settings.layout.fileOf kind = some path →
    (settings.sourceRoot.join path).hasNul = false

section All

variable {tree : FileTree} {settings : Settings} {tables : Tables}

theorem exists_gives_load_iff :
    (∃ tables, Gives (load tree settings) tables) ↔ Loadable tree settings := by
  constructor
  · rintro ⟨tables, h⟩
    obtain ⟨⟨fromObjectives, hobjectives, -⟩, hfiles⟩ := gives_load h
    exact ⟨(ObjectiveTables.gives_load_iff.mp hobjectives).1,
      fun kind path hpath => (gives_loadTable_iff.mp (hfiles kind path hpath)).1⟩
  · rintro ⟨hobjectives, hfiles⟩
    have hobjectives := ObjectiveTables.gives_load_iff.mpr ⟨hobjectives, rfl⟩
    have hfile : ∀ kind path, settings.layout.fileOf kind = some path →
        Gives (loadTable tree kind (settings.sourceRoot.join path))
          (tableAt tree kind (settings.sourceRoot.join path)) :=
      fun kind path hpath => gives_loadTable_iff.mpr ⟨hfiles kind path hpath, rfl⟩
    unfold load
    simp only [gives_bind, gives_pure]
    exact ⟨_, _, hobjectives, _, hfile .gameTokens _ rfl, _, hfile .gameMetrics _ rfl, _,
      hfile .remoteEvents _ rfl, _, hfile .locations _ rfl, _, hfile .connectivity _ rfl, (), rfl,
      rfl⟩

theorem table_of_gives_load (h : Gives (load tree settings) tables) {kind : TableKind} {path : Path}
    (hpath : settings.layout.fileOf kind = some path) :
    tables.table kind = tableAt tree kind (settings.sourceRoot.join path) :=
  (gives_loadTable_iff.mp ((gives_load h).2 kind path hpath)).2

/-- A table without a file of its own depends on the objectives directory only. -/
theorem eq_of_sourcesIn_eq {tree' : FileTree} {settings' : Settings} {tables' : Tables}
    (h : Gives (load tree settings) tables) (h' : Gives (load tree' settings') tables')
    (hsame : tree'.sourcesIn (settings'.sourceRoot.join settings'.layout.objectives) =
      tree.sourcesIn (settings.sourceRoot.join settings.layout.objectives))
    {kind : TableKind} (hkind : settings.layout.fileOf kind = none) :
    tables'.table kind = tables.table kind := by
  obtain ⟨⟨t, ht, hobjectives, htasks, hdescriptions, hclues⟩, -⟩ := gives_load h
  obtain ⟨⟨t', ht', hobjectives', htasks', hdescriptions', hclues'⟩, -⟩ := gives_load h'
  have heq : t' = t := by
    rw [(ObjectiveTables.gives_load_iff.mp ht).2, (ObjectiveTables.gives_load_iff.mp ht').2, hsame]
  subst heq
  cases kind with
  | objectives => rw [hobjectives, hobjectives']
  | tasks => rw [htasks, htasks']
  | descriptions => rw [hdescriptions, hdescriptions']
  | clues => rw [hclues, hclues']
  | _ => cases hkind

end All

/-- **Every table with a file of its own holds the last name of each id there, is empty without a
file, and depends on nothing else.**  There are tables exactly if the system can be asked about the
objectives directory and what is in it, and no path of a file holds a NUL. -/
theorem load_ownFiles (tree : FileTree) (settings : Settings) :
    ((∃ tables, Gives (load tree settings) tables) ↔ Loadable tree settings) ∧
    ∀ tables, Gives (load tree settings) tables →
      (∀ kind path, settings.layout.fileOf kind = some path →
        (∀ content, tree.sourceAt (settings.sourceRoot.join path) = some content →
          LastNames kind (Text.linesOfBytes content) (tables.table kind)) ∧
        (tree.sourceAt (settings.sourceRoot.join path) = none → tables.table kind = .empty) ∧
        ∀ tree' settings' tables' path', Gives (load tree' settings') tables' →
          settings'.layout.fileOf kind = some path' →
            tree'.sourceAt (settings'.sourceRoot.join path') =
                tree.sourceAt (settings.sourceRoot.join path) →
              tables'.table kind = tables.table kind) ∧
      ∀ kind tree' settings' tables', settings.layout.fileOf kind = none →
        Gives (load tree' settings') tables' →
          tree'.sourcesIn (settings'.sourceRoot.join settings'.layout.objectives) =
              tree.sourcesIn (settings.sourceRoot.join settings.layout.objectives) →
            tables'.table kind = tables.table kind := by
  refine ⟨exists_gives_load_iff, fun tables hload => ⟨fun kind path hpath => ⟨?_, ?_, ?_⟩, ?_⟩⟩
  · intro content hcontent
    rw [table_of_gives_load hload hpath, tableAt, hcontent]
    exact lastNames_tableOf kind _
  · intro hnone
    rw [table_of_gives_load hload hpath, tableAt, hnone]
  · intro tree' settings' tables' path' hload' hpath' hsame
    rw [table_of_gives_load hload hpath, table_of_gives_load hload' hpath', tableAt, tableAt, hsame]
  · intro kind tree' settings' tables' hkind hload' hsame
    exact eq_of_sourcesIn_eq hload hload' hsame hkind

/-- Where the game keeps its files there is no NUL in a path. -/
theorem hasNul_standard : ∀ kind path, Settings.standard.layout.fileOf kind = some path →
    (Settings.standard.sourceRoot.join path).hasNul = false := by
  intro kind path hpath
  cases kind <;> cases hpath <;> decide

/-! ## One file among others -/

namespace StationFile

/-- An id that is named twice, first as a path and then as an airlock, and a path without an id. -/
def hall : String := "<ArkStationPath Id=\"1\" Name=\"Hall\"/>"

def airlock : String := "<ArkStationAirlock Id=\"1\" Location=\"20\"/>"

def loose : String := "<ArkStationPath Name=\"Loose\"/>"

def content : List UInt8 :=
  Text.Utf8.encode (hall ++ "\n" ++ airlock ++ "\n" ++ loose ++ "\n").toList

/-- Game data of the stations alone. -/
def tree : FileTree :=
  (FileTree.bare ["work"]).plant ["work", "Ark", "Campaign", "StationAccessLibrary.xml"]
    (.file content)

/-- The same with a token file that is no text, and a directory where another file should be. -/
def garbled : FileTree :=
  (tree.plant ["work", "Libs", "GameTokens", "GT_Global.xml"] (.file [0xff, 0x3c, 0])).plant
    ["work", "Ark", "Campaign", "Locations.xml"] .directory

def path : Path := ⟨.here, ["Ark", "Campaign", "StationAccessLibrary.xml"]⟩

theorem linesOfBytes_content : Text.linesOfBytes content = [hall, airlock, loose] := by
  decide +kernel

theorem says_hall : LineSays hall .connectivity (some "1") (some "Hall") :=
  lineSays_iff.mpr (by decide +kernel)

theorem says_airlock : LineSays airlock .connectivity (some "1") (some "20") :=
  lineSays_iff.mpr (by decide +kernel)

theorem says_loose : LineSays loose .connectivity none (some "Loose") :=
  lineSays_iff.mpr (by decide +kernel)

theorem sourceAt_tree : tree.sourceAt (Settings.standard.sourceRoot.join path) = some content :=
  rfl

theorem sourceAt_garbled :
    garbled.sourceAt (Settings.standard.sourceRoot.join path) = some content :=
  rfl

/-- Where no objectives directory is, nothing in it is asked about. -/
theorem loadable {tree : FileTree}
    (hstatus : tree.status (Settings.standard.sourceRoot.join Settings.standard.layout.objectives) =
      .ok none) : Loadable tree .standard where
  objectives := by
    refine ⟨FileTree.exists_status_iff.mp ⟨none, hstatus⟩, fun hdirectory => ?_⟩
    unfold FileTree.isDirectory at hdirectory
    rw [hstatus] at hdirectory
    cases hdirectory
  files := hasNul_standard

end StationFile

open StationFile in
theorem stationFile_load_ownFiles :
    Loadable tree .standard ∧ Loadable garbled .standard ∧
      ∃ tables, Gives (load tree .standard) tables ∧
        (tables.table .connectivity).get? (some "1") = some (some "20") ∧
        (tables.table .connectivity).get? none = some (some "Loose") ∧
        (tables.table .connectivity).get? (some "20") = none ∧
        tables.table .gameTokens = .empty ∧
        ∃ tables', Gives (load garbled .standard) tables' ∧
          tables'.table .connectivity = tables.table .connectivity := by
  have hloadable : Loadable tree .standard := loadable (by decide)
  have hgarbled : Loadable garbled .standard := loadable (by decide)
  obtain ⟨hgives, htables⟩ := load_ownFiles tree .standard
  obtain ⟨tables, hload⟩ := hgives.mpr hloadable
  obtain ⟨tables', hload'⟩ := (load_ownFiles garbled .standard).1.mpr hgarbled
  obtain ⟨hlast, -, hsame⟩ := (htables tables hload).1 .connectivity path rfl
  have hnames := hlast content sourceAt_tree
  obtain ⟨-, hempty, -⟩ := (htables tables hload).1 .gameTokens _ rfl
  rw [linesOfBytes_content] at hnames
  refine ⟨hloadable, hgarbled, tables, hload, ?_, ?_, ?_, hempty (by decide), tables', hload',
    hsame garbled .standard tables' path hload' rfl (sourceAt_garbled.trans sourceAt_tree.symm)⟩
  · refine (hnames.known _ _).mpr ⟨[hall], airlock, [loose], rfl, says_airlock, ?_⟩
    rintro later hlater other hsays
    rw [List.mem_singleton.mp hlater] at hsays
    exact absurd (eq_of_lineSays says_loose hsays).1 (by decide)
  · exact (hnames.known _ _).mpr ⟨[hall, airlock], loose, [], rfl, says_loose,
      List.forall_mem_nil _⟩
  · refine (hnames.unknown _).mpr fun line hline name hsays => ?_
    simp only [List.mem_cons, List.not_mem_nil, or_false] at hline
    rcases hline with rfl | rfl | rfl
    · exact absurd (eq_of_lineSays says_hall hsays).1 (by decide)
    · exact absurd (eq_of_lineSays says_airlock hsays).1 (by decide)
    · exact absurd (eq_of_lineSays says_loose hsays).1 (by decide)

/-! ## A name that is too long -/

namespace LongName

def name : String := String.ofList (List.replicate 256 'o')

def directory : Path := ⟨.here, [name]⟩

/-- The objectives are looked for in a directory of this name. -/
def settings : Settings :=
  { Settings.standard with layout := { SourceLayout.standard with objectives := directory } }

def tree : FileTree := .bare ["work"]

theorem hasNul_directory : directory.hasNul = false := by
  have hmem : '\x00' ∉ name.toList := by
    unfold name
    rw [String.toList_ofList]
    exact fun h => absurd (List.eq_of_mem_replicate h) (by decide)
  simp only [directory, Path.hasNul, List.any_cons, List.any_nil, Bool.or_false,
    List.contains_eq_mem, decide_eq_false_iff_not]
  exact hmem

theorem locate_directory : tree.locate directory = .error .nameTooLong := by
  have hsize : FileTree.maxNameBytes < name.utf8ByteSize := by decide +kernel
  have hhome : tree.entryAt ["work"] = some .directory := by decide
  have hstep : tree.step ["work"] name = .error .nameTooLong := by
    unfold FileTree.step
    rw [hhome]
    exact if_pos hsize
  unfold FileTree.locate
  split
  · rfl
  · show (do tree.walk (← tree.step ["work"] name) []) = _
    rw [hstep]
    rfl

theorem not_takes_directory : ¬ tree.Takes directory := by
  rintro (hnul | hlocate)
  · rw [hasNul_directory] at hnul
    cases hnul
  · exact hlocate locate_directory

end LongName

open LongName in
/-- Without any source there are still no tables if the name of the objectives directory is too
long. -/
theorem not_forall_load_ownFiles :
    ¬ ∀ (tree : FileTree) (settings : Settings), ∃ tables, Gives (load tree settings) tables := by
  intro hall
  have hloadable : Loadable tree settings := exists_gives_load_iff.mp (hall tree settings)
  exact not_takes_directory hloadable.objectives.path

end Tables

end FlowAtlas
