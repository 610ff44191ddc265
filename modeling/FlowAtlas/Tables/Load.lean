import FlowAtlas.Files.Tree
import FlowAtlas.Log
import FlowAtlas.Markup
import FlowAtlas.Settings
import FlowAtlas.Tables.Basic
import FlowAtlas.Text.Lines
import FlowAtlas.Text.Search

/-!
# Loading name tables

Most tables are read from one file each: every line of a certain mark files a name under its id, and
the last line of an id counts.  A file that the system cannot read leaves its table empty.

The files of the objectives directory fill four tables.  An objective has no name of its own; it
takes the name of the first task or clue behind it in its file.
-/

namespace FlowAtlas

/-- What keeps a log and may fail. -/
abbrev Loading := ExceptT FileError Logged

/-- Make one record. -/
def Loading.emit (level : Level) (message : String) : Loading Unit :=
  ExceptT.lift (Logged.emit level message)

/-! ## Tables from one file -/

/-- What a line files: an id and a name, both possibly absent. -/
abbrev Filing := Option String × Option String

/-- The filing of a line's id and another of its attributes. -/
def Markup.filing (key line : String) : Filing :=
  let attributes := Markup.attributes line
  (attributes.get? "id", attributes.get? key)

namespace Tables

/-- The lines of a file. -/
def readLines (tree : FileTree) (path : Path) : Except FileError (List String) :=
  (tree.read path).map Text.linesOfBytes

/-- What a line with the given mark files. -/
def markedFiling (mark key line : String) : Option Filing :=
  if Text.hasWord line mark then some (Markup.filing key line) else none

/-- What a line with the given tag files. -/
def taggedFiling (tag line : String) : Option Filing :=
  if Markup.tag line = tag then some (Markup.filing "name" line) else none

/-- What a line of the connectivity file files: paths have names, airlocks lead to locations. -/
def connectivityFiling (line : String) : Option Filing :=
  (markedFiling "<ArkStationPath " "name" line).or
    (markedFiling "<ArkStationAirlock " "location" line)

/-- What the lines of a table's own file file; nothing for the tables of the objectives. -/
def filingOf : TableKind → String → Option Filing
  | .gameTokens => markedFiling "<GameToken " "name"
  | .gameMetrics => markedFiling "<ArkGameMetricProperties" "name"
  | .remoteEvents => taggedFiling "ArkRemoteEvent"
  | .locations => markedFiling "<ArkLocation " "name"
  | .connectivity => connectivityFiling
  | .objectives | .tasks | .descriptions | .clues => fun _ => none

/-- The table of what lines file; the last filing of an id counts. -/
def tableOf (filing : String → Option Filing) (lines : List String) : Table :=
  .ofList (lines.filterMap filing)

/-- Load a table from its own file. -/
def loadTable (tree : FileTree) (kind : TableKind) (path : Path) : Loading Table :=
  match readLines tree path with
  | .ok lines => pure (tableOf (filingOf kind) lines)
  | .error (.system e) => do
    Loading.emit .warning
      ("Lookup source " ++ path.text ++ " unavailable, using empty table: " ++ e.message)
    pure .empty
  | .error .nulInPath => throw .nulInPath

/-! ## Tables of the objectives -/

end Tables

/-- A line of an objectives file. -/
inductive ObjectiveRecord
  | objective (id : Option String)
  | description (id name : Option String)
  | task (id name : Option String)
  | clue (id name : Option String)
deriving DecidableEq

/-- The record of a line, by its tag. -/
def ObjectiveRecord.parse? (line : String) : Option ObjectiveRecord :=
  let tag := Markup.tag line
  let (id, name) := Markup.filing "displayname" line
  if tag = "Objective" then some (.objective id)
  else if tag = "Desc" then some (.description id name)
  else if tag = "Task" then some (.task id name)
  else if tag = "Clue" then some (.clue id name)
  else none

/-- The four tables of the objectives while their files are read. -/
structure ObjectiveTables where
  objectives : Table
  tasks : Table
  descriptions : Table
  clues : Table

namespace ObjectiveTables

/-- Nothing read yet. -/
def start : ObjectiveTables := ⟨.empty, .empty, .empty, .empty⟩

instance : Inhabited ObjectiveTables := ⟨start⟩

/-- Give a name to the objective that waits for one. -/
def nameObjective (t : ObjectiveTables) (waiting : Option (Option String))
    (name : Option String) : ObjectiveTables :=
  match waiting with
  | some id => { t with objectives := t.objectives.insert id name }
  | none => t

/-- Read one record; beside the tables goes the id of the objective that waits for a name, if one
does. -/
def readRecord (state : ObjectiveTables × Option (Option String)) :
    ObjectiveRecord → ObjectiveTables × Option (Option String)
  | .objective id => (state.1, some id)
  | .description id name =>
    ({ state.1 with descriptions := state.1.descriptions.insert id name }, state.2)
  | .task id name =>
    (nameObjective { state.1 with tasks := state.1.tasks.insert id name } state.2 name, none)
  | .clue id name =>
    (nameObjective { state.1 with clues := state.1.clues.insert id name } state.2 name, none)

/-- Read one file.  No objective waits beyond the end of its file. -/
def readFile (t : ObjectiveTables) (lines : List String) : ObjectiveTables :=
  ((lines.filterMap ObjectiveRecord.parse?).foldl readRecord (t, none)).1

/-- Read the files of a directory by name; nothing if there is no such directory. -/
def read (tree : FileTree) (directory : Path) : Except SystemError (Option ObjectiveTables) := do
  if ← tree.isDirectory directory then
    let files ← tree.filesAmong directory (tree.list directory)
    pure (some (files.foldl (fun t f => t.readFile (Text.linesOfBytes f.2)) start))
  else pure none

/-- Load the tables of the objectives. -/
def load (tree : FileTree) (directory : Path) : Loading ObjectiveTables :=
  match read tree directory with
  | .ok (some tables) => pure tables
  | .ok none => do
    Loading.emit .warning
      ("Objectives directory " ++ directory.text ++ " not found, objective tables are empty")
    pure start
  | .error e => throw (.system e)

end ObjectiveTables

/-! ## All tables -/

namespace Tables

/-- The sizes of the tables as they are reported. -/
def sizesText (tables : Tables) : String :=
  let pairs := tables.sizes.map fun p => "'" ++ p.1.name ++ "': " ++ Text.decimal p.2
  "\x7b" ++ ", ".intercalate pairs ++ "\x7d"

/-- Load all tables from where the settings place them. -/
def load (tree : FileTree) (settings : Settings) : Loading Tables := do
  let under (path : Path) : Path := settings.sourceRoot.join path
  let layout := settings.layout
  let fromObjectives ← ObjectiveTables.load tree (under layout.objectives)
  let gameTokens ← loadTable tree .gameTokens (under layout.gameTokens)
  let gameMetrics ← loadTable tree .gameMetrics (under layout.gameMetrics)
  let remoteEvents ← loadTable tree .remoteEvents (under layout.remoteEvents)
  let locations ← loadTable tree .locations (under layout.locations)
  let connectivity ← loadTable tree .connectivity (under layout.connectivity)
  let tables : Tables := ⟨fun
    | .gameTokens => gameTokens
    | .gameMetrics => gameMetrics
    | .remoteEvents => remoteEvents
    | .objectives => fromObjectives.objectives
    | .tasks => fromObjectives.tasks
    | .descriptions => fromObjectives.descriptions
    | .clues => fromObjectives.clues
    | .locations => locations
    | .connectivity => connectivity⟩
  Loading.emit .info ("Loaded lookup tables: " ++ tables.sizesText)
  pure tables

end Tables

end FlowAtlas
