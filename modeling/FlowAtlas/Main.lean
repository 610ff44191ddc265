import FlowAtlas.Program

/-!
# The command

The files and directories that the command may read are named on standard input, one a line, as a
file search prints them.  `Program.run` works on the file tree of these; the command then writes
what has changed in it and shows what was printed and logged.

No process is started from here: a call of the renderer ends as on a system that cannot start one,
which a run reports and survives.
-/

namespace FlowAtlas.Command

/-- The outcome of every call of the renderer. -/
def noProcess : Outcome := .notStarted ⟨38, "Function not implemented", none⟩

/-- What stands under a name; what cannot be read as a file is taken for a directory. -/
def readEntry (name : String) : IO Entry := do
  match ← (IO.FS.readBinFile name).toBaseIO with
  | .ok content => pure (.file content.toList)
  | .error _ => pure .directory

/-- The tree of the named files and directories around a working directory. -/
def readTree (home : Location) (names : List String) : IO FileTree :=
  names.foldlM (fun tree name => do
    pure (tree.plant (tree.absolute (.ofText name)) (← readEntry name))) (.bare home)

/-- The variables that are set. -/
def readEnvironment : IO Settings.Environment := do
  let pairs ← Settings.Variable.all.filterMapM fun v => do
    pure ((← IO.getEnv v.name).map fun value => (v.name, value))
  pure (.ofList pairs)

/-- Write what stands at a location. -/
def writeEntry : Location × Entry → IO Unit
  | (location, .directory) => IO.FS.createDirAll location.text
  | (location, .file content) => IO.FS.writeBinFile location.text ⟨content.toArray⟩

/-- Show a log record. -/
def showRecord (record : LogRecord) : IO Unit :=
  IO.eprintln (record.level.name ++ " - " ++ record.message)

/-- Show how a run ended. -/
def showEnding : Ending → IO Unit
  | .help => IO.println CommandLine.usage
  | .refused e => do
    IO.eprintln CommandLine.usage
    IO.eprintln e.report
  | .failed e => IO.eprintln e.message
  | .finished _ => pure ()

end FlowAtlas.Command

open FlowAtlas Command in
/-- Run the program on the files named on standard input. -/
def main (words : List String) : IO UInt32 := do
  let home := (Path.ofText ((← IO.getEnv "PWD").getD "/")).names
  let names := (← (← IO.getStdin).lines).toList
  let tree ← readTree home names
  let run := Program.run tree (← readEnvironment) [noProcess] words
  (tree.changes run.tree).forM writeEntry
  (run.log.atLeast run.shownFrom).forM showRecord
  run.printed.forM IO.println
  showEnding run.ending
  pure run.ending.status.toUInt32
