import FlowAtlas.Batch
import FlowAtlas.CommandLine

/-!
# The program

A run of the program on a file tree: the command line and the environment give the settings, the
root of the game data has to be there, the sources are processed as a batch, and a summary is
printed.  The exit status is 1 if a source failed and 0 otherwise.
-/

namespace FlowAtlas

/-- Why a run ends before its summary. -/
inductive ProgramError
  | settings (error : SettingsError)
  /-- The switch for the root has no value. -/
  | noRoot
  | rootMissing (root : Path)
  | stopped (stop : Stop)
  /-- There is no output directory to tell of. -/
  | noDirectory
deriving DecidableEq

/-- The error's wording. -/
def ProgramError.message : ProgramError → String
  | .settings e => e.message
  | .noRoot => "no source root to look for"
  | .noDirectory => "no output directory to tell of"
  | .rootMissing root => "Source root not found: " ++ root.text
  | .stopped stop => stop.message

/-- How a run ends. -/
inductive Ending
  /-- Help was asked for. -/
  | help
  /-- The command line was refused. -/
  | refused (error : UsageError)
  | failed (error : ProgramError)
  /-- The summary was printed. -/
  | finished (status : Nat)
deriving DecidableEq

/-- The exit status of a run that ends so. -/
def Ending.status : Ending → Nat
  | .help => 0
  | .refused _ => 2
  | .failed _ => 1
  | .finished status => status

/-- What a run leaves. -/
structure ProgramRun where
  ending : Ending
  /-- The lines printed. -/
  printed : List String
  tree : FileTree
  calls : List Call
  log : Log
  /-- The level of the records that are shown. -/
  shownFrom : Level

namespace Program

/-- The level of the records that are shown under the given arguments. -/
def shownFrom (arguments : Arguments) : Level := if arguments.verbose then .debug else .info

/-- The summary of a batch. -/
def summary (directory : Location) (batch : BatchResult) (unhandled : List String) :
    List String :=
  ["Flow graph outputs saved to: " ++ Location.text directory,
    "Counts: files=" ++ Text.decimal batch.results.length ++
      " failed=" ++ Text.decimal batch.failures.length ++
      " scopes=" ++ Text.decimal batch.scopeCount ++
      " dangling_edges=" ++ Text.signedDecimal batch.danglingCount,
    "Classes that didn't have special parsers:"] ++ unhandled

/-- The location that the summary names. -/
def summaryDirectory (tree : FileTree) (plan : Plan) : Except ProgramError Location :=
  match plan.directory with
  | none => .error .noDirectory
  | some path =>
    if path.hasNul then .error (.stopped (.file .nulInPath)) else .ok (tree.absolute path)

/-- The status of a run whose batch gave this. -/
def status (batch : BatchResult) : Nat := if batch.failures.isEmpty then 0 else 1

/-- What is left when nothing has been done but to make log records. -/
def idle (tree : FileTree) (arguments : Arguments) (log : Log) (error : ProgramError) :
    ProgramRun :=
  ⟨.failed error, [], tree, [], log, shownFrom arguments⟩

/-- The sources of a run. -/
def sources (tree : FileTree) (arguments : Arguments) (settings : Settings) :
    Except SystemError (List Path) :=
  collectInputs tree
    (if arguments.inputs.isEmpty then [settings.resolvedActionsDir] else arguments.inputs)

/-- Run the batch and print its summary.  The records made before it stand in front. -/
def finishBatch (plan : Plan) (sources : List Path) (session : Session) (earlier : Log)
    (shown : Level) : ProgramRun :=
  let (result, session) := (runBatch plan sources).run.run session
  let left (ending : Ending) (printed : List String) : ProgramRun :=
    ⟨ending, printed, session.tree, session.renderer.calls, earlier ++ session.log, shown⟩
  match result with
  | .error stop => left (.failed (.stopped stop)) []
  | .ok batch =>
    match summaryDirectory session.tree plan with
    | .error e => left (.failed e) []
    | .ok directory =>
      left (.finished (status batch)) (summary directory batch session.labeller.unhandled)

/-- Look for the sources, load the tables and run the batch. -/
def process (tree : FileTree) (outcomes : List Outcome) (arguments : Arguments)
    (settings : Settings) : ProgramRun :=
  match sources tree arguments settings with
  | .error e => idle tree arguments [] (.stopped (.file (.system e)))
  | .ok sources =>
    let loaded := (Tables.load tree settings).run
    match loaded.value with
    | .error e => idle tree arguments loaded.log (.stopped (.file e))
    | .ok tables =>
      finishBatch ⟨settings, !arguments.noRender, arguments.directory settings⟩ sources
        (Session.start tree outcomes tables settings) loaded.log (shownFrom arguments)

/-- Run the program under the given settings, unless its root is not there. -/
def runWith (tree : FileTree) (outcomes : List Outcome) (arguments : Arguments)
    (settings : Settings) : ProgramRun :=
  if arguments.sourceRoot = .void then idle tree arguments [] .noRoot
  else
    match tree.isDirectory settings.sourceRoot with
    | .error e => idle tree arguments [] (.stopped (.file (.system e)))
    | .ok true => process tree outcomes arguments settings
    | .ok false => idle tree arguments [] (.rootMissing settings.sourceRoot)

/-- Run the program. -/
def run (tree : FileTree) (env : Settings.Environment) (outcomes : List Outcome)
    (words : List String) : ProgramRun :=
  match CommandLine.parse words with
  | .error e => ⟨.refused e, [], tree, [], [], .warning⟩
  | .ok .help => ⟨.help, [], tree, [], [], .warning⟩
  | .ok (.run arguments) =>
    match arguments.settings env with
    | .error e => idle tree arguments [] (.settings e)
    | .ok settings => runWith tree outcomes arguments settings

end Program

end FlowAtlas
