import FlowAtlas.Dot
import FlowAtlas.Report
import FlowAtlas.Scope.Scan
import FlowAtlas.Stages
import FlowAtlas.Tables.Load

/-!
# Batches

A batch takes source files one after the other through four stages: the source is read and turned
into graphs, the graphs are written as documents, images are made of these, and a quality report is
drawn up.  A file that cannot be processed is reported as a failure and the batch goes on.

All documents of a batch lie in one directory and are named after their source, so of several
sources with one stem only the first is processed.
-/

namespace FlowAtlas

/-! ## Jobs -/

/-- What a batch works on and what it has done so far. -/
structure Session where
  tree : FileTree
  renderer : Renderer
  labeller : Labeller
  log : Log

/-- Why a job stops. -/
inductive Stop
  | file (error : FileError)
  /-- A document was to be written, but the switch for its directory has no value. -/
  | noDirectory
  | suffix (error : Path.SuffixError)
  | graph (error : GraphError)
  | stage (error : StageError)
deriving DecidableEq

/-- The cause's wording. -/
def Stop.message : Stop → String
  | .file e => e.message
  | .noDirectory => "no output directory to make"
  | .suffix e => e.message
  | .graph e => e.message
  | .stage e => e.message

/-- Work that changes a session and may stop; the session keeps what was done before. -/
abbrev Job := ExceptT Stop (StateM Session)

namespace Job

/-- Do what keeps a log. -/
def logged {α : Type} (x : Logged α) : Job α := do
  modify fun s => { s with log := s.log ++ x.log }
  pure x.value

instance : MonadLog Job := ⟨fun level message => logged (Logged.emit level message)⟩

/-- Go on with a result, or stop for a cause. -/
def orStop {ε α : Type} (stop : ε → Stop) : Except ε α → Job α
  | .ok a => pure a
  | .error e => throw (stop e)

/-- Change the file tree; what is changed before a failure stays changed. -/
def onTree (change : FileTree → Except FileError Unit × FileTree) : Job Unit := do
  let (result, tree) := change (← get).tree
  modify fun s => { s with tree }
  orStop .file result

end Job

/-! ## One source file -/

/-- How a batch is run. -/
structure Plan where
  settings : Settings
  /-- Whether images are made. -/
  render : Bool
  /-- Where documents go; `none` if the switch for it has no value. -/
  directory : Option Path

/-- The plan that the settings alone make. -/
def Plan.of (settings : Settings) (render : Bool) : Plan :=
  ⟨settings, render, some settings.resolvedOutputDir⟩

/-- How images are made under the settings. -/
def Settings.style (s : Settings) : Drawing.Style := ⟨s.executable, s.engine, s.format, s.timeout⟩

/-- A source file on its way through the stages. -/
structure SourceRun where
  source : Path
  graphs : List (Scope × FlowGraph)
  /-- The documents written, with what the report needs of them. -/
  exports : List (Path × Export)
  drawings : List Drawing
  report : Report

namespace SourceRun

/-- Nothing done yet. -/
def start (source : Path) : SourceRun := ⟨source, [], [], [], .blank⟩

/-- A scope with its graph. -/
def graphOf (scope : Scope) : Job (Scope × FlowGraph) := do
  let graph ← Job.orStop .graph (← Job.logged scope.graph)
  pure (scope, graph)

/-- Read the source and turn it into graphs. -/
def ingest (run : SourceRun) : Job SourceRun := do
  Job.logged (Logged.emit .info ("Processing file " ++ run.source.name))
  let lines ← Job.orStop .file (Tables.readLines (← get).tree run.source)
  let scopes ← Job.logged (assembleScopes lines)
  return { run with graphs := ← scopes.mapM graphOf }

/-- Where the document of a name lies. -/
def documentPath (directory : Path) (name : String) : Path := directory.child (name ++ ".dot")

/-- Write a document of the given name; its directory is made if need be. -/
def writeDocument (directory : Path) (name text : String) : Job Path := do
  Job.onTree fun tree => tree.provideDirectories directory
  let path := documentPath directory name
  Job.logged (Logged.emit .info ("Writing " ++ path.text))
  Job.onTree fun tree => tree.write path (Text.Utf8.encode text.toList)
  pure path

/-- Write the document of one graph. -/
def exportGraph (plan : Plan) (source : Path) (scope : Scope) (graph : FlowGraph) :
    Job (Path × Export) := do
  let name := Dot.documentName source scope
  let (text, labeller) ← Job.logged (Dot.serialize graph plan.settings.yScale (← get).labeller)
  modify fun s => { s with labeller }
  let directory ← Job.orStop id (plan.directory.elim (.error .noDirectory) .ok)
  let path ← writeDocument directory name text
  pure (path,
    { name
      nodeCount := graph.network.vertices.size
      edgeCount := graph.network.arcs.length
      declaredCount := scope.edges.length
      danglingCount := graph.dangling })

/-- Write the documents of all graphs and report the kinds without a rule. -/
def exportAll (plan : Plan) (run : SourceRun) : Job SourceRun := do
  let exports ← run.graphs.mapM fun g => exportGraph plan run.source g.1 g.2
  let _ ← Job.logged (← get).labeller.report
  pure { run with exports }

/-- Have images made of the documents. -/
def draw (plan : Plan) (run : SourceRun) : Job SourceRun := do
  if plan.render then
    let (drawings, renderer) ← Job.logged
      (Drawing.makeAll plan.settings.style (← get).renderer (run.exports.map Prod.fst))
    modify fun s => { s with renderer }
    return { run with drawings := ← Job.orStop .suffix drawings }
  else pure run

/-- Draw up the report. -/
def assess (run : SourceRun) : SourceRun :=
  { run with report := .of (run.exports.map Prod.snd) (run.drawings.map Drawing.result) }

/-- The stages of a source file. -/
def stages (plan : Plan) : List (Stage Job SourceRun) :=
  [⟨"ingestion", fun run => some <$> run.ingest⟩,
    ⟨"export", fun run => some <$> run.exportAll plan⟩,
    ⟨"rendering", fun run => some <$> run.draw plan⟩,
    ⟨"validation", fun run => pure (some run.assess)⟩]

end SourceRun

/-- What a source file gave. -/
structure SourceResult where
  source : Path
  documents : List Path
  report : Report
deriving DecidableEq

/-- Process one source file. -/
def processSource (plan : Plan) (source : Path) : Job SourceResult := do
  let run ← Job.orStop .stage
    (← runStages (fun run => run.source.text) (SourceRun.stages plan) (SourceRun.start source))
  pure ⟨source, run.context.exports.map Prod.fst, run.context.report⟩

/-! ## Batches -/

/-- A source file that was not processed, and why. -/
structure SourceFailure where
  source : Path
  error : String
deriving DecidableEq

/-- What a batch gave. -/
structure BatchResult where
  results : List SourceResult
  failures : List SourceFailure
deriving DecidableEq

namespace BatchResult

/-- Nothing processed yet. -/
def blank : BatchResult := ⟨[], []⟩

instance : Inhabited BatchResult := ⟨blank⟩

/-- Put a result in front. -/
def addResult (b : BatchResult) (r : SourceResult) : BatchResult :=
  { b with results := r :: b.results }

/-- Put a failure in front. -/
def addFailure (b : BatchResult) (f : SourceFailure) : BatchResult :=
  { b with failures := f :: b.failures }

/-- The scopes of all sources. -/
def scopeCount (b : BatchResult) : Nat :=
  b.results.foldr (fun r sum => r.report.scopeCount + sum) 0

/-- The edges that dangle in all sources. -/
def danglingCount (b : BatchResult) : Int :=
  b.results.foldr (fun r sum => r.report.danglingCount + sum) 0

end BatchResult

/-- Do a job and catch a failure of the system; any other cause goes on stopping. -/
def attempt {α : Type} (job : Job α) : Job (Except SystemError α) :=
  tryCatch (.ok <$> job) fun
    | .file (.system e) => pure (.error e)
    | stop => throw stop

/-- Process a source, or tell why it was not: its stem may belong to another path. -/
def processClaimed (plan : Plan) (owner source : Path) : Job (Except SourceFailure SourceResult) :=
  if owner ≠ source then do
    let error := "output name '" ++ source.stem ++ "' already used by " ++ owner.text
    Job.logged (Logged.emit .error ("Skipping " ++ source.text ++ ": " ++ error))
    pure (.error ⟨source, error⟩)
  else do
    match ← attempt (processSource plan source) with
    | .ok result => pure (.ok result)
    | .error e =>
      Job.logged (Logged.emit .error ("Failed to process " ++ source.text ++ ": " ++ e.message))
      pure (.error ⟨source, e.message⟩)

/-- Process sources in order; `claims` says which path owns a stem. -/
def runSources (plan : Plan) (claims : OrderedMap String Path) : List Path → Job BatchResult
  | [] => pure .blank
  | source :: rest => do
    let owner := (claims.get? source.stem).getD source
    let outcome ← processClaimed plan owner source
    let later ← runSources plan (claims.insert source.stem owner) rest
    match outcome with
    | .ok result => pure (later.addResult result)
    | .error failure => pure (later.addFailure failure)

/-- Process a batch of sources. -/
def runBatch (plan : Plan) (sources : List Path) : Job BatchResult :=
  runSources plan .empty sources

/-- The session before a batch. -/
def Session.start (tree : FileTree) (outcomes : List Outcome) (tables : Tables)
    (settings : Settings) : Session :=
  ⟨tree, ⟨outcomes, []⟩, .new tables settings.maxLabelLength, []⟩

/-! ## Inputs -/

/-- The sources that a path stands for: a directory stands for the files directly inside it whose
names end in `.xml`, any other path for itself. -/
def sourcesAt (tree : FileTree) (path : Path) : Except SystemError (List Path) := do
  if ← tree.isDirectory path then
    let names := (tree.list path).filter fun name => Text.endsIn name ".xml"
    return (← tree.filesAmong path names).map Prod.fst
  else return [path]

/-- The sources that paths stand for. -/
def collectInputs (tree : FileTree) (paths : List Path) : Except SystemError (List Path) :=
  (paths.mapM (sourcesAt tree)).map List.flatten

end FlowAtlas
