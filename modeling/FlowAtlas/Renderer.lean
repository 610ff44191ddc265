import FlowAtlas.Files.Tree
import FlowAtlas.Log
import FlowAtlas.Number.Decimal
import FlowAtlas.Text.Blank

/-!
# The renderer

An external program makes an image of a document.  All that is known of it is how each call to it
ends, so a renderer is the list of these outcomes and of the calls made so far.  A call that fails
is reported and never stops a run.
-/

namespace FlowAtlas

/-- How a call of the renderer ends. -/
inductive Outcome
  | exited (status : Int) (errorOutput : String)
  /-- The time limit passed. -/
  | timedOut
  /-- The program could not be started. -/
  | notStarted (error : SystemError)
deriving DecidableEq

/-- A call of the renderer. -/
structure Call where
  command : List String
  timeout : Binary64
deriving DecidableEq

/-- The outcomes to come, of which the last repeats, and the calls made so far.  Without outcomes
every call succeeds. -/
structure Renderer where
  outcomes : List Outcome
  calls : List Call
deriving DecidableEq

namespace Renderer

/-- The outcome of a call that succeeds. -/
def success : Outcome := .exited 0 ""

/-- The next outcome and those behind it. -/
def next : List Outcome → Outcome × List Outcome
  | [] => (success, [])
  | [outcome] => (outcome, [outcome])
  | outcome :: rest => (outcome, rest)

/-- Make a call. -/
def call (renderer : Renderer) (call : Call) : Outcome × Renderer :=
  let (outcome, rest) := next renderer.outcomes
  (outcome, ⟨rest, renderer.calls ++ [call]⟩)

end Renderer

/-- How images are made. -/
structure Drawing.Style where
  executable : String
  engine : String
  format : String
  timeout : Binary64
deriving DecidableEq

/-- A document and the image made of it, or why there is none. -/
structure Drawing where
  document : Path
  image : Path
  failure : Option String
deriving DecidableEq

namespace Drawing

/-- Whether the image was made. -/
def ok (d : Drawing) : Bool := d.failure.isNone

/-- What went wrong; empty if nothing did. -/
def detail (d : Drawing) : String := d.failure.getD ""

/-- The style of a call that is told nothing. -/
def Style.standard : Style := ⟨"dot", "neato", "png", .ofRatio false 10 1⟩

/-- The command that makes an image with the nodes at their pinned positions. -/
def Style.command (style : Style) (document image : Path) : List String :=
  [style.executable, "-K" ++ style.engine, "-n", "-T" ++ style.format, document.text, "-o",
    image.text]

/-- The longest detail of a failure. -/
def detailLength : Nat := 240

/-- Error output as a detail, without blanks at its ends and cut if it is long. -/
def outputDetail (errorOutput : String) : String :=
  let text := Text.stripped errorOutput
  if detailLength < text.length then Text.cut detailLength text ++ "..." else text

/-- What an outcome other than success is called. -/
def failureDetail (style : Style) : Outcome → String
  | .timedOut => "timeout after " ++ style.timeout.shortest ++ "s"
  | .notStarted error => error.message
  | .exited status errorOutput =>
    let detail := outputDetail errorOutput
    if detail = "" then "exit status " ++ Text.signedDecimal status else detail

/-- What is logged about an outcome. -/
def outcomeRecord (style : Style) (document image : Path) : Outcome → LogRecord
  | .timedOut =>
    ⟨.error, "Graphviz timed out after " ++ style.timeout.fixed 1 ++ "s on " ++ document.text⟩
  | .notStarted error =>
    ⟨.error, "Failed to execute Graphviz (" ++ style.executable ++ "): " ++ error.message⟩
  | .exited status errorOutput =>
    if status = 0 then ⟨.info, "Finished executing dot convert: " ++ image.text⟩
    else
      let detail := outputDetail errorOutput
      ⟨.error, "Error occurred while executing dot convert for " ++ document.text ++ ": " ++
        (if detail = "" then Text.signedDecimal status else detail)⟩

/-- Whether an outcome is an exit with status zero. -/
def isSuccess : Outcome → Bool
  | .exited status _ => status = 0
  | _ => false

/-- The drawing that an outcome leaves. -/
def ofOutcome (style : Style) (document image : Path) (outcome : Outcome) : Drawing :=
  ⟨document, image, if isSuccess outcome then none else some (failureDetail style outcome)⟩

/-- Have an image made of a document. -/
def make (style : Style) (document image : Path) (renderer : Renderer) :
    Logged (Drawing × Renderer) := do
  let (outcome, renderer) := renderer.call ⟨style.command document image, style.timeout⟩
  let record := outcomeRecord style document image outcome
  Logged.emit record.level record.message
  pure (ofOutcome style document image outcome, renderer)

/-- Have images made of documents, each beside its document; a document that has no path for its
image stops the row. -/
def makeAll (style : Style) (renderer : Renderer) :
    List Path → Logged (Except Path.SuffixError (List Drawing) × Renderer)
  | [] => pure (.ok [], renderer)
  | document :: rest =>
    match document.withSuffix ("." ++ style.format) with
    | .error e => pure (.error e, renderer)
    | .ok image => do
      let (drawing, renderer) ← make style document image renderer
      let (drawings, renderer) ← makeAll style renderer rest
      pure (drawings.map (drawing :: ·), renderer)

end Drawing

end FlowAtlas
