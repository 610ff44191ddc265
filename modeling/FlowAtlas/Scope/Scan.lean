import FlowAtlas.Scope.Assembly
import FlowAtlas.Text.Lines

/-!
# Scanning source lines

A source is read line by line.  Markers anywhere in a line tell what it records: an entity, a node,
an edge or the end of a flow graph.  A node record that does not end in `/>` takes the next line as
its continuation, whatever that line holds; the continuation gives the node's inputs if it is an
inputs record and is not read in any other way.
-/

namespace FlowAtlas

namespace Scan

/-- A line with this names the current entity. -/
def entityMarker : String := "<Entity"

/-- A line with this is a node record. -/
def nodeMarker : String := "<Node "

/-- A continuation with this gives inputs. -/
def inputsMarker : String := "<Inputs "

/-- A line with this that is no node record is an edge record. -/
def edgeMarker : String := "<Edge "

/-- A line with this that is neither closes the open scope. -/
def closeMarker : String := "</FlowGraph>"

/-- How a record ends that has no continuation. -/
def selfClosing : String := "/>"

end Scan

/-- A scan between two lines. -/
structure Scan where
  assembly : Assembly
  /-- The node record whose continuation comes next. -/
  open? : Option String

namespace Scan

/-- Nothing read yet. -/
def start : Scan := ⟨.start, none⟩

/-- Record a node with its inputs, unless it has no id. -/
def recordNode (a : Assembly) (line : String) (inputs : Attributes) : Logged Assembly :=
  let attributes := Markup.attributes line
  if (attributes.get? "id").isNone then do
    Logged.emit .debug ("Skipping node record without id: " ++ Text.stripped line)
    pure a
  else do
    let node ← Node.ofAttributes attributes inputs
    a.addNode node

/-- The inputs that a continuation gives. -/
def inputsOf (continuation : String) : Attributes :=
  if Text.hasWord continuation inputsMarker then Markup.attributes continuation else .empty

/-- Close the open scope. -/
def closeScope (a : Assembly) : Logged Assembly :=
  match a.close with
  | (some scope, a') => do
    Logged.emit .debug
      ("Closed scope " ++ Text.orNone scope.entity ++ " with " ++ Text.decimal scope.nodes.size ++
        " nodes, " ++ Text.decimal scope.edges.length ++ " edges")
    pure a'
  | (none, a') => pure a'

/-- Enter the entity that a line declares, if it declares one. -/
def enter (a : Assembly) (line : String) : Assembly :=
  if Text.hasWord line entityMarker then a.enterEntity ((Markup.attributes line).get? "name")
  else a

/-- Read one line that has lost its line end. -/
def readLine (s : Scan) (line : String) : Logged Scan :=
  match s.open? with
  | some record => do
    let a ← recordNode s.assembly record (inputsOf line)
    pure ⟨a, none⟩
  | none =>
    let a := enter s.assembly line
    if Text.hasWord line nodeMarker then
      if Text.endsIn line selfClosing then do
        let a ← recordNode a line .empty
        pure ⟨a, none⟩
      else pure ⟨a, some line⟩
    else if Text.hasWord line edgeMarker then
      pure ⟨a.addEdge (.ofAttributes (Markup.attributes line)), none⟩
    else if Text.hasWord line closeMarker then do
      let a ← closeScope a
      pure ⟨a, none⟩
    else pure ⟨a, none⟩

/-- End the source: a node record without continuation has no inputs. -/
def finish (s : Scan) : Logged Assembly :=
  match s.open? with
  | some record => do
    let a ← recordNode s.assembly record .empty
    pure a.finish
  | none => pure s.assembly.finish

end Scan

/-- The scopes that a source declares: the closed ones in order, then the trailing one. -/
def assembleScopes (lines : List String) : Logged (List Scope) := do
  let s ← Logged.fold Scan.readLine Scan.start (lines.map Text.withoutLineEnd)
  let a ← s.finish
  pure a.finished

end FlowAtlas
