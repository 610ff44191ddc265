import FlowAtlas.Markup
import FlowAtlas.Number.Decimal
import FlowAtlas.Log
import FlowAtlas.Text.Quoted

/-!
# Scopes

A scope is one flow graph as a source file declares it: nodes under their ids, in the order in which
the ids were first declared, and edges between ports of nodes.  An edge dangles if one of its ends
is no declared id.
-/

namespace FlowAtlas

/-! ## Positions -/

/-- Where a node is drawn. -/
structure Position where
  x : Binary64
  y : Binary64
  z : Binary64
deriving DecidableEq

namespace Position

/-- All coordinates zero. -/
def origin : Position := ⟨.zero, .zero, .zero⟩

instance : Inhabited Position := ⟨origin⟩

/-- The position of up to three coordinates, zero where one is missing. -/
def ofCoordinates : List Binary64 → Position
  | [] => origin
  | [x] => ⟨x, .zero, .zero⟩
  | [x, y] => ⟨x, y, .zero⟩
  | x :: y :: z :: _ => ⟨x, y, z⟩

/-- The first three of the numbers between commas; `none` if one of them is no number. -/
def parse? (text : String) : Option Position :=
  (((Text.splitAtEach ',' text.toList).take 3).mapM fun part =>
    Binary64.read? (String.ofList part)).map ofCoordinates

/-- The position that an attribute value denotes; the origin if there is none or it is no position.
-/
def read (raw : Option String) : Logged Position :=
  match raw with
  | none => pure origin
  | some text =>
    if text = "" then pure origin
    else
      match parse? text with
      | some position => pure position
      | none => do
        Logged.emit .debug ("Unparseable position " ++ Text.quoted text ++ ", using origin")
        pure origin

end Position

/-! ## Nodes and edges -/

/-- A node of a flow graph. -/
structure Node where
  id : Option String
  name : Option String
  /-- What the node does; label rules go by it. -/
  kind : Option String
  position : Position
  inputs : Attributes
deriving DecidableEq

/-- An edge from a port of one node to a port of another. -/
structure Edge where
  source : Option String
  target : Option String
  sourcePort : Option String
  targetPort : Option String
deriving DecidableEq

/-- The two ports, as an edge is labelled. -/
def Edge.label (edge : Edge) : String :=
  Text.orNone edge.sourcePort ++ "," ++ Text.orNone edge.targetPort

/-- The edge that a record's attributes describe. -/
def Edge.ofAttributes (attributes : Attributes) : Edge where
  source := attributes.get? "nodeout"
  target := attributes.get? "nodein"
  sourcePort := attributes.get? "portout"
  targetPort := attributes.get? "portin"

/-- The node that a record's attributes describe, with the inputs of the record behind it. -/
def Node.ofAttributes (attributes inputs : Attributes) : Logged Node := do
  let position ← Position.read (attributes.get? "pos")
  pure
    { id := attributes.get? "id"
      name := attributes.get? "name"
      kind := attributes.get? "class"
      position
      inputs }

/-! ## Scopes -/

/-- One flow graph as it was declared. -/
structure Scope where
  /-- The entity that the graph belongs to. -/
  entity : Option String
  nodes : OrderedMap (Option String) Node
  edges : List Edge
  /-- Whether this is what was left at the end of the source. -/
  trailing : Bool
deriving DecidableEq

namespace Scope

/-- A scope with nothing declared. -/
def blank : Scope := ⟨none, .empty, [], false⟩

instance : Inhabited Scope := ⟨blank⟩

/-- Whether both ends of an edge are declared. -/
def connects (scope : Scope) (edge : Edge) : Bool :=
  scope.nodes.contains edge.source && scope.nodes.contains edge.target

/-- The edges with an end that is not declared. -/
def danglingEdges (scope : Scope) : List Edge := scope.edges.filter fun e => !scope.connects e

end Scope

end FlowAtlas
