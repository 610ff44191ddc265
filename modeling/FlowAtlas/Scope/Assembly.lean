import FlowAtlas.Scope.Basic

/-!
# Assembling scopes

While a source is read, one scope is open and collects nodes and edges.  Closing it finishes a scope
under the name of the current entity, and is refused as long as there is no such name.  The name
stays when a scope is closed: a scope without an entity of its own takes the last one's.
-/

namespace FlowAtlas

/-- The scopes finished so far and the content of the open one. -/
structure Assembly where
  /-- The name of the current entity. -/
  entity : Option String
  finished : List Scope
  nodes : OrderedMap (Option String) Node
  edges : List Edge
deriving DecidableEq

namespace Assembly

/-- Nothing read yet. -/
def start : Assembly := ⟨none, [], .empty, []⟩

instance : Inhabited Assembly := ⟨start⟩

/-- The open scope, which has no name before it is finished. -/
def current (a : Assembly) : Scope := ⟨none, a.nodes, a.edges, false⟩

/-- Make an entity the current one. -/
def enterEntity (a : Assembly) (name : Option String) : Assembly := { a with entity := name }

/-- Declare a node; a later declaration of an id replaces an earlier one. -/
def addNode (a : Assembly) (node : Node) : Logged Assembly := do
  Logged.emitIf (a.nodes.contains node.id) .debug
    ("Node " ++ Text.orNone node.id ++ " redeclared, keeping latest declaration")
  pure { a with nodes := a.nodes.insert node.id node }

/-- Declare an edge. -/
def addEdge (a : Assembly) (edge : Edge) : Assembly := { a with edges := a.edges ++ [edge] }

/-- Finish a scope and open a new one. -/
def conclude (a : Assembly) (scope : Scope) : Assembly :=
  { a with finished := a.finished ++ [scope], nodes := .empty, edges := [] }

/-- The scope that closing finishes, if the current entity has a name. -/
def closing? (a : Assembly) : Option Scope :=
  match a.entity with
  | some name => if name = "" then none else some ⟨some name, a.nodes, a.edges, false⟩
  | none => none

/-- Close the open scope if the current entity has a name. -/
def close (a : Assembly) : Option Scope × Assembly :=
  match a.closing? with
  | some scope => (some scope, a.conclude scope)
  | none => (none, a)

/-- Finish what is open as the trailing scope. -/
def finish (a : Assembly) : Assembly := a.conclude ⟨a.entity, a.nodes, a.edges, true⟩

end Assembly

end FlowAtlas
