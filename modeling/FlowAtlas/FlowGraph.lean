import FlowAtlas.Data.Multigraph
import FlowAtlas.Scope.Basic

/-!
# Flow graphs

The graph of a scope: its nodes as vertices in declaration order, and an arc for every edge whose
two ends are declared.  The other edges are counted and reported.
-/

namespace FlowAtlas

/-- The graph of a scope. -/
structure FlowGraph where
  entity : Option String
  trailing : Bool
  network : Multigraph String Node Edge
  /-- How many edges dangle. -/
  dangling : Nat

/-- Why a scope has no graph. -/
inductive GraphError
  /-- A node was declared without an id. -/
  | nodeWithoutId
deriving DecidableEq

/-- The error's wording. -/
def GraphError.message : GraphError → String
  | .nodeWithoutId => "None cannot be a node"

namespace FlowGraph

/-- The graph of the declared nodes. -/
def ofNodes? : List (Option String × Node) → Multigraph String Node Edge →
    Except GraphError (Multigraph String Node Edge)
  | [], network => .ok network
  | (some id, node) :: rest, network => ofNodes? rest (network.addVertex id node)
  | (none, _) :: _, _ => .error .nodeWithoutId

/-- What is said of an edge that dangles. -/
def danglingMessage (scope : Scope) (edge : Edge) : String :=
  let place :=
    match scope.entity with
    | some name => if name = "" then "<trailing>" else name
    | none => "<trailing>"
  "Dangling edge " ++ Text.orNone edge.source ++ " -> " ++ Text.orNone edge.target ++ " (" ++
    edge.label ++ ") in scope " ++ place

/-- Add an edge of the scope: as an arc if both its ends are declared. -/
def addEdge (scope : Scope) (graph : FlowGraph) (edge : Edge) : Logged FlowGraph :=
  match edge.source, edge.target with
  | some source, some target =>
    if graph.network.vertices.contains source && graph.network.vertices.contains target then
      pure { graph with network := graph.network.addArc source target edge }
    else report
  | _, _ => report
where
  /-- Count an edge that dangles and report it. -/
  report : Logged FlowGraph := do
    Logged.emit .warning (danglingMessage scope edge)
    pure { graph with dangling := graph.dangling + 1 }

end FlowGraph

/-- The graph of a scope. -/
def Scope.graph (scope : Scope) : Logged (Except GraphError FlowGraph) :=
  match FlowGraph.ofNodes? scope.nodes.entries .empty with
  | .error e => pure (.error e)
  | .ok network => do
    let graph ← Logged.fold (FlowGraph.addEdge scope) ⟨scope.entity, scope.trailing, network, 0⟩
      scope.edges
    pure (.ok graph)

end FlowAtlas
