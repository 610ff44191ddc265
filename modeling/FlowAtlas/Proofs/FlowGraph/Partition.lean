import FlowAtlas.FlowGraph
import FlowAtlas.Proofs.Data.Arcs

/-!
# Graphs take the edges of a scope apart

An edge of a scope either dangles or becomes an arc.  The graph decides this by its own vertices, the
scope by its declarations; the two agree as long as every node has an id.

Main facts: `fold_addEdge` (what a run over edges adds to a graph), `exists_graph` (the graph of a
scope in closed form) and `graph_partitions_edges`.
-/

namespace FlowAtlas

open OrderedMap Multigraph

/-! ## The nodes -/

namespace FlowGraph

/-- A vertex as the scope declares it. -/
def declared (v : String × Node) : Option String × Node := (some v.1, v.2)

theorem ofNodes?_eq_ok {entries : List (Option String × Node)} (h : none ∉ entries.map Prod.fst)
    (network : Multigraph String Node Edge)
    (hn : ((network.vertices.entries.map declared ++ entries).map Prod.fst).Nodup) :
    ∃ vertices, ofNodes? entries network = .ok ⟨vertices, network.successors⟩ ∧
      vertices.entries.map declared = network.vertices.entries.map declared ++ entries := by
  induction entries generalizing network with
  | nil => exact ⟨network.vertices, rfl, by simp⟩
  | cons e rest ih =>
    obtain ⟨key, node⟩ := e
    cases key with
    | none => simp at h
    | some id =>
      have hfresh : id ∉ network.vertices.keys := by
        intro hid
        obtain ⟨v, hv, rfl⟩ := List.mem_map.mp hid
        rw [List.map_append, List.nodup_append] at hn
        refine hn.2.2 (some v.1) ?_ (some v.1) (by simp) rfl
        exact List.mem_map.mpr ⟨declared v, List.mem_map_of_mem hv, rfl⟩
      have hentries := entries_insert_of_not_mem hfresh node
      have hstep : (network.addVertex id node).vertices.entries.map declared ++ rest =
          network.vertices.entries.map declared ++ (some id, node) :: rest := by
        rw [addVertex, hentries, List.map_append, List.append_assoc]
        rfl
      obtain ⟨vertices, hv, hkeys⟩ := ih (fun hnone => h (List.mem_cons_of_mem _ hnone))
        (network.addVertex id node) (by rw [hstep]; exact hn)
      exact ⟨vertices, hv, hkeys.trans hstep⟩

end FlowGraph

/-! ## The edges -/

namespace Scope

/-- An edge between declared nodes as a link of their ids. -/
def link? (scope : Scope) (edge : Edge) : Option (String × String × Edge) :=
  match edge.source, edge.target with
  | some source, some target => if scope.connects edge then some (source, target, edge) else none
  | _, _ => none

/-- The links of a scope, in the order of its edges. -/
def links (scope : Scope) : List (String × String × Edge) := scope.edges.filterMap scope.link?

/-- The report on an edge that dangles. -/
def danglingRecord (scope : Scope) (edge : Edge) : LogRecord :=
  ⟨.warning, FlowGraph.danglingMessage scope edge⟩

theorem connects_iff {scope : Scope} {edge : Edge} :
    scope.connects edge = true ↔
      edge.source ∈ scope.nodes.keys ∧ edge.target ∈ scope.nodes.keys := by
  rw [connects, Bool.and_eq_true, contains_iff, contains_iff]

/-- An edge that connects has two ends. -/
theorem exists_link {scope : Scope} (h : none ∉ scope.nodes.keys) {edge : Edge}
    (hc : scope.connects edge = true) :
    ∃ source target, edge.source = some source ∧ edge.target = some target ∧
      scope.link? edge = some (source, target, edge) := by
  obtain ⟨hs, ht⟩ := connects_iff.mp hc
  cases hsource : edge.source with
  | none => exact absurd (hsource ▸ hs) h
  | some source =>
    cases htarget : edge.target with
    | none => exact absurd (htarget ▸ ht) h
    | some target => exact ⟨source, target, rfl, rfl, by simp [link?, hsource, htarget, hc]⟩

theorem link?_eq_none {scope : Scope} {edge : Edge} (hc : scope.connects edge = false) :
    scope.link? edge = none := by
  rw [link?]
  split
  · simp [hc]
  · rfl

end Scope

namespace FlowGraph

section Run

variable {scope : Scope} {graph : FlowGraph}

/-- The graph has the nodes of the scope. -/
def Covers (scope : Scope) (graph : FlowGraph) : Prop :=
  graph.network.vertices.entries.map declared = scope.nodes.entries

theorem Covers.keys (h : Covers scope graph) :
    graph.network.vertices.keys.map some = scope.nodes.keys := by
  rw [OrderedMap.keys, OrderedMap.keys, ← h, List.map_map, List.map_map]
  rfl

theorem Covers.contains (h : Covers scope graph) (id : String) :
    graph.network.vertices.contains id = scope.nodes.contains (some id) := by
  rw [Bool.eq_iff_iff, contains_iff, contains_iff, ← h.keys]
  simp

/-- An edge that connects becomes an arc. -/
theorem addEdge_of_connects (h : Covers scope graph) {edge : Edge} {source target : String}
    (hs : edge.source = some source) (ht : edge.target = some target)
    (hc : scope.connects edge = true) :
    addEdge scope graph edge =
      ⟨{ graph with network := graph.network.addArc source target edge }, []⟩ := by
  have hc' : (graph.network.vertices.contains source && graph.network.vertices.contains target) =
      true := by
    rw [h.contains, h.contains, ← hs, ← ht]
    exact hc
  rw [addEdge, hs, ht]
  simp only [hc', if_true]
  rfl

/-- An edge that dangles is counted and reported. -/
theorem addEdge_of_not_connects (h : Covers scope graph) {edge : Edge}
    (hc : scope.connects edge = false) :
    addEdge scope graph edge =
      ⟨{ graph with dangling := graph.dangling + 1 }, [scope.danglingRecord edge]⟩ := by
  rw [addEdge]
  split
  · rename_i source target hs ht
    have hc' : (graph.network.vertices.contains source &&
        graph.network.vertices.contains target) = false := by
      rw [h.contains, h.contains, ← hs, ← ht]
      exact hc
    simp only [hc', Bool.false_eq_true, if_false]
    rfl
  · rfl

/-- A run over edges: arcs for the ones that connect, a count and reports for the others. -/
theorem fold_addEdge (hids : none ∉ scope.nodes.keys) (edges : List Edge) (graph : FlowGraph)
    (h : Covers scope graph) :
    Logged.fold (addEdge scope) graph edges =
      ⟨{ graph with
          network := graph.network.addArcs (edges.filterMap scope.link?)
          dangling := graph.dangling + (edges.filter fun e => !scope.connects e).length },
        (edges.filter fun e => !scope.connects e).map scope.danglingRecord⟩ := by
  induction edges generalizing graph with
  | nil => rfl
  | cons edge edges ih =>
    rw [Logged.fold_cons]
    cases hc : scope.connects edge with
    | true =>
      obtain ⟨source, target, hs, ht, hlink⟩ := Scope.exists_link hids hc
      rw [addEdge_of_connects h hs ht hc]
      have hrest := ih { graph with network := graph.network.addArc source target edge } h
      apply Logged.ext
      · rw [Logged.value_bind, hrest]
        simp [hlink, hc, addArcs]
      · rw [Logged.log_bind, hrest]
        simp [hc]
    | false =>
      rw [addEdge_of_not_connects h hc]
      have hrest := ih { graph with dangling := graph.dangling + 1 } h
      apply Logged.ext
      · rw [Logged.value_bind, hrest]
        simp [Scope.link?_eq_none hc, hc, Nat.add_assoc, Nat.add_comm]
      · rw [Logged.log_bind, hrest]
        simp [hc]

end Run

end FlowGraph

/-! ## The graph of a scope -/

namespace Scope

/-- The graph of a scope in closed form, with its log. -/
theorem exists_graph {scope : Scope} (h : none ∉ scope.nodes.keys) :
    ∃ vertices : OrderedMap String Node,
      vertices.entries.map FlowGraph.declared = scope.nodes.entries ∧
      scope.graph =
        ⟨.ok ⟨scope.entity, scope.trailing,
          (⟨vertices, .empty⟩ : Multigraph String Node Edge).addArcs scope.links,
          scope.danglingEdges.length⟩, scope.danglingEdges.map scope.danglingRecord⟩ := by
  obtain ⟨vertices, hnodes, hv⟩ := FlowGraph.ofNodes?_eq_ok h .empty scope.nodes.nodup
  refine ⟨vertices, hv, ?_⟩
  have hrun := FlowGraph.fold_addEdge h scope.edges
    ⟨scope.entity, scope.trailing, ⟨vertices, .empty⟩, 0⟩ hv
  simp only [Nat.zero_add] at hrun
  rw [Scope.graph, hnodes]
  apply Logged.ext
  · rw [Logged.value_bind, Logged.value_pure]
    exact congrArg (fun run => Except.ok run.value) hrun
  · rw [Logged.log_bind, Logged.log_pure, List.append_nil]
    exact congrArg Logged.log hrun

/-- A scope whose nodes have ids has a graph with these nodes. -/
theorem exists_covering_graph {scope : Scope} (h : none ∉ scope.nodes.keys) :
    ∃ graph, scope.graph.value = .ok graph ∧ FlowGraph.Covers scope graph := by
  obtain ⟨vertices, hv, hgraph⟩ := exists_graph h
  refine ⟨_, congrArg Logged.value hgraph, ?_⟩
  rw [FlowGraph.Covers, vertices_addArcs]
  exact hv

/-- The edges from one node to another, both declared. -/
def between (scope : Scope) (source target : String) : List Edge :=
  scope.edges.filter fun e =>
    scope.connects e && (e.source = some source && e.target = some target)

/-- The targets of a node's edges between declared nodes, in the order of first connection. -/
def targetsFrom (scope : Scope) (source : String) : List String :=
  distinct ((scope.edges.filter fun e => scope.connects e && e.source = some source).filterMap
    Edge.target)

section Links

variable {scope : Scope}

theorem mem_links {source target : String} {edge : Edge}
    (h : (source, target, edge) ∈ scope.links) :
    edge ∈ scope.edges ∧ scope.connects edge = true ∧ edge.source = some source ∧
      edge.target = some target := by
  obtain ⟨e, he, hlink⟩ := List.mem_filterMap.mp h
  rw [link?] at hlink
  split at hlink
  · rename_i s t hs ht
    split at hlink
    · rename_i hc
      cases hlink
      exact ⟨he, hc, hs, ht⟩
    · cases hlink
  · cases hlink

/-- The links carry the edges that connect. -/
theorem map_links (h : none ∉ scope.nodes.keys) :
    scope.links.map (fun l => l.2.2) = scope.edges.filter scope.connects := by
  rw [links]
  induction scope.edges with
  | nil => rfl
  | cons edge edges ih =>
    cases hc : scope.connects edge with
    | true =>
      obtain ⟨source, target, -, -, hlink⟩ := exists_link h hc
      simp [hlink, hc, ih]
    | false => simp [link?_eq_none hc, hc, ih]

theorem labelsOf_links (h : none ∉ scope.nodes.keys) (source target : String) :
    labelsOf source target scope.links = scope.between source target := by
  rw [links, between]
  induction scope.edges with
  | nil => rfl
  | cons edge edges ih =>
    cases hc : scope.connects edge with
    | true =>
      obtain ⟨s, t, hs, ht, hlink⟩ := exists_link h hc
      rw [List.filterMap_cons_some hlink, labelsOf_cons, ih, List.filter_cons]
      simp [hc, hs, ht]
    | false =>
      rw [List.filterMap_cons_none (link?_eq_none hc), ih, List.filter_cons]
      simp [hc]

theorem targetsOf_links (h : none ∉ scope.nodes.keys) (source : String) :
    targetsOf source scope.links = scope.targetsFrom source := by
  rw [targetsOf, targetsFrom, links]
  congr 1
  induction scope.edges with
  | nil => rfl
  | cons edge edges ih =>
    cases hc : scope.connects edge with
    | true =>
      obtain ⟨s, t, hs, ht, hlink⟩ := exists_link h hc
      rw [List.filterMap_cons_some hlink, valuesOf_cons, List.filter_cons]
      by_cases he : s = source
      · simp [hc, hs, ht, he, ih]
      · simp [hc, hs, he, ih]
    | false =>
      rw [List.filterMap_cons_none (link?_eq_none hc), ih, List.filter_cons]
      simp [hc]

end Links

/-! ## The partition -/

/-- A graph takes the edges of a scope apart: those that connect are its arcs, the others are
counted. -/
structure Partition (scope : Scope) (graph : FlowGraph) : Prop where
  entity : graph.entity = scope.entity
  trailing : graph.trailing = scope.trailing
  /-- The vertices are the declared nodes, in order. -/
  nodes : graph.network.vertices.entries.map FlowGraph.declared = scope.nodes.entries
  /-- The arcs carry exactly the edges between declared nodes, each as often as declared. -/
  edges : (graph.network.arcs.map Arc.label).Perm (scope.edges.filter scope.connects)
  /-- An arc runs between the ends of its edge. -/
  ends : ∀ arc ∈ graph.network.arcs,
    arc.label.source = some arc.source ∧ arc.label.target = some arc.target
  dangling : graph.dangling = scope.danglingEdges.length
  total : graph.network.arcs.length + scope.danglingEdges.length = scope.edges.length
  /-- Parallel edges come in the order of declaration, numbered from 0. -/
  parallel : ∀ source target,
    graph.network.arcs.filter (fun arc => arc.source = source ∧ arc.target = target) =
      parallels source target (scope.between source target)
  /-- The arcs come by source in node order, then by target in the order of first connection. -/
  order : graph.network.arcs =
    graph.network.vertices.keys.flatMap fun source =>
      (scope.targetsFrom source).flatMap fun target =>
        parallels source target (scope.between source target)

theorem partition_addArcs {scope : Scope} (h : none ∉ scope.nodes.keys)
    {vertices : OrderedMap String Node}
    (hv : vertices.entries.map FlowGraph.declared = scope.nodes.entries) :
    Partition scope ⟨scope.entity, scope.trailing,
      (⟨vertices, .empty⟩ : Multigraph String Node Edge).addArcs scope.links,
      scope.danglingEdges.length⟩ := by
  have hcovers : FlowGraph.Covers scope
      ⟨scope.entity, scope.trailing, ⟨vertices, .empty⟩, 0⟩ := hv
  have hsources : ∀ l ∈ scope.links, l.1 ∈ vertices.keys := by
    rintro ⟨source, target, edge⟩ hl
    obtain ⟨-, hc, hs, -⟩ := mem_links hl
    have hmem := (connects_iff.mp hc).1
    rw [hs, ← hcovers.keys] at hmem
    simpa using hmem
  have hperm := map_label_arcs_perm hsources
  rw [map_links h] at hperm
  refine ⟨rfl, rfl, ?_, hperm, ?_, rfl, ?_, ?_, ?_⟩
  · rw [vertices_addArcs]
    exact hv
  · intro arc harc
    obtain ⟨-, -, hs, ht⟩ := mem_links (mem_links_of_mem_arcs harc)
    exact ⟨hs, ht⟩
  · have hlength := hperm.length_eq
    rw [List.length_map] at hlength
    have hsplit := (List.filter_append_perm scope.connects scope.edges).length_eq
    rw [List.length_append] at hsplit
    rw [hlength, danglingEdges, hsplit]
  · intro source target
    rw [filter_arcs hsources, labelsOf_links h]
  · rw [arcs_addArcs, vertices_addArcs]
    simp only [labelsOf_links h, targetsOf_links h]

/-- **The graph takes the edges of a scope apart**, and reports each edge that dangles once, in the
order of declaration. -/
theorem graph_partitions_edges (scope : Scope) (h : none ∉ scope.nodes.keys) :
    ∃ graph, scope.graph.value = .ok graph ∧ Partition scope graph ∧
      scope.graph.log = scope.danglingEdges.map fun edge =>
        ⟨.warning, FlowGraph.danglingMessage scope edge⟩ := by
  obtain ⟨vertices, hv, hgraph⟩ := exists_graph h
  exact ⟨_, congrArg Logged.value hgraph, partition_addArcs h hv, congrArg Logged.log hgraph⟩

/-- Two nodes with parallel edges, a self loop before its node's other edges, and a dangling edge. -/
def doorway : Scope where
  entity := some "Door"
  nodes := .ofList
    [(some "1", ⟨some "1", some "Open", some "Event", .origin, .empty⟩),
      (some "2", ⟨some "2", none, some "Action", .origin, .ofList [("speed", "3")]⟩)]
  edges :=
    [⟨some "2", some "2", none, none⟩, ⟨some "1", some "2", some "out", some "in"⟩,
      ⟨some "1", some "99", none, none⟩, ⟨some "1", some "2", some "again", some "in"⟩]
  trailing := false

theorem doorway_graph_partitions_edges :
    none ∉ doorway.nodes.keys ∧
      ∃ graph, doorway.graph.value = .ok graph ∧ Partition doorway graph ∧
        doorway.graph.log = doorway.danglingEdges.map fun edge =>
          ⟨.warning, FlowGraph.danglingMessage doorway edge⟩ :=
  ⟨by decide, graph_partitions_edges doorway (by decide)⟩

end Scope

end FlowAtlas
