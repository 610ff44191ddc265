import FlowAtlas.Proofs.Dot.Escape
import FlowAtlas.Proofs.FlowGraph.Partition
import FlowAtlas.Proofs.Markup.Spelled
import FlowAtlas.Proofs.Scan.Scopes

/-!
# What scopes are made of

Whatever the lines of a source are, all texts in its scopes come out of attributes, and every node
is filed under an id that it has.  So every scope has a graph, and its document shows ids and edge
labels as they are: no character of theirs needs an escape.

Main facts: `spellable_entries_attributes` (what a line yields), `Assembly.WellFormed.readEntry`
(what reading an entry keeps) and `assembleScopes_wellFormed`.
-/

namespace FlowAtlas

open Markup (IsKey IsValue Spellable)

/-! ## What a line yields -/

namespace Markup

/-- A key character that has lost its letter case is a lower-case letter or the underscore. -/
theorem isLower_toLower_of_isKeyChar {c : Char} (h : isKeyChar c = true) :
    c.toLower.isLower = true ∨ c.toLower = '_' := by
  by_cases hupper : c.isUpper = true
  · have hrange := isUpper_iff.mp hupper
    have hnat := toNat_toLower_of_isUpper hupper
    exact Or.inl (isLower_iff.mpr (by omega))
  · rw [toLower_of_not_isUpper hupper]
    exact (isKeyChar_iff.mp h).resolve_left hupper

theorem isKey_of_get? {line key value : String} (h : (attributes line).get? key = some value) :
    IsKey key := by
  obtain ⟨place, hplace, hentry⟩ := exists_place_of_get? h
  have hkey : String.ofList (place.key.map Char.toLower) = key := congrArg Prod.fst hentry
  intro c hc
  rw [← hkey, String.toList_ofList] at hc
  obtain ⟨d, hd, rfl⟩ := List.mem_map.mp hc
  exact isLower_toLower_of_isKeyChar (isKeyChar_of_mem_places hplace d hd)

/-- **A line yields nothing but keys and values.** -/
theorem spellable_entries_attributes (line : String) : Spellable (attributes line).entries := by
  intro a ha
  have hget : (attributes line).get? a.1 = some a.2 := OrderedMap.get?_of_mem ha
  exact ⟨isKey_of_get? hget, isValue_of_get? hget⟩

end Markup

/-! ## Nodes, edges and scopes -/

/-- The texts of a node are values, its inputs can be spelled, and it has an id. -/
structure Node.WellFormed (node : Node) : Prop where
  id : ∃ id, node.id = some id ∧ IsValue id
  name : ∀ text ∈ node.name, IsValue text
  kind : ∀ text ∈ node.kind, IsValue text
  inputs : Spellable node.inputs.entries

/-- The texts of an edge are values. -/
structure Edge.WellFormed (edge : Edge) : Prop where
  source : ∀ text ∈ edge.source, IsValue text
  target : ∀ text ∈ edge.target, IsValue text
  sourcePort : ∀ text ∈ edge.sourcePort, IsValue text
  targetPort : ∀ text ∈ edge.targetPort, IsValue text

/-- All texts of a scope are values, and every key is the id of its node. -/
structure Scope.WellFormed (scope : Scope) : Prop where
  entity : ∀ name ∈ scope.entity, IsValue name
  keys : ∀ entry ∈ scope.nodes.entries, entry.1 = entry.2.id
  nodes : ∀ entry ∈ scope.nodes.entries, entry.2.WellFormed
  edges : ∀ edge ∈ scope.edges, edge.WellFormed

/-- A record with an id describes a node that is well-formed. -/
theorem Node.wellFormed_ofAttributes {line : String} {inputs : Attributes}
    (hid : (Markup.attributes line).get? "id" ≠ none) (hinputs : Spellable inputs.entries) :
    (Node.ofAttributes (Markup.attributes line) inputs).value.WellFormed := by
  obtain ⟨id, hsome⟩ := Option.ne_none_iff_exists'.mp hid
  refine ⟨⟨id, hsome, Markup.isValue_of_get? hsome⟩, ?_, ?_, hinputs⟩
  · exact fun text htext => Markup.isValue_of_get? htext
  · exact fun text htext => Markup.isValue_of_get? htext

theorem Edge.wellFormed_ofAttributes (line : String) :
    (Edge.ofAttributes (Markup.attributes line)).WellFormed := by
  have hvalue : ∀ key, ∀ text ∈ (Markup.attributes line).get? key, IsValue text :=
    fun key text htext => Markup.isValue_of_get? htext
  exact ⟨hvalue "nodeout", hvalue "nodein", hvalue "portout", hvalue "portin"⟩

/-! ## What the scanner keeps -/

/-- What is finished and what is open is well-formed. -/
structure Assembly.WellFormed (a : Assembly) : Prop where
  finished : ∀ scope ∈ a.finished, scope.WellFormed
  opened : Scope.WellFormed ⟨a.entity, a.nodes, a.edges, false⟩

namespace Transcript

theorem Entry.spellable_inputs (e : Entry) : Spellable e.inputs.entries := by
  have hempty : Spellable (OrderedMap.empty : Attributes).entries := List.forall_mem_nil _
  unfold Entry.inputs
  split
  · split
    · exact Markup.spellable_entries_attributes _
    · exact hempty
  · exact hempty

theorem isValue_of_mem_entity {before : Option String} (h : ∀ name ∈ before, IsValue name)
    (e : Entry) : ∀ name ∈ e.entity before, IsValue name := by
  unfold Entry.entity
  split
  · exact fun name hname => Markup.isValue_of_get? hname
  · exact h

end Transcript

open Transcript (readEntry)

namespace Assembly

variable {a : Assembly}

theorem wellFormed_start : start.WellFormed where
  finished := List.forall_mem_nil _
  opened :=
    { entity := fun name hname => by cases hname
      keys := List.forall_mem_nil _
      nodes := List.forall_mem_nil _
      edges := List.forall_mem_nil _ }

theorem WellFormed.enter (h : a.WellFormed) (e : Transcript.Entry) :
    (Scan.enter a e.line).WellFormed := by
  rw [Transcript.enter_eq]
  refine ⟨h.finished, ?_, h.opened.keys, h.opened.nodes, h.opened.edges⟩
  exact Transcript.isValue_of_mem_entity h.opened.entity e

/-- A node is filed under its id, beside the nodes that are there or in the place of one. -/
theorem WellFormed.recordNode (h : a.WellFormed) (line : String) {inputs : Attributes}
    (hinputs : Spellable inputs.entries) : (Scan.recordNode a line inputs).value.WellFormed := by
  rw [Transcript.value_recordNode]
  split
  · exact h
  · rename_i hid
    have hnode := Node.wellFormed_ofAttributes hid hinputs
    refine ⟨h.finished, h.opened.entity, ?_, ?_, h.opened.edges⟩
    · intro entry hentry
      rcases OrderedMap.mem_entries_insert hentry with rfl | hentry
      · rfl
      · exact h.opened.keys entry hentry
    · intro entry hentry
      rcases OrderedMap.mem_entries_insert hentry with rfl | hentry
      · exact hnode
      · exact h.opened.nodes entry hentry

theorem WellFormed.addEdge (h : a.WellFormed) (line : String) :
    (a.addEdge (.ofAttributes (Markup.attributes line))).WellFormed := by
  refine ⟨h.finished, h.opened.entity, h.opened.keys, h.opened.nodes, ?_⟩
  intro edge hedge
  rcases List.mem_append.mp hedge with hedge | hedge
  · exact h.opened.edges edge hedge
  · rw [List.mem_singleton.mp hedge]
    exact Edge.wellFormed_ofAttributes line

/-- What is finished is what was open, and then nothing is open but the entity stays. -/
theorem WellFormed.conclude (h : a.WellFormed) (trailing : Bool) :
    (a.conclude ⟨a.entity, a.nodes, a.edges, trailing⟩).WellFormed := by
  have hscope : Scope.WellFormed ⟨a.entity, a.nodes, a.edges, trailing⟩ :=
    ⟨h.opened.entity, h.opened.keys, h.opened.nodes, h.opened.edges⟩
  refine ⟨?_, h.opened.entity, List.forall_mem_nil _, List.forall_mem_nil _,
    List.forall_mem_nil _⟩
  intro scope hmem
  rcases List.mem_append.mp hmem with hmem | hmem
  · exact h.finished scope hmem
  · exact List.mem_singleton.mp hmem ▸ hscope

theorem WellFormed.closeScope (h : a.WellFormed) : (Scan.closeScope a).value.WellFormed := by
  rw [Transcript.value_closeScope]
  split
  · exact h.conclude false
  · exact h

/-- **Reading an entry keeps an assembly well-formed**, whatever it says. -/
theorem WellFormed.readEntry (h : a.WellFormed) (e : Transcript.Entry) :
    (readEntry a e).WellFormed := by
  have henter := h.enter e
  unfold Transcript.readEntry
  dsimp only
  split
  · exact henter.recordNode e.line e.spellable_inputs
  · split
    · exact henter.addEdge e.line
    · split
      · exact henter.closeScope
      · exact henter

theorem WellFormed.foldl_readEntry (h : a.WellFormed) (es : List Transcript.Entry) :
    (es.foldl Transcript.readEntry a).WellFormed := by
  induction es generalizing a with
  | nil => exact h
  | cons e es ih => exact ih (h.readEntry e)

end Assembly

/-- Every scope of any lines is well-formed. -/
theorem wellFormed_of_mem_assembleScopes {lines : List String} {scope : Scope}
    (h : scope ∈ (assembleScopes lines).value) : scope.WellFormed := by
  rw [value_assembleScopes, Transcript.ofLines, ← Transcript.finished_foldl_readEntry] at h
  have hread := Assembly.wellFormed_start.foldl_readEntry
    (Transcript.entries (lines.map Text.withoutLineEnd))
  exact (hread.conclude true).finished scope h

/-! ## What the document shows -/

namespace Dot

/-- A value character stands for itself inside double quotes. -/
theorem isPlain_of_isValueChar {c : Char} (h : Markup.isValueChar c = true) :
    isPlain c = true := by
  unfold isPlain
  simp only [Bool.and_eq_true, decide_eq_true_eq]
  refine ⟨⟨?_, ?_⟩, ?_⟩ <;> rintro rfl <;> revert h <;> decide

theorem isPlain_of_isValue {text : String} (h : IsValue text) :
    text.toList.all isPlain = true := by
  rw [List.all_eq_true]
  exact fun c hc => isPlain_of_isValueChar (h c hc)

theorem escape_eq_self {text : String} (h : text.toList.all isPlain = true) :
    escape text = text := by
  unfold escape
  rw [escapeChars_of_isPlain h, String.ofList_toList]

theorem isPlain_orNone {text : Option String} (h : ∀ t ∈ text, IsValue t) :
    (Text.orNone text).toList.all isPlain = true := by
  cases text with
  | none => decide
  | some t => exact isPlain_of_isValue (h t rfl)

end Dot

/-- The label of an edge needs no escapes, also where a port is missing. -/
theorem Edge.WellFormed.escape_label {edge : Edge} (h : edge.WellFormed) :
    Dot.escape edge.label = edge.label := by
  apply Dot.escape_eq_self
  unfold Edge.label
  rw [String.toList_append, String.toList_append, List.all_append, List.all_append,
    Dot.isPlain_orNone h.sourcePort, Dot.isPlain_orNone h.targetPort]
  decide

/-- What the document of a graph shows of ids and edges needs no escapes. -/
structure FlowGraph.ShowsPlainly (graph : FlowGraph) : Prop where
  ids : ∀ id ∈ graph.network.vertices.keys, Dot.escape id = id
  ends : ∀ arc ∈ graph.network.arcs,
    Dot.escape arc.source = arc.source ∧ Dot.escape arc.target = arc.target
  labels : ∀ arc ∈ graph.network.arcs, Dot.escape arc.label.label = arc.label.label

namespace Scope

variable {scope : Scope}

theorem WellFormed.none_not_mem_keys (h : scope.WellFormed) : none ∉ scope.nodes.keys := by
  intro hnone
  obtain ⟨entry, hentry, hkey⟩ := List.mem_map.mp hnone
  obtain ⟨id, hid, -⟩ := (h.nodes entry hentry).id
  rw [h.keys entry hentry, hid] at hkey
  cases hkey

theorem WellFormed.isValue_of_mem_keys (h : scope.WellFormed) {id : String}
    (hid : some id ∈ scope.nodes.keys) : IsValue id := by
  obtain ⟨entry, hentry, hkey⟩ := List.mem_map.mp hid
  obtain ⟨own, hown, hvalue⟩ := (h.nodes entry hentry).id
  rw [h.keys entry hentry, hown] at hkey
  exact Option.some.inj hkey ▸ hvalue

/-- The graph of a well-formed scope has the ids and edges of the scope, so they show plainly. -/
theorem WellFormed.showsPlainly (h : scope.WellFormed) {graph : FlowGraph}
    (hgraph : Partition scope graph) : graph.ShowsPlainly := by
  have hcovers : FlowGraph.Covers scope graph := hgraph.nodes
  have hedge : ∀ arc ∈ graph.network.arcs, arc.label.WellFormed := by
    intro arc harc
    have hmem := hgraph.edges.mem_iff.mp (List.mem_map_of_mem harc)
    exact h.edges arc.label (List.mem_filter.mp hmem).1
  refine ⟨?_, ?_, fun arc harc => (hedge arc harc).escape_label⟩
  · intro id hid
    have hkey : some id ∈ scope.nodes.keys := by
      rw [← hcovers.keys]
      exact List.mem_map_of_mem hid
    exact Dot.escape_eq_self (Dot.isPlain_of_isValue (h.isValue_of_mem_keys hkey))
  · intro arc harc
    obtain ⟨hsource, htarget⟩ := hgraph.ends arc harc
    have hvalues := hedge arc harc
    exact ⟨Dot.escape_eq_self (Dot.isPlain_of_isValue (hvalues.source _ hsource)),
      Dot.escape_eq_self (Dot.isPlain_of_isValue (hvalues.target _ htarget))⟩

/-- A well-formed scope has a graph, and it shows plainly. -/
theorem WellFormed.exists_graph (h : scope.WellFormed) :
    ∃ graph, scope.graph.value = .ok graph ∧ graph.ShowsPlainly := by
  obtain ⟨vertices, hvertices, hgraph⟩ := Scope.exists_graph h.none_not_mem_keys
  have hpartition := partition_addArcs h.none_not_mem_keys hvertices
  exact ⟨_, congrArg Logged.value hgraph, h.showsPlainly hpartition⟩

end Scope

/-- **All lines give well-formed scopes**: closed ones under names that are not empty, then the
trailing one.  Each has a graph, whose ids and edge labels stand in its document as they are. -/
theorem assembleScopes_wellFormed (lines : List String) :
    (∃ closed last, (assembleScopes lines).value = closed ++ [last] ∧
      (∀ scope ∈ closed, scope.IsClosed) ∧ last.trailing = true) ∧
    ∀ scope ∈ (assembleScopes lines).value, scope.WellFormed ∧
      ∃ graph, scope.graph.value = .ok graph ∧ graph.ShowsPlainly := by
  refine ⟨exists_closed_trailing lines, fun scope hscope => ?_⟩
  have hscope := wellFormed_of_mem_assembleScopes hscope
  exact ⟨hscope, hscope.exists_graph⟩

/-! ## Garbled lines -/

namespace Garbled

/-- Lines with several marks each, values that are none, and a node without an id. -/
def lines : List String :=
  ["<Entity Name=\"Front \\ door\" name=\"Door\"><Node id=\"7\" NAME=\"Bob's\" Class=\"Ark:Log\">",
    "<Inputs Key=\"a=b\" _Other=\"&lt;\"/></FlowGraph>", "<Node Name=\"nobody\"/>",
    "<Edge NodeOut=\"7\" NodeIn=\"7\" PortOut=\"out\"/>", "</FlowGraph>", "<Edge nodein=\"\"/>"]

/-- What the lines up to the closing mark give. -/
def scope : Scope where
  entity := some "Door"
  nodes := .ofList
    [(some "7", ⟨some "7", some "Door", some "Ark:Log", .origin, .ofList [("_other", "&lt;")]⟩)]
  edges := [⟨some "7", some "7", some "out", none⟩]
  trailing := false

theorem scope_mem : scope ∈ (assembleScopes lines).value := by decide +kernel

end Garbled

theorem garbled_wellFormed :
    Garbled.scope ∈ (assembleScopes Garbled.lines).value ∧ Garbled.scope.WellFormed ∧
      ∃ graph, Garbled.scope.graph.value = .ok graph ∧ graph.ShowsPlainly :=
  ⟨Garbled.scope_mem, (assembleScopes_wellFormed Garbled.lines).2 Garbled.scope Garbled.scope_mem⟩

end FlowAtlas
