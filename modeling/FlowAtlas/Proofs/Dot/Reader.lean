import FlowAtlas.Proofs.Dot.Escape
import FlowAtlas.Proofs.FlowGraph.Partition
import FlowAtlas.Proofs.Text.Pieces

/-!
# Documents read back

A reader of documents takes a text apart into terminated lines, and a line into the quoted texts of
one statement.  It gets back what was written, so no text of a graph can imitate the marks of a
document.

Main facts: `read?_line` (statements), `terminatedLines_document` (lines) and `serialize_reads_back`
(the documents of scopes).
-/

namespace FlowAtlas

/-! ## Labels -/

namespace Labeller

/-- The label that a labeller gives to a node. -/
def textOf (labeller : Labeller) (node : Node) : String :=
  (resolveLabel labeller.book labeller.tables labeller.maxLength node.kind node.name
    node.inputs).value

/-- Labelling a node changes nothing that labels depend on. -/
theorem value_label (labeller : Labeller) (node : Node) :
    ∃ unhandled, (labeller.label node).value =
      (labeller.textOf node, { labeller with unhandled }) := by
  have hnote : ∃ unhandled, (labeller.note node).value = { labeller with unhandled } := by
    unfold note
    split
    · exact ⟨labeller.unhandled, rfl⟩
    · rename_i kind hkind
      split
      · exact ⟨labeller.unhandled, rfl⟩
      · exact ⟨insertText kind labeller.unhandled, rfl⟩
  obtain ⟨unhandled, hnote⟩ := hnote
  refine ⟨unhandled, ?_⟩
  rw [label, Logged.value_bind, Logged.value_bind, Logged.value_pure, hnote]
  rfl

end Labeller

namespace Dot

/-! ## Statements -/

/-- What stands behind the given beginning of a text. -/
def behind? (beginning text : List Char) : Option (List Char) :=
  if beginning.isPrefixOf text then some (text.drop beginning.length) else none

/-- A quoted text behind the given beginning, and what stands behind its end. -/
def readField? (beginning : String) (text : List Char) : Option (String × List Char) := do
  let (field, rest) ← readQuoted (← behind? beginning.toList text)
  some (String.ofList field, rest)

/-- One statement of a document. -/
inductive Statement
  | vertex (id label position : String)
  | arc (source target label : String)
deriving DecidableEq

namespace Statement

/-- The line of a statement. -/
def line : Statement → String
  | vertex id label position => vertexStatement id label position
  | arc source target label => arcStatement source target label

/-- The statement of a line. -/
def read? (line : String) : Option Statement := do
  let (first, rest) ← readField? "  \"" line.toList
  match readField? " [ label=\"" rest with
  | some (label, rest) =>
    let (position, rest) ← readField? " pos=\"" rest
    if rest = " ];".toList then some (vertex first label position) else none
  | none =>
    let (target, rest) ← readField? " -> \"" rest
    let (label, rest) ← readField? " [ label=\"" rest
    if rest = " ];".toList then some (arc first target label) else none

/-- A position is written as it is, so it must not need escapes. -/
def IsWritable : Statement → Prop
  | vertex _ _ position => position.toList.all isPlain = true
  | arc _ _ _ => True

end Statement

theorem behind?_append (beginning rest : List Char) :
    behind? beginning (beginning ++ rest) = some rest := by
  unfold behind?
  rw [if_pos (List.isPrefixOf_iff_prefix.mpr (List.prefix_append _ _)), List.drop_left]

theorem readField?_append (beginning field : String) (rest : List Char) :
    readField? beginning (beginning.toList ++ ((escape field).toList ++ '"' :: rest)) =
      some (field, rest) := by
  rw [readField?, behind?_append, escape, String.toList_ofList]
  simp only [Option.bind_eq_bind, Option.bind_some, readQuoted_escapeChars, String.ofList_toList]

theorem toList_vertexStatement (id label : String) {position : String}
    (h : position.toList.all isPlain = true) :
    (vertexStatement id label position).toList =
      "  \"".toList ++ ((escape id).toList ++ '"' ::
        (" [ label=\"".toList ++ ((escape label).toList ++ '"' ::
          (" pos=\"".toList ++ ((escape position).toList ++ '"' :: " ];".toList))))) := by
  have hposition : (escape position).toList = position.toList := by
    rw [escape, String.toList_ofList, escapeChars_of_isPlain h]
  rw [hposition]
  simp [vertexStatement]

theorem toList_arcStatement (source target label : String) :
    (arcStatement source target label).toList =
      "  \"".toList ++ ((escape source).toList ++ '"' ::
        (" -> \"".toList ++ ((escape target).toList ++ '"' ::
          (" [ label=\"".toList ++ ((escape label).toList ++ '"' :: " ];".toList))))) := by
  simp [arcStatement]

/-- **A statement reads back from its line.** -/
theorem read?_line {s : Statement} (h : s.IsWritable) : Statement.read? s.line = some s := by
  cases s with
  | vertex id label position =>
    rw [Statement.line, Statement.read?, toList_vertexStatement id label h]
    simp only [readField?_append, Option.bind_eq_bind, Option.bind_some, if_true]
  | arc source target label =>
    -- what follows the first text of an arc is no label
    have hmark : ∀ rest, readField? " [ label=\"" (" -> \"".toList ++ rest) = none := fun _ => rfl
    rw [Statement.line, Statement.read?, toList_arcStatement]
    simp only [readField?_append, hmark, Option.bind_eq_bind, Option.bind_some, if_true]

/-- A statement stays on its line. -/
theorem newline_not_mem_line {s : Statement} (h : s.IsWritable) : '\n' ∉ s.line.toList := by
  have hescape : ∀ text, '\n' ∉ (escape text).toList := by
    intro text
    rw [escape, String.toList_ofList]
    exact newline_not_mem_escapeChars _
  cases s with
  | vertex id label position =>
    rw [Statement.line, toList_vertexStatement id label h]
    simp [hescape]
  | arc source target label =>
    rw [Statement.line, toList_arcStatement]
    simp [hescape]

/-! ## Lines -/

/-- The lines of a text, provided that each of them has its end. -/
def terminatedLines (text : String) : Option (List String) :=
  let pieces := Text.splitAtEach '\n' text.toList
  if pieces.getLast? = some [] then some (pieces.dropLast.map String.ofList) else none

theorem splitAtEach_document {lines : List String} (h : ∀ line ∈ lines, '\n' ∉ line.toList) :
    Text.splitAtEach '\n' (document lines).toList = lines.map String.toList ++ [[]] := by
  induction lines with
  | nil => rfl
  | cons line lines ih =>
    have hdocument : (document (line :: lines)).toList =
        line.toList ++ '\n' :: (document lines).toList := by
      simp [document]
    rw [hdocument, Text.splitAtEach_append_cons (h line List.mem_cons_self),
      ih fun l hl => h l (List.mem_cons_of_mem _ hl)]
    rfl

/-- **The lines of a document read back** if none of them has a line end inside. -/
theorem terminatedLines_document {lines : List String} (h : ∀ line ∈ lines, '\n' ∉ line.toList) :
    terminatedLines (document lines) = some lines := by
  unfold terminatedLines
  rw [splitAtEach_document h]
  simp [Function.comp_def]

/-! ## Documents -/

/-- The statement of a vertex under a labeller. -/
def vertexOf (scale : Binary64) (labeller : Labeller) (vertex : String × Node) : Statement :=
  .vertex vertex.1 (labeller.textOf vertex.2) (pinned vertex.2.position scale)

/-- The statement of an arc. -/
def arcOf (arc : Multigraph.Arc String Edge) : Statement :=
  .arc arc.source arc.target arc.label.label

/-- What the document of a graph says, statement by statement. -/
def drawn (graph : FlowGraph) (scale : Binary64) (labeller : Labeller) : List Statement :=
  graph.network.vertices.entries.map (vertexOf scale labeller) ++ graph.network.arcs.map arcOf

/-- The statements of a document. -/
def readDocument? (text : String) : Option (List Statement) := do
  match ← terminatedLines text with
  | [] => none
  | header :: rest =>
    if header = "digraph G \x7b" ∧ rest.getLast? = some "\x7d" then
      rest.dropLast.mapM Statement.read?
    else none

/-- A text holds the given statements, one a line between the marks of a document, and reads back
as them. -/
structure ReadsBack (text : String) (statements : List Statement) : Prop where
  lines : terminatedLines text =
    some (["digraph G \x7b"] ++ statements.map Statement.line ++ ["\x7d"])
  each : ∀ s ∈ statements, Statement.read? s.line = some s
  whole : readDocument? text = some statements

theorem readsBack_document {statements : List Statement} (h : ∀ s ∈ statements, s.IsWritable) :
    ReadsBack (document (["digraph G \x7b"] ++ statements.map Statement.line ++ ["\x7d"]))
      statements := by
  have hlines : ∀ line ∈ ["digraph G \x7b"] ++ statements.map Statement.line ++ ["\x7d"],
      '\n' ∉ line.toList := by
    intro line hline
    simp only [List.mem_append, List.mem_singleton, List.mem_map] at hline
    rcases hline with (rfl | ⟨s, hs, rfl⟩) | rfl
    · decide
    · exact newline_not_mem_line (h s hs)
    · decide
  have heach : ∀ s ∈ statements, Statement.read? s.line = some s := fun s hs => read?_line (h s hs)
  have hall : (statements.map Statement.line).mapM Statement.read? = some statements := by
    clear hlines h
    induction statements with
    | nil => rfl
    | cons s statements ih =>
      rw [List.map_cons, List.mapM_cons, heach s List.mem_cons_self,
        ih fun t ht => heach t (List.mem_cons_of_mem _ ht)]
      rfl
  refine ⟨terminatedLines_document hlines, heach, ?_⟩
  unfold readDocument?
  rw [terminatedLines_document hlines]
  simp [hall]

section Serialize

variable (scale : Binary64) (labeller : Labeller)

/-- A label does not depend on the nodes labelled before. -/
theorem value_vertexStatements (vertices : List (String × Node)) :
    ∃ unhandled, (vertexStatements scale labeller vertices).value =
      ((vertices.map fun v => (vertexOf scale labeller v).line).reverse,
        { labeller with unhandled }) := by
  rw [vertexStatements, Logged.value_fold]
  induction vertices using List.reverseRecOn with
  | nil => exact ⟨labeller.unhandled, rfl⟩
  | append_singleton vertices v ih =>
    obtain ⟨unhandled, ih⟩ := ih
    obtain ⟨next, hlabel⟩ := ({ labeller with unhandled } : Labeller).value_label v.2
    refine ⟨next, ?_⟩
    rw [List.foldl_append, List.foldl_cons, List.foldl_nil, ih, Logged.value_bind, hlabel,
      List.map_append, List.reverse_append]
    rfl

/-- The document of a graph lists what is drawn. -/
theorem value_serialize (graph : FlowGraph) :
    (serialize graph scale labeller).value.1 =
      document (["digraph G \x7b"] ++ (drawn graph scale labeller).map Statement.line ++
        ["\x7d"]) := by
  obtain ⟨unhandled, h⟩ := value_vertexStatements scale labeller graph.network.vertices.entries
  have hserialize : (serialize graph scale labeller).value.1 =
      document (["digraph G \x7b"] ++
        (vertexStatements scale labeller graph.network.vertices.entries).value.1.reverse ++
        graph.network.arcs.map (fun a => (arcOf a).line) ++ ["\x7d"]) := rfl
  rw [hserialize, h]
  simp only [List.reverse_reverse, drawn, List.map_append, List.map_map, List.append_assoc]
  rfl

theorem value_serialize_labeller (graph : FlowGraph) :
    ∃ unhandled, (serialize graph scale labeller).value.2 = { labeller with unhandled } := by
  obtain ⟨unhandled, h⟩ := value_vertexStatements scale labeller graph.network.vertices.entries
  exact ⟨unhandled, congrArg Prod.snd h⟩

theorem readsBack_serialize (graph : FlowGraph) :
    ReadsBack (serialize graph scale labeller).value.1 (drawn graph scale labeller) := by
  rw [value_serialize]
  refine readsBack_document fun s hs => ?_
  rcases List.mem_append.mp hs with hs | hs
  · obtain ⟨v, -, rfl⟩ := List.mem_map.mp hs
    exact isPlain_pinned v.2.position scale
  · obtain ⟨a, -, rfl⟩ := List.mem_map.mp hs
    trivial

end Serialize

/-- **The document of a scope reads back**: its lines are the statements of the declared nodes, in
order, and of the arcs, and no other graph that is drawn differently has the same document. -/
theorem serialize_reads_back (scope : Scope) (h : none ∉ scope.nodes.keys) :
    ∃ graph, scope.graph.value = .ok graph ∧
      graph.network.vertices.entries.map FlowGraph.declared = scope.nodes.entries ∧
      ∀ scale labeller,
        ReadsBack (serialize graph scale labeller).value.1
          (graph.network.vertices.entries.map (vertexOf scale labeller) ++
            graph.network.arcs.map arcOf) ∧
        (terminatedLines (serialize graph scale labeller).value.1).map List.length =
          some (2 + scope.nodes.size + graph.network.arcs.length) ∧
        ∀ other scale' labeller',
          (serialize other scale' labeller').value.1 = (serialize graph scale labeller).value.1 →
            drawn other scale' labeller' = drawn graph scale labeller := by
  obtain ⟨graph, hgraph, hcovers⟩ := Scope.exists_covering_graph h
  refine ⟨graph, hgraph, hcovers, fun scale labeller => ?_⟩
  have hreads := readsBack_serialize scale labeller graph
  refine ⟨hreads, ?_, ?_⟩
  · have hsize : graph.network.vertices.entries.length = scope.nodes.size := by
      rw [OrderedMap.size, ← hcovers, List.length_map]
    rw [hreads.lines, Option.map_some, ← hsize]
    simp [drawn]
    omega
  · intro other scale' labeller' htext
    have hother := (readsBack_serialize scale' labeller' other).whole
    rw [htext, hreads.whole] at hother
    exact (Option.some.inj hother).symm

/-- A scope whose texts imitate the marks of a document. -/
def imitation : Scope where
  entity := some "\" ];\n\x7d"
  nodes := .ofList
    [(some "\\", ⟨some "\\", none, some "\" pos=\"", .origin, .ofList [("key", "\\\"")]⟩),
      (some "\" -> \"", ⟨some "\" -> \"", none, none, .origin, .empty⟩)]
  edges := [⟨some "\" -> \"", some "\\", some "\n\x7d\n", some "\\"⟩]
  trailing := false

theorem imitation_reads_back :
    none ∉ imitation.nodes.keys ∧
      ∃ graph, imitation.graph.value = .ok graph ∧
        ReadsBack (serialize graph defaultScale (.new .blank defaultMaxLength)).value.1
          (graph.network.vertices.entries.map
              (vertexOf defaultScale (.new .blank defaultMaxLength)) ++
            graph.network.arcs.map arcOf) := by
  obtain ⟨graph, hgraph, -, hreads⟩ := serialize_reads_back imitation (by decide)
  exact ⟨by decide, graph, hgraph, (hreads defaultScale (.new .blank defaultMaxLength)).1⟩

end Dot

end FlowAtlas
