import FlowAtlas.Proofs.Dot.Reader

/-!
# Kinds that were noted

While documents are made, the labeller notes the kinds without a rule.  What it notes depends on the
documents alone, and what it has noted before does not show in them.

Main facts: `value_serialize_snd`, `value_serialize_noting` and `mem_noting`.
-/

namespace FlowAtlas

namespace Labeller

/-- The node's kind, if there is no rule for it. -/
def strayKind? (book : Rulebook) (node : Node) : Option String :=
  node.kind.filter fun kind => !book.contains kind

/-- The labeller after some kinds have been noted. -/
def noting (labeller : Labeller) (kinds : List String) : Labeller :=
  { labeller with
    unhandled := kinds.foldl (fun known kind => insertText kind known) labeller.unhandled }

variable (labeller : Labeller)

@[simp] theorem noting_nil : labeller.noting [] = labeller := rfl

@[simp] theorem book_noting (kinds : List String) : (labeller.noting kinds).book = labeller.book :=
  rfl

theorem noting_append (kinds more : List String) :
    labeller.noting (kinds ++ more) = (labeller.noting kinds).noting more := by
  unfold noting
  rw [List.foldl_append]

theorem mem_noting {kind : String} (kinds : List String) :
    kind ∈ (labeller.noting kinds).unhandled ↔ kind ∈ kinds ∨ kind ∈ labeller.unhandled := by
  induction kinds generalizing labeller with
  | nil => simp
  | cons first kinds ih =>
    have hfirst : labeller.noting (first :: kinds) = (labeller.noting [first]).noting kinds :=
      labeller.noting_append [first] kinds
    have hone : kind ∈ (labeller.noting [first]).unhandled ↔
        kind = first ∨ kind ∈ labeller.unhandled := mem_insertText
    rw [hfirst, ih, hone, List.mem_cons, or_assoc, or_left_comm]

theorem pairwise_noting (kinds : List String) (h : labeller.unhandled.Pairwise (· < ·)) :
    (labeller.noting kinds).unhandled.Pairwise (· < ·) := by
  induction kinds using List.reverseRecOn with
  | nil => exact h
  | append_singleton kinds kind ih =>
    rw [noting_append]
    exact pairwise_insertText ih

theorem value_note (node : Node) :
    (labeller.note node).value = labeller.noting (strayKind? labeller.book node).toList := by
  unfold note strayKind?
  cases node.kind with
  | none => rfl
  | some kind =>
    cases hbook : labeller.book.contains kind with
    | true => simp [Option.filter_some, hbook]
    | false =>
      simp [Option.filter_some, hbook]
      rfl

theorem value_label_snd (node : Node) :
    (labeller.label node).value.2 = labeller.noting (strayKind? labeller.book node).toList := by
  rw [← value_note]
  rfl

end Labeller

namespace Dot

variable (scale : Binary64) (labeller : Labeller)

/-- The kinds without a rule in a graph, node by node. -/
def strayKinds (book : Rulebook) (graph : FlowGraph) : List String :=
  graph.network.vertices.entries.filterMap fun v => Labeller.strayKind? book v.2

/-- Making a document notes the kinds without a rule in its graph. -/
theorem value_serialize_snd (graph : FlowGraph) :
    (serialize graph scale labeller).value.2 =
      labeller.noting (strayKinds labeller.book graph) := by
  show (vertexStatements scale labeller graph.network.vertices.entries).value.2 = _
  unfold strayKinds
  rw [vertexStatements, Logged.value_fold]
  induction graph.network.vertices.entries using List.reverseRecOn with
  | nil => rfl
  | append_singleton vertices v ih =>
    rw [List.foldl_append, List.foldl_cons, List.foldl_nil, List.filterMap_append,
      Labeller.noting_append, ← ih]
    show (Labeller.label _ v.2).value.2 = _
    rw [Labeller.value_label_snd, ih, Labeller.book_noting]
    cases hkind : Labeller.strayKind? labeller.book v.2 with
    | none => simp [hkind]
    | some kind => simp [hkind]

/-- What has been noted before does not show in a document. -/
theorem value_serialize_noting (graph : FlowGraph) (kinds : List String) :
    (serialize graph scale (labeller.noting kinds)).value.1 =
      (serialize graph scale labeller).value.1 := by
  rw [value_serialize, value_serialize]
  rfl

end Dot

end FlowAtlas
