import FlowAtlas.Proofs.Label.Noted
import Mathlib.Data.List.Sort

/-!
# Labelling node after node

A labeller goes from node to node and keeps an account of the kinds that it met without a rule.
The account is a set kept as an increasing list, so it is the same in whichever order the nodes
come and however often; the labels are those that the nodes have on their own.

Main facts: `value_labelAll` (what a run of labels and its account are, by induction on the nodes)
and `unhandled_labelAll`.
-/

namespace FlowAtlas

namespace Labeller

/-- Label nodes one after the other: their labels, and the labeller that is left. -/
def labelAll (labeller : Labeller) : List Node → Logged (List String × Labeller)
  | [] => pure ([], labeller)
  | node :: nodes => do
    let (text, next) ← labeller.label node
    let (texts, last) ← next.labelAll nodes
    pure (text :: texts, last)

/-- The kinds without a rule among nodes, node by node. -/
def strayKindsOf (book : Rulebook) (nodes : List Node) : List String :=
  nodes.filterMap (strayKind? book)

theorem mem_strayKindsOf {book : Rulebook} {nodes : List Node} {kind : String} :
    kind ∈ strayKindsOf book nodes ↔
      book.contains kind = false ∧ some kind ∈ nodes.map Node.kind := by
  unfold strayKindsOf strayKind?
  simp only [List.mem_filterMap, List.mem_map, Option.filter_eq_some_iff, Bool.not_eq_true']
  constructor
  · rintro ⟨node, hnode, hkind, hbook⟩
    exact ⟨hbook, node, hnode, hkind⟩
  · rintro ⟨hbook, node, hnode, hkind⟩
    exact ⟨node, hnode, hkind, hbook⟩

variable (labeller : Labeller)

/-- A run gives each node its own label and notes the kinds without a rule. -/
theorem value_labelAll (nodes : List Node) :
    (labeller.labelAll nodes).value =
      (nodes.map labeller.textOf, labeller.noting (strayKindsOf labeller.book nodes)) := by
  induction nodes generalizing labeller with
  | nil => rfl
  | cons node nodes ih =>
    have hnext := labeller.value_label_snd node
    have hkinds : (strayKind? labeller.book node).toList ++ strayKindsOf labeller.book nodes =
        strayKindsOf labeller.book (node :: nodes) := by
      unfold strayKindsOf
      cases hkind : strayKind? labeller.book node <;> simp [hkind]
    show (_ :: (labelAll _ nodes).value.1, (labelAll _ nodes).value.2) = _
    rw [ih, hnext, ← hkinds, noting_append]
    rfl

theorem mem_unhandled_noting {kinds : List String} {kind : String}
    (hfresh : labeller.unhandled = []) :
    kind ∈ (labeller.noting kinds).unhandled ↔ kind ∈ kinds := by
  rw [mem_noting, hfresh, or_iff_left List.not_mem_nil]

/-- Increasing lists with the same members are the same. -/
theorem unhandled_noting_congr {kinds kinds' : List String}
    (hsorted : labeller.unhandled.Pairwise (· < ·)) (h : ∀ kind, kind ∈ kinds ↔ kind ∈ kinds') :
    (labeller.noting kinds).unhandled = (labeller.noting kinds').unhandled := by
  have hsame : ∀ kind, kind ∈ (labeller.noting kinds).unhandled ↔
      kind ∈ (labeller.noting kinds').unhandled := fun kind => by
    rw [mem_noting, mem_noting, h]
  exact List.Subset.antisymm_of_pairwise (labeller.pairwise_noting kinds hsorted)
    (labeller.pairwise_noting kinds' hsorted) (fun kind => (hsame kind).mp)
    fun kind => (hsame kind).mpr

/-- What has been noted stays noted, in its order. -/
theorem unhandled_sublist_noting (kinds : List String)
    (hsorted : labeller.unhandled.Pairwise (· < ·)) :
    labeller.unhandled.Sublist (labeller.noting kinds).unhandled := by
  have hkeeps : labeller.unhandled ⊆ (labeller.noting kinds).unhandled := fun kind hkind =>
    (labeller.mem_noting kinds).mpr (.inr hkind)
  exact List.sublist_of_subperm_of_pairwise
    (List.subperm_of_subset (hsorted.imp String.ne_of_lt) hkeeps) hsorted
    (labeller.pairwise_noting kinds hsorted)

/-- **What a labeller has to say about kinds is a set, and its labels have no memory.**  Let a
labeller that has met no node go through any nodes.  Its account is strictly increasing and has the
kinds of the nodes that there is no rule for, and nothing else.  It is the same for any nodes of the
same kinds, so the nodes may come in another order and again and again; nodes that follow only add
to it.  Each label is the one that its node has on its own: of nodes that follow others the labels
are those that they have without them. -/
theorem unhandled_labelAll (book : Rulebook) (tables : Tables) (maxLength : Int) :
    let run := fun nodes => (labelAll ⟨book, tables, maxLength, []⟩ nodes).value
    (∀ nodes, (run nodes).2.unhandled.Pairwise (· < ·) ∧
      ∀ kind, kind ∈ (run nodes).2.unhandled ↔
        book.contains kind = false ∧ ∃ node ∈ nodes, node.kind = some kind) ∧
    (∀ nodes nodes',
      (∀ kind, some kind ∈ nodes.map Node.kind ↔ some kind ∈ nodes'.map Node.kind) →
        (run nodes).2.unhandled = (run nodes').2.unhandled) ∧
    (∀ nodes more, (run nodes).2.unhandled.Sublist (run (nodes ++ more)).2.unhandled) ∧
    (∀ nodes, (run nodes).1 = nodes.map fun node =>
      (resolveLabel book tables maxLength node.kind node.name node.inputs).value) ∧
    ∀ earlier nodes, (run (earlier ++ nodes)).1 = (run earlier).1 ++ (run nodes).1 := by
  intro run
  have hrun : ∀ nodes, run nodes = _ := value_labelAll ⟨book, tables, maxLength, []⟩
  have hfresh : (⟨book, tables, maxLength, []⟩ : Labeller).unhandled.Pairwise (· < ·) := .nil
  refine ⟨fun nodes => ⟨?_, fun kind => ?_⟩, fun nodes nodes' h => ?_, fun nodes more => ?_,
    fun nodes => ?_, fun earlier nodes => ?_⟩
  · rw [hrun]
    exact pairwise_noting _ _ hfresh
  · rw [hrun, mem_unhandled_noting _ rfl, mem_strayKindsOf, List.mem_map]
  · rw [hrun, hrun]
    refine unhandled_noting_congr _ hfresh fun kind => ?_
    rw [mem_strayKindsOf, mem_strayKindsOf, h]
  · have hkinds : strayKindsOf book (nodes ++ more) =
        strayKindsOf book nodes ++ strayKindsOf book more := List.filterMap_append
    rw [hrun, hrun]
    show List.Sublist _ (noting _ (strayKindsOf book (nodes ++ more))).unhandled
    rw [hkinds, noting_append]
    exact unhandled_sublist_noting _ _ (pairwise_noting _ _ hfresh)
  · rw [hrun]
    rfl
  · rw [hrun, hrun, hrun, List.map_append]

/-! ## Two kinds without a rule -/

namespace TwoStrays

def node (kind : Option String) : Node where
  id := some "1"
  name := none
  kind := kind
  position := .origin
  inputs := .ofList [("b", "2"), ("a", "1")]

/-- Nodes of two kinds without a rule, of a kind with a rule and of no kind. -/
def nodes : List Node :=
  [node (some "Zeta:Node"), node (some "Mission:GameTokenGet"), node (some "Alpha:Node"),
    node none]

/-- The account of a labeller by the standard rules. -/
def account (nodes : List Node) : List String :=
  (labelAll (new ⟨fun _ => .empty⟩ defaultMaxLength) nodes).value.2.unhandled

theorem some_mem_map_kind (kind : String) :
    some kind ∈ nodes.map Node.kind ↔ some kind ∈ (nodes.reverse ++ nodes).map Node.kind := by
  simp [List.mem_append]

end TwoStrays

open TwoStrays in
theorem twoStrays_unhandled_labelAll :
    (∀ kind, some kind ∈ nodes.map Node.kind ↔
      some kind ∈ (nodes.reverse ++ nodes).map Node.kind) ∧
      account nodes = account (nodes.reverse ++ nodes) ∧
      account nodes = ["Alpha:Node", "Zeta:Node"] :=
  ⟨some_mem_map_kind,
    (unhandled_labelAll .standard _ _).2.1 nodes (nodes.reverse ++ nodes) some_mem_map_kind,
    by decide +kernel⟩

end Labeller

end FlowAtlas
