import Mathlib.Data.List.Infix
import FlowAtlas.Text.Search

/-!
# Occurrence of texts

The search for a word finds it exactly if the word stands in the text as a block.  A text without
one of the word's characters does not have the word, and a cut that comes behind an occurrence keeps
it.

Main facts: `hasWord_iff`, `hasWord_append_of_not_mem`, `hasWord_cut` and `hasWord_of_hasWord_cut`.
-/

namespace FlowAtlas.Text

theorem occursIn_iff {word text : List Char} : occursIn word text = true ↔ word <:+: text := by
  induction text with
  | nil => rw [occursIn, List.isEmpty_iff, List.infix_nil]
  | cons c rest ih =>
    rw [occursIn, Bool.or_eq_true, List.isPrefixOf_iff_prefix, ih, List.infix_cons_iff]

/-- **A text has a word exactly if the word is a block of it.** -/
theorem hasWord_iff {text word : String} :
    hasWord text word = true ↔ word.toList <:+: text.toList := occursIn_iff

theorem hasWord_append (front word back : String) :
    hasWord (front ++ word ++ back) word = true := by
  rw [hasWord_iff, String.toList_append, String.toList_append]
  exact ⟨front.toList, back.toList, rfl⟩

theorem hasWord_eq_false {text word : String} {c : Char} (hc : c ∈ word.toList)
    (h : c ∉ text.toList) : hasWord text word = false := by
  rw [Bool.eq_false_iff, ne_eq, hasWord_iff]
  intro hblock
  exact h (hblock.subset hc)

/-- A word does not reach over a character that it does not have. -/
theorem infix_append_cons_iff {word : List Char} {c : Char} (hc : c ∉ word)
    (front back : List Char) :
    word <:+: front ++ c :: back ↔ word <:+: front ∨ word <:+: back := by
  have hreach : ∀ front : List Char, word <+: front ++ c :: back → word <+: front := by
    intro front hword
    rcases List.prefix_or_prefix_of_prefix hword (List.prefix_append front _) with h | h
    · exact h
    · obtain ⟨rest, rfl⟩ := h
      rw [List.prefix_append_right_inj] at hword
      cases rest with
      | nil => rw [List.append_nil]
      | cons d rest =>
        obtain ⟨rfl, -⟩ := List.cons_prefix_cons.mp hword
        exact absurd (List.mem_append_right front List.mem_cons_self) hc
  induction front with
  | nil =>
    have hstart : word <+: c :: back → word <:+: back := fun hword =>
      List.prefix_nil.mp (hreach [] hword) ▸ List.nil_infix
    rw [List.nil_append, List.infix_cons_iff, List.infix_nil]
    exact ⟨fun h => Or.inr (h.elim hstart id),
      fun h => h.elim (fun hnil => hnil ▸ Or.inl List.nil_prefix) Or.inr⟩
  | cons d front ih =>
    have hstart : word <+: d :: (front ++ c :: back) ↔ word <+: d :: front :=
      ⟨hreach (d :: front), fun h => h.trans (List.prefix_append (d :: front) _)⟩
    rw [List.cons_append, List.infix_cons_iff, List.infix_cons_iff, hstart, or_assoc]
    exact or_congr_right ih

/-- A text behind another adds no word that begins in it. -/
theorem hasWord_append_of_not_mem {back word : String} {c : Char}
    (hhead : back.toList.head? = some c) (hc : c ∉ word.toList) {d : Char}
    (hd : d ∈ word.toList) (hback : d ∉ back.toList) (stem : String) :
    hasWord (stem ++ back) word = hasWord stem word := by
  obtain ⟨rest, hrest⟩ := List.head?_eq_some_iff.mp hhead
  have hnone : ¬ word.toList <:+: rest := by
    intro hblock
    apply hback
    rw [hrest]
    exact List.mem_cons_of_mem c (hblock.subset hd)
  rw [Bool.eq_iff_iff, hasWord_iff, hasWord_iff, String.toList_append, hrest,
    infix_append_cons_iff hc, or_iff_left hnone]

/-- A word is kept by a cut that comes behind it. -/
theorem hasWord_cut {front word : String} (back : String) {n : Int}
    (h : (front.length + word.length : Nat) ≤ n) :
    hasWord (cut n (front ++ word ++ back)) word = true := by
  obtain ⟨k, rfl⟩ : ∃ k : Nat, n = k := ⟨n.toNat, by omega⟩
  have hlength : (front.toList ++ word.toList).length ≤ k := by
    rw [List.length_append, String.length_toList, String.length_toList]
    omega
  have hcut : cut k (front ++ word ++ back) = front ++ word ++
      String.ofList (back.toList.take (k - (front.toList ++ word.toList).length)) := by
    show String.ofList ((front ++ word ++ back).toList.take k) = _
    rw [← String.toList_inj, String.toList_ofList, String.toList_append, String.toList_append,
      List.take_append, List.take_of_length_le hlength]
    simp
  rw [hcut]
  exact hasWord_append front word _

theorem toList_cut_isPrefix (n : Int) (text : String) :
    (cut n text).toList <+: text.toList := by
  unfold cut
  split
  · rw [String.toList_ofList]
    exact List.take_prefix _ _
  · rw [String.toList_ofList]
    exact List.take_prefix _ _

/-- A cut makes no words. -/
theorem hasWord_of_hasWord_cut {n : Int} {text word : String}
    (h : hasWord (cut n text) word = true) : hasWord text word = true := by
  rw [hasWord_iff] at h ⊢
  exact h.trans (toList_cut_isPrefix n text).isInfix

end FlowAtlas.Text
