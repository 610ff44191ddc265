/-!
# Texts in code point order

Texts are compared character by character by code point.  `insertText` keeps a strictly increasing
list strictly increasing, so such a list is a set of texts; `sortByText` orders anything that has a
text.
-/

namespace FlowAtlas

/-- Put a text into an increasing list unless it is there. -/
def insertText (text : String) : List String → List String
  | [] => [text]
  | t :: rest =>
    if text = t then t :: rest
    else if text < t then text :: t :: rest
    else t :: insertText text rest

/-- Order by a text, keeping the order of equal texts. -/
def sortByText {α : Type} (text : α → String) (items : List α) : List α :=
  items.mergeSort fun a b => text a ≤ text b

/-- Order texts. -/
def sortTexts (texts : List String) : List String := sortByText id texts

theorem mem_insertText {text t : String} {texts : List String} :
    t ∈ insertText text texts ↔ t = text ∨ t ∈ texts := by
  induction texts with
  | nil => simp [insertText]
  | cons u rest ih =>
    simp only [insertText]
    split
    · rename_i h
      subst h
      simp
    · split
      · simp
      · simp only [List.mem_cons, ih]
        constructor
        · rintro (h | h | h)
          · exact .inr (.inl h)
          · exact .inl h
          · exact .inr (.inr h)
        · rintro (h | h | h)
          · exact .inr (.inl h)
          · exact .inl h
          · exact .inr (.inr h)

/-- Putting a text into an increasing list keeps it increasing, so that no text occurs twice. -/
theorem pairwise_insertText {text : String} {texts : List String}
    (h : texts.Pairwise (· < ·)) : (insertText text texts).Pairwise (· < ·) := by
  induction texts with
  | nil => simp [insertText]
  | cons u rest ih =>
    rw [List.pairwise_cons] at h
    rw [insertText]
    split
    · exact List.pairwise_cons.2 h
    · rename_i hne
      split
      · rename_i hlt
        refine List.pairwise_cons.2 ⟨fun t ht => ?_, List.pairwise_cons.2 h⟩
        rcases List.mem_cons.1 ht with rfl | ht
        · exact hlt
        · exact String.lt_trans hlt (h.1 t ht)
      · rename_i hlt
        have hgt : u < text := Std.lt_of_le_of_ne (String.not_lt.1 hlt) (Ne.symm hne)
        refine List.pairwise_cons.2 ⟨fun t ht => ?_, ih h.2⟩
        rcases mem_insertText.1 ht with rfl | ht
        · exact hgt
        · exact h.1 t ht

theorem perm_sortByText {α : Type} (text : α → String) (items : List α) :
    (sortByText text items).Perm items := List.mergeSort_perm _ _

theorem pairwise_sortByText {α : Type} (text : α → String) (items : List α) :
    (sortByText text items).Pairwise fun a b => text a ≤ text b := by
  unfold sortByText
  refine (List.pairwise_mergeSort ?_ ?_ _).imp of_decide_eq_true
  · intro a b c hab hbc
    simp only [decide_eq_true_eq] at hab hbc ⊢
    exact String.le_trans hab hbc
  · intro a b
    simp only [Bool.or_eq_true, decide_eq_true_eq]
    exact String.le_total (text a) (text b)

end FlowAtlas
