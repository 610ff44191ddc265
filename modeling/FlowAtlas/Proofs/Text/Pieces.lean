import FlowAtlas.Text.Search

/-!
# Pieces between separators

A text without separators is one piece.  Where two texts meet, the last piece of the one and the
first piece of the other become one piece.
-/

namespace FlowAtlas.Text

variable {separator : Char}

theorem splitAtEach_append_cons {piece : List Char} (h : separator ∉ piece) (rest : List Char) :
    splitAtEach separator (piece ++ separator :: rest) = piece :: splitAtEach separator rest := by
  induction piece with
  | nil => simp [splitAtEach]
  | cons c piece ih =>
    rw [List.mem_cons, not_or] at h
    rw [List.cons_append, splitAtEach, if_neg (Ne.symm h.1), ih h.2]

theorem splitAtEach_of_not_mem {text : List Char} (h : separator ∉ text) :
    splitAtEach separator text = [text] := by
  induction text with
  | nil => rfl
  | cons c text ih =>
    rw [List.mem_cons, not_or] at h
    rw [splitAtEach, if_neg (Ne.symm h.1), ih h.2]

/-- A text falls in two at a separator in one way only, if the first part has none. -/
theorem append_cons_inj_first {piece piece' rest rest' : List Char} (h : separator ∉ piece)
    (h' : separator ∉ piece') (heq : piece ++ separator :: rest = piece' ++ separator :: rest') :
    piece = piece' ∧ rest = rest' := by
  have hpieces := congrArg (splitAtEach separator) heq
  rw [splitAtEach_append_cons h, splitAtEach_append_cons h'] at hpieces
  obtain ⟨rfl, -⟩ := List.cons.inj hpieces
  exact ⟨rfl, (List.cons.inj (List.append_cancel_left heq)).2⟩

/-- The same from the end: the second part has none. -/
theorem append_cons_inj_last {front front' piece piece' : List Char} (h : separator ∉ piece)
    (h' : separator ∉ piece') (heq : front ++ separator :: piece = front' ++ separator :: piece') :
    front = front' ∧ piece = piece' := by
  have hreverse : piece.reverse ++ separator :: front.reverse =
      piece'.reverse ++ separator :: front'.reverse := by
    simpa using congrArg List.reverse heq
  obtain ⟨hpiece, hfront⟩ := append_cons_inj_first (mt List.mem_reverse.mp h)
    (mt List.mem_reverse.mp h') hreverse
  exact ⟨List.reverse_inj.mp hfront, List.reverse_inj.mp hpiece⟩

theorem splitAtEach_cons_of_ne {c : Char} (h : c ≠ separator) {text head : List Char}
    {tail : List (List Char)} (hs : splitAtEach separator text = head :: tail) :
    splitAtEach separator (c :: text) = (c :: head) :: tail := by
  rw [splitAtEach, if_neg h, hs]

theorem not_mem_of_mem_splitAtEach {text piece : List Char}
    (h : piece ∈ splitAtEach separator text) : separator ∉ piece := by
  induction text generalizing piece with
  | nil =>
    rw [splitAtEach, List.mem_singleton] at h
    simp [h]
  | cons c text ih =>
    by_cases hc : c = separator
    · rw [splitAtEach, if_pos hc] at h
      rcases List.mem_cons.mp h with rfl | h
      · simp
      · exact ih h
    · obtain ⟨head, tail, hs⟩ := List.exists_cons_of_ne_nil (splitAtEach_ne_nil separator text)
      rw [splitAtEach_cons_of_ne hc hs] at h
      rw [hs] at ih
      rcases List.mem_cons.mp h with rfl | h
      · rw [List.mem_cons, not_or]
        exact ⟨Ne.symm hc, ih (List.mem_cons_self ..)⟩
      · exact ih (List.mem_cons_of_mem _ h)

theorem mem_of_mem_splitAtEach {c : Char} {text piece : List Char}
    (h : piece ∈ splitAtEach separator text) (hc : c ∈ piece) : c ∈ text := by
  induction text generalizing piece with
  | nil =>
    rw [splitAtEach, List.mem_singleton] at h
    rwa [h] at hc
  | cons d text ih =>
    by_cases hd : d = separator
    · rw [splitAtEach, if_pos hd] at h
      rcases List.mem_cons.mp h with rfl | h
      · cases hc
      · exact List.mem_cons_of_mem d (ih h hc)
    · obtain ⟨head, tail, hs⟩ := List.exists_cons_of_ne_nil (splitAtEach_ne_nil separator text)
      rw [splitAtEach_cons_of_ne hd hs] at h
      rw [hs] at ih
      rcases List.mem_cons.mp h with rfl | h
      · rcases List.mem_cons.mp hc with rfl | hc
        · exact List.mem_cons_self ..
        · exact List.mem_cons_of_mem d (ih (List.mem_cons_self ..) hc)
      · exact List.mem_cons_of_mem d (ih (List.mem_cons_of_mem _ h) hc)

/-- A text in front without separators only makes the first piece longer. -/
theorem splitAtEach_append_of_not_mem {front : List Char} (h : separator ∉ front)
    {text head : List Char} {tail : List (List Char)}
    (hs : splitAtEach separator text = head :: tail) :
    splitAtEach separator (front ++ text) = (front ++ head) :: tail := by
  induction front with
  | nil => exact hs
  | cons c front ih =>
    rw [List.mem_cons, not_or] at h
    exact splitAtEach_cons_of_ne (Ne.symm h.1) (ih h.2)

/-- Where two texts meet, two of their pieces become one. -/
theorem splitAtEach_append (separator : Char) (text : List Char) :
    ∃ front last, ∀ {rest head tail}, splitAtEach separator rest = head :: tail →
      splitAtEach separator (text ++ rest) = front ++ (last ++ head) :: tail := by
  induction text with
  | nil => exact ⟨[], [], fun h => h⟩
  | cons c text ih =>
    obtain ⟨front, last, ih⟩ := ih
    by_cases hc : c = separator
    · refine ⟨[] :: front, last, fun {rest head tail} h => ?_⟩
      rw [List.cons_append, splitAtEach, if_pos hc, ih h]
      rfl
    · cases front with
      | nil =>
        refine ⟨[], c :: last, fun {rest head tail} h => ?_⟩
        exact splitAtEach_cons_of_ne hc (ih h)
      | cons piece front =>
        refine ⟨(c :: piece) :: front, last, fun {rest head tail} h => ?_⟩
        exact splitAtEach_cons_of_ne hc (ih h)

/-- A text with a separator has several pieces, and one without, put behind it, only makes the last
of them longer. -/
theorem splitAtEach_append_last {text suffix : List Char} (h : separator ∈ text)
    (hs : separator ∉ suffix) :
    ∃ head tail last,
      splitAtEach separator (text ++ suffix) = head :: (tail ++ [last ++ suffix]) := by
  -- the last separator is the first one of the reversed text
  obtain ⟨back, front, hback, hnot⟩ := List.eq_append_cons_of_mem (List.mem_reverse.mpr h)
  have htext : text = front.reverse ++ separator :: back.reverse := by
    rw [← List.reverse_reverse text, hback]
    simp
  have hlast : separator ∉ back.reverse ++ suffix := by
    rw [List.mem_append, List.mem_reverse, not_or]
    exact ⟨hnot, hs⟩
  have hrest : splitAtEach separator (separator :: (back.reverse ++ suffix)) =
      [] :: [back.reverse ++ suffix] := by
    rw [splitAtEach, if_pos rfl, splitAtEach_of_not_mem hlast]
  obtain ⟨pieces, piece, happend⟩ := splitAtEach_append separator front.reverse
  rw [htext, List.append_assoc, List.cons_append, happend hrest]
  cases pieces with
  | nil => exact ⟨piece ++ [], [], back.reverse, rfl⟩
  | cons first pieces => exact ⟨first, pieces ++ [piece ++ []], back.reverse, by simp⟩

end FlowAtlas.Text
