/-!
# White space

Two sets of blank characters.  `isSpace` is the Unicode property White_Space (25 characters), which
may stand around a number.  `isMargin` has the four information separators 1C to 1F besides
(29 characters) and is what is stripped from the ends of a message.
-/

namespace FlowAtlas.Text

/-- White_Space: 09 to 0D, 20, 85, A0, 1680, 2000 to 200A, 2028, 2029, 202F, 205F, 3000. -/
def isSpace (c : Char) : Bool :=
  let n := c.toNat
  (9 ≤ n && n ≤ 0xd) || n = 0x20 || n = 0x85 || n = 0xa0 || n = 0x1680 ||
    (0x2000 ≤ n && n ≤ 0x200a) || n = 0x2028 || n = 0x2029 || n = 0x202f || n = 0x205f ||
    n = 0x3000

/-- White_Space and the information separators 1C to 1F. -/
def isMargin (c : Char) : Bool := isSpace c || (0x1c ≤ c.toNat && c.toNat ≤ 0x1f)

/-- The ASCII white space of C: 09 to 0D and 20. -/
def isAsciiSpace (c : Char) : Bool := (9 ≤ c.toNat && c.toNat ≤ 0xd) || c.toNat = 0x20

/-- Cut the characters of a class off the end of a text. -/
def dropEnd (p : Char → Bool) (text : List Char) : List Char := (text.reverse.dropWhile p).reverse

/-- Cut the characters of a class off both ends of a text. -/
def trim (p : Char → Bool) (text : List Char) : List Char := dropEnd p (text.dropWhile p)

/-- A text without the blanks at its ends. -/
def stripped (text : String) : String := String.ofList (trim isMargin text.toList)

theorem isSpace_of_isAsciiSpace {c : Char} (h : isAsciiSpace c = true) : isSpace c = true := by
  simp only [isAsciiSpace, isSpace, Bool.or_eq_true, Bool.and_eq_true, decide_eq_true_eq] at h ⊢
  rcases h with h | h
  · simp [h]
  · simp [h]

/-! ## Cutting -/

section Cutting

variable {p : Char → Bool} {text : List Char}

theorem dropEnd_append {ending : List Char} (hending : ∀ c ∈ ending, p c = true)
    {last : Char} (htext : text.getLast? = some last) (hlast : p last = false) :
    dropEnd p (text ++ ending) = text := by
  obtain ⟨front, rfl⟩ := List.getLast?_eq_some_iff.mp htext
  have hdrop : ∀ c ∈ ending.reverse, p c = true := fun c hc => hending c (List.mem_reverse.mp hc)
  unfold dropEnd
  rw [List.reverse_append, List.dropWhile_append_of_pos hdrop, List.reverse_append]
  simp [hlast]

theorem trim_append {before after : List Char} (hbefore : ∀ c ∈ before, p c = true)
    (hafter : ∀ c ∈ after, p c = true) {first last : Char} (hhead : text.head? = some first)
    (hfirst : p first = false) (htext : text.getLast? = some last) (hlast : p last = false) :
    trim p (before ++ text ++ after) = text := by
  obtain ⟨rest, rfl⟩ := List.head?_eq_some_iff.mp hhead
  have hdrop : (before ++ (first :: rest) ++ after).dropWhile p = first :: rest ++ after := by
    rw [List.append_assoc, List.dropWhile_append_of_pos hbefore, List.cons_append,
      List.dropWhile_cons_of_neg (by simp [hfirst])]
  unfold trim
  rw [hdrop, dropEnd_append hafter htext hlast]

/-- A run of a class ends at the first character that is not in it, or with the text. -/
theorem span_append {run rest : List Char} (hrun : ∀ c ∈ run, p c = true)
    (hrest : ∀ c ∈ rest.head?, p c = false) :
    (run ++ rest).takeWhile p = run ∧ (run ++ rest).dropWhile p = rest := by
  rw [List.takeWhile_append_of_pos hrun, List.dropWhile_append_of_pos hrun]
  cases rest with
  | nil => exact ⟨List.append_nil run, rfl⟩
  | cons c rest =>
    have hc : ¬ p c = true := by simp [hrest c rfl]
    rw [List.takeWhile_cons_of_neg hc, List.dropWhile_cons_of_neg hc, List.append_nil]
    exact ⟨rfl, rfl⟩

/-- What is cut off stood around the rest. -/
theorem exists_append_trim (p : Char → Bool) (text : List Char) :
    ∃ before after, text = before ++ trim p text ++ after ∧ (∀ c ∈ before, p c = true) ∧
      ∀ c ∈ after, p c = true := by
  have hmem : ∀ (part : List Char) (c : Char), c ∈ part.takeWhile p → p c = true :=
    fun part => List.all_eq_true.mp List.all_takeWhile
  refine ⟨text.takeWhile p, ((text.dropWhile p).reverse.takeWhile p).reverse, ?_, hmem text,
    fun c hc => hmem _ c (List.mem_reverse.mp hc)⟩
  unfold trim dropEnd
  rw [List.append_assoc, ← List.reverse_append, List.takeWhile_append_dropWhile,
    List.reverse_reverse, List.takeWhile_append_dropWhile]

end Cutting

end FlowAtlas.Text
