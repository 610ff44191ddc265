import FlowAtlas.Proofs.Dot.Escape
import Mathlib.Algebra.Ring.Parity

/-!
# Backslashes in escaped texts

Whether a character is escaped shows in the run of backslashes in front of it: it is if their number
is odd.  A text is balanced if each of its quotes is escaped and its end is not, so that a quote put
behind it closes it and no other one does.  The escape of one character keeps a text balanced.

Main facts: `Balanced.append_escapeChar` (one character), `balanced_escapeChars` (a whole text),
`unescapeChars_escapeChars` (what was escaped reads back) and `escape_reversible`.
-/

namespace FlowAtlas

namespace Dot

/-! ## Runs of backslashes -/

/-- How many backslashes stand in a row at the end of a text. -/
def backslashesAtEnd (text : List Char) : Nat := (text.reverse.takeWhile (· = '\\')).length

theorem backslashesAtEnd_backslash (text : List Char) :
    backslashesAtEnd (text ++ ['\\']) = backslashesAtEnd text + 1 := by
  simp [backslashesAtEnd]

theorem backslashesAtEnd_of_ne {c : Char} (h : c ≠ '\\') (text : List Char) :
    backslashesAtEnd (text ++ [c]) = 0 := by
  simp [backslashesAtEnd, h]

/-- Each quote of a text is escaped, and a character put behind the text would not be. -/
structure Balanced (text : List Char) : Prop where
  quotes : ∀ before after, text = before ++ '"' :: after → Odd (backslashesAtEnd before)
  ending : Even (backslashesAtEnd text)

theorem balanced_nil : Balanced [] where
  quotes := fun before after h => absurd h.symm (List.append_ne_nil_of_right_ne_nil _ (by simp))
  ending := Even.zero

/-! ## Escaping -/

/-- A character is written as it is, or as a pair behind a backslash. -/
theorem escapeChar_cases (c : Char) :
    (isPlain c = true ∧ escapeChar c = [c]) ∨ ∃ d, escapeChar c = ['\\', d] := by
  by_cases hplain : isPlain c = true
  · exact .inl ⟨hplain, escapeChar_of_isPlain hplain⟩
  · right
    unfold escapeChar
    split_ifs with hbackslash hquote hnewline
    · exact ⟨'\\', rfl⟩
    · exact ⟨'"', rfl⟩
    · exact ⟨'n', rfl⟩
    · exact absurd (by simp [isPlain, hbackslash, hquote, hnewline]) hplain

/-- Behind the escape of a character the end of a text stays unescaped. -/
theorem even_append_escapeChar {text : List Char} (h : Even (backslashesAtEnd text)) (c : Char) :
    Even (backslashesAtEnd (text ++ escapeChar c)) := by
  rcases escapeChar_cases c with ⟨hplain, hescape⟩ | ⟨d, hescape⟩
  · have hne : c ≠ '\\' := by
      rintro rfl
      exact absurd hplain (by decide)
    rw [hescape, backslashesAtEnd_of_ne hne]
    exact Even.zero
  · rw [hescape, List.append_cons]
    by_cases hd : d = '\\'
    · rw [hd, backslashesAtEnd_backslash, backslashesAtEnd_backslash]
      exact h.add_one.add_one
    · rw [backslashesAtEnd_of_ne hd]
      exact Even.zero

/-- A quote in the escape of one character stands behind the backslash of the pair. -/
theorem eq_backslash_of_escapeChar {c : Char} {before after : List Char}
    (h : escapeChar c = before ++ '"' :: after) : before = ['\\'] := by
  rcases escapeChar_cases c with ⟨hplain, hescape⟩ | ⟨d, hescape⟩
  · rw [hescape] at h
    obtain ⟨-, hc⟩ | ⟨-, hnil⟩ := List.singleton_eq_append_iff.mp h
    · rw [← List.head_eq_of_cons_eq hc] at hplain
      exact absurd hplain (by decide)
    · cases hnil
  · rw [hescape] at h
    match before, h with
    | [], h => exact absurd (List.head_eq_of_cons_eq h) (by decide)
    | [first], h => rw [List.head_eq_of_cons_eq h]
    | first :: second :: rest, h => simp at h

/-- **The escape of a character keeps a text balanced.** -/
theorem Balanced.append_escapeChar {text : List Char} (h : Balanced text) (c : Char) :
    Balanced (text ++ escapeChar c) where
  ending := even_append_escapeChar h.ending c
  quotes := by
    intro before after heq
    rcases List.append_eq_append_iff.mp heq with ⟨part, hbefore, hescape⟩ | ⟨part, htext, hrest⟩
    · -- the quote is one of the character's own escape
      rw [hbefore, eq_backslash_of_escapeChar hescape, backslashesAtEnd_backslash]
      exact h.ending.add_one
    · -- the quote stands in the text in front
      cases part with
      | nil =>
        have hstart : escapeChar c = [] ++ '"' :: after := hrest.symm
        cases eq_backslash_of_escapeChar hstart
      | cons quote part =>
        obtain ⟨rfl, -⟩ := List.cons.inj hrest
        exact h.quotes before part htext

/-- An escaped text is balanced. -/
theorem balanced_escapeChars (text : List Char) : Balanced (escapeChars text) := by
  induction text using List.reverseRecOn with
  | nil => exact balanced_nil
  | append_singleton text c ih =>
    have hone : escapeChars [c] = escapeChar c := by
      rw [escapeChars_eq_flatMap, List.flatMap_singleton]
    rw [escapeChars_append, hone]
    exact ih.append_escapeChar c

/-! ## Unescaping -/

/-- What an escaped text stands for, read from left to right. -/
def unescapeChars : List Char → List Char
  | [] => []
  | '\\' :: c :: rest => unescape c ++ unescapeChars rest
  | c :: rest => c :: unescapeChars rest

/-- A text without its escapes. -/
def unescaped (text : String) : String := String.ofList (unescapeChars text.toList)

theorem unescapeChars_escape (c : Char) (rest : List Char) :
    unescapeChars ('\\' :: c :: rest) = unescape c ++ unescapeChars rest := rfl

theorem unescapeChars_cons {c : Char} (h : c ≠ '\\') (rest : List Char) :
    unescapeChars (c :: rest) = c :: unescapeChars rest := by
  simp [unescapeChars, h]

theorem unescapeChars_escapeChar (c : Char) (rest : List Char) :
    unescapeChars (escapeChar c ++ rest) = c :: unescapeChars rest := by
  unfold escapeChar
  split_ifs with hbackslash hquote hnewline
  · rw [hbackslash]
    exact unescapeChars_escape '\\' rest
  · rw [hquote]
    exact unescapeChars_escape '"' rest
  · rw [hnewline]
    exact unescapeChars_escape 'n' rest
  · exact unescapeChars_cons hbackslash rest

theorem unescapeChars_escapeChars (text : List Char) : unescapeChars (escapeChars text) = text := by
  induction text with
  | nil => rfl
  | cons c text ih => rw [escapeChars_cons, unescapeChars_escapeChar, ih]

theorem unescaped_escape (text : String) : unescaped (escape text) = text := by
  rw [unescaped, escape, String.toList_ofList, unescapeChars_escapeChars, String.ofList_toList]

theorem escape_append (text more : String) :
    escape (text ++ more) = escape text ++ escape more := by
  rw [escape, String.toList_append, escapeChars_append, String.ofList_append]
  rfl

/-- **Escaping is one pass over the characters and can be undone.**  Each of the three replacements
leaves the escapes of the ones before it alone.  The escaped text stays on its line, each quote in
it is behind an odd number of backslashes and its end is behind an even one, so that a text in
quotes ends at the quote put behind it.  Unescaping from left to right gives back the text, no two
texts are escaped to the same one, and texts can be escaped piece by piece. -/
theorem escape_reversible :
    (∀ text, (escape text).toList = text.toList.flatMap escapeChar) ∧
    (∀ text, '\n' ∉ (escape text).toList) ∧
    (∀ text before after, (escape text).toList = before ++ '"' :: after →
      Odd (backslashesAtEnd before)) ∧
    (∀ text, Even (backslashesAtEnd (escape text).toList)) ∧
    (∀ text, unescaped (escape text) = text) ∧
    Function.Injective escape ∧
    ∀ text more, escape (text ++ more) = escape text ++ escape more := by
  have hchars : ∀ text, (escape text).toList = escapeChars text.toList := fun text =>
    String.toList_ofList
  refine ⟨fun text => ?_, fun text => ?_, fun text before after h => ?_, fun text => ?_,
    unescaped_escape, Function.LeftInverse.injective unescaped_escape, escape_append⟩
  · rw [hchars, escapeChars_eq_flatMap]
  · rw [hchars]
    exact newline_not_mem_escapeChars _
  · rw [hchars] at h
    exact (balanced_escapeChars _).quotes before after h
  · rw [hchars]
    exact (balanced_escapeChars _).ending

/-- A backslash in front of a quote, both of them data. -/
theorem backslashQuote_escape_reversible :
    (escape "\\\"").toList = ['\\', '\\', '\\'] ++ '"' :: [] ∧
      Odd (backslashesAtEnd ['\\', '\\', '\\']) :=
  have h : (escape "\\\"").toList = ['\\', '\\', '\\'] ++ '"' :: [] := by decide
  ⟨h, escape_reversible.2.2.1 "\\\"" ['\\', '\\', '\\'] [] h⟩

end Dot

end FlowAtlas
