import Mathlib.Data.List.Basic
import FlowAtlas.Dot
import FlowAtlas.Proofs.Number.Decimals

/-!
# Quoted texts read back

A reader of quoted texts takes characters up to the first quote that no backslash escapes.  Escaping
goes character by character, so the reader undoes it, whatever stands behind the text.

Main facts: `escapeChars_eq_flatMap` (three passes are one), `readQuoted_escapeChars` (the reader
undoes the escapes) and `isPlain_pinned` (a position needs no escapes).
-/

namespace FlowAtlas

namespace Dot

/-! ## One character at a time -/

/-- One character inside double quotes. -/
def escapeChar (c : Char) : List Char :=
  if c = '\\' then ['\\', '\\']
  else if c = '"' then ['\\', '"']
  else if c = '\n' then ['\\', 'n']
  else [c]

/-- Each pass leaves the escapes of the passes before it alone. -/
theorem escapeChars_eq_flatMap (text : List Char) : escapeChars text = text.flatMap escapeChar := by
  unfold escapeChars replaceChar
  rw [List.flatMap_assoc, List.flatMap_assoc]
  refine List.flatMap_congr fun c _ => ?_
  unfold escapeChar
  by_cases hbackslash : c = '\\'
  · subst hbackslash
    rfl
  by_cases hquote : c = '"'
  · subst hquote
    rfl
  · simp [hbackslash, hquote]

theorem escapeChars_cons (c : Char) (text : List Char) :
    escapeChars (c :: text) = escapeChar c ++ escapeChars text := by
  rw [escapeChars_eq_flatMap, escapeChars_eq_flatMap, List.flatMap_cons]

theorem escapeChars_append (text more : List Char) :
    escapeChars (text ++ more) = escapeChars text ++ escapeChars more := by
  simp only [escapeChars_eq_flatMap, List.flatMap_append]

/-- An escaped text stays on its line. -/
theorem newline_not_mem_escapeChars (text : List Char) : '\n' ∉ escapeChars text := by
  rw [escapeChars_eq_flatMap]
  intro h
  obtain ⟨c, -, hc⟩ := List.mem_flatMap.mp h
  unfold escapeChar at hc
  split_ifs at hc with hbackslash hquote hnewline
  · simp at hc
  · simp at hc
  · simp at hc
  · exact hnewline (List.mem_singleton.mp hc).symm

/-! ## The reader -/

/-- What a character behind a backslash stands for. -/
def unescape (c : Char) : List Char :=
  if c = '\\' then ['\\']
  else if c = '"' then ['"']
  else if c = 'n' then ['\n']
  else ['\\', c]

/-- A text up to the first quote that is not escaped, and what stands behind the quote. -/
def readQuoted : List Char → Option (List Char × List Char)
  | [] => none
  | '"' :: rest => some ([], rest)
  | '\\' :: c :: rest => (readQuoted rest).map fun p => (unescape c ++ p.1, p.2)
  | c :: rest => (readQuoted rest).map fun p => (c :: p.1, p.2)

theorem readQuoted_escape (c : Char) (rest : List Char) :
    readQuoted ('\\' :: c :: rest) = (readQuoted rest).map fun p => (unescape c ++ p.1, p.2) := rfl

theorem readQuoted_cons {c : Char} (hquote : c ≠ '"') (hbackslash : c ≠ '\\') (rest : List Char) :
    readQuoted (c :: rest) = (readQuoted rest).map fun p => (c :: p.1, p.2) := by
  simp [readQuoted, hbackslash]

/-- The reader takes the escape of one character as this character. -/
theorem readQuoted_escapeChar (c : Char) (rest : List Char) :
    readQuoted (escapeChar c ++ rest) = (readQuoted rest).map fun p => (c :: p.1, p.2) := by
  unfold escapeChar
  split_ifs with hbackslash hquote hnewline
  · subst hbackslash
    exact readQuoted_escape _ rest
  · subst hquote
    exact readQuoted_escape _ rest
  · subst hnewline
    exact readQuoted_escape _ rest
  · exact readQuoted_cons hquote hbackslash rest

/-- **The reader undoes the escapes**, whatever stands behind the quote. -/
theorem readQuoted_escapeChars (text rest : List Char) :
    readQuoted (escapeChars text ++ '"' :: rest) = some (text, rest) := by
  induction text with
  | nil => rfl
  | cons c text ih =>
    rw [escapeChars_cons, List.append_assoc, readQuoted_escapeChar, ih]
    rfl

/-! ## Texts without escapes -/

/-- Whether a character stands for itself inside double quotes. -/
def isPlain (c : Char) : Bool := c ≠ '\\' && c ≠ '"' && c ≠ '\n'

theorem escapeChar_of_isPlain {c : Char} (h : isPlain c = true) : escapeChar c = [c] := by
  unfold isPlain at h
  simp only [Bool.and_eq_true, decide_eq_true_eq] at h
  obtain ⟨⟨hbackslash, hquote⟩, hnewline⟩ := h
  rw [escapeChar, if_neg hbackslash, if_neg hquote, if_neg hnewline]

theorem escapeChars_of_isPlain {text : List Char} (h : text.all isPlain = true) :
    escapeChars text = text := by
  induction text with
  | nil => rfl
  | cons c text ih =>
    rw [List.all_cons, Bool.and_eq_true] at h
    rw [escapeChars_cons, escapeChar_of_isPlain h.1, ih h.2]
    rfl

theorem isPlain_of_isDigit {c : Char} (h : c.isDigit = true) : isPlain c = true := by
  unfold isPlain
  simp only [Bool.and_eq_true, decide_eq_true_eq]
  refine ⟨⟨?_, ?_⟩, ?_⟩ <;> rintro rfl <;> simp at h

/-- Digits with a point in them are plain. -/
theorem isPlain_pointed (places count : Nat) :
    (Binary64.pointed places count).toList.all isPlain = true := by
  obtain ⟨whole, part, htext, -, hwhole, -, hpart⟩ := Binary64.exists_pointed places count
  have hdigits : ∀ {digits}, Numeral.AreDigits digits → digits.all isPlain = true :=
    fun h => List.all_eq_true.mpr fun c hc => isPlain_of_isDigit (h c hc)
  rw [htext, List.all_append, List.all_cons, hdigits hwhole, hdigits hpart]
  rfl

theorem isPlain_fixed (places : Nat) (x : Binary64) :
    (x.fixed places).toList.all isPlain = true := by
  have hsign : ∀ negative, (Binary64.signText negative).toList.all isPlain = true := by decide
  cases x with
  | finite negative units =>
    rw [Binary64.fixed, String.toList_append, List.all_append, hsign, isPlain_pointed]
    rfl
  | infinite negative =>
    rw [Binary64.fixed, String.toList_append, List.all_append, hsign]
    rfl
  | nan =>
    rw [Binary64.fixed]
    rfl

/-- The text of a position holds nothing that would be escaped. -/
theorem isPlain_pinned (position : Position) (scale : Binary64) :
    (pinned position scale).toList.all isPlain = true := by
  unfold pinned
  simp only [String.toList_append, List.all_append, isPlain_fixed, Bool.true_and]
  decide

end Dot

end FlowAtlas
