import FlowAtlas.Proofs.Text.Occurrence
import FlowAtlas.Tables.Load

/-!
# Lines of bytes

A file is decoded before it is split into lines.  That comes to the same as splitting its bytes: a
byte below 80 stands for itself whatever is pending before it, and no other sequence of bytes,
however ill-formed, is read as such a character.

Main facts: `IsLines.lines_eq` (a text has its lines in one way only), `Utf8.decode_append_cons`
(a byte below 80 parts what is decoded), `isLines_decode` and `lines_of_bytes`.
-/

namespace FlowAtlas

namespace Text

/-! ## Lines and their ends -/

section Splitting

variable {α : Type} (cr lf : α)

/-- What ends a line in front of the given rest: a newline, a carriage return without a newline
behind it, or the two. -/
inductive Ends : List α → List α → Prop
  | newline (rest : List α) : Ends [lf] rest
  | carriage {rest : List α} (hrest : rest.head? ≠ some lf) : Ends [cr] rest
  | both (rest : List α) : Ends [cr, lf] rest

/-- A text without the characters that end a line. -/
def IsUnended (line : List α) : Prop := cr ∉ line ∧ lf ∉ line

/-- A text has the given lines: each but the last is ended, and the last is if it is empty. -/
inductive IsLines : List α → List (List α) → Prop
  | nil : IsLines [] []
  | last {line : List α} (hne : line ≠ []) (hline : IsUnended cr lf line) : IsLines line [line]
  | cons {line ending rest : List α} {lines : List (List α)} (hline : IsUnended cr lf line)
      (hending : Ends cr lf ending rest) (hrest : IsLines rest lines) :
      IsLines (line ++ (ending ++ rest)) (line :: lines)

/-- Put a character in front of the first line. -/
def consLine (c : α) : List (List α) → List (List α)
  | [] => [[c]]
  | line :: lines => (c :: line) :: lines

variable [DecidableEq α]

/-- The lines of a text, of which a newline at the start ends none if a carriage return has just
done so. -/
def linesFrom (late : Bool) : List α → List (List α)
  | [] => []
  | c :: rest =>
    if c = lf then if late then linesFrom false rest else [] :: linesFrom false rest
    else if c = cr then [] :: linesFrom true rest
    else consLine c (linesFrom false rest)

/-- The lines of a text that is split at two characters and at the one with the other behind it. -/
def linesBy (text : List α) : List (List α) := linesFrom cr lf false text

end Splitting

section Splitting

variable {α : Type} {cr lf : α}

theorem IsLines.isUnended {text : List α} {lines : List (List α)} (h : IsLines cr lf text lines) :
    ∀ line ∈ lines, IsUnended cr lf line := by
  induction h with
  | nil => exact List.forall_mem_nil _
  | last _ hline => exact List.forall_mem_singleton.mpr hline
  | cons hline _ _ ih => exact List.forall_mem_cons.mpr ⟨hline, ih⟩

theorem Ends.exists_cons {ending rest : List α} (h : Ends cr lf ending rest) :
    ∃ c more, ending = c :: more ∧ (c = cr ∨ c = lf) := by
  cases h with
  | newline => exact ⟨lf, [], rfl, Or.inr rfl⟩
  | carriage => exact ⟨cr, [], rfl, Or.inl rfl⟩
  | both => exact ⟨cr, [lf], rfl, Or.inl rfl⟩

theorem IsUnended.cons {c : α} (hcr : c ≠ cr) (hlf : c ≠ lf) {line : List α}
    (h : IsUnended cr lf line) : IsUnended cr lf (c :: line) := by
  unfold IsUnended
  rw [List.mem_cons, List.mem_cons, not_or, not_or]
  exact ⟨⟨hcr.symm, h.1⟩, hlf.symm, h.2⟩

theorem isUnended_nil : IsUnended cr lf [] := ⟨List.not_mem_nil, List.not_mem_nil⟩

theorem IsLines.consLine {c : α} (hcr : c ≠ cr) (hlf : c ≠ lf) {text : List α}
    {lines : List (List α)} (h : IsLines cr lf text lines) :
    IsLines cr lf (c :: text) (Text.consLine c lines) := by
  cases h with
  | nil => exact .last (List.cons_ne_nil c []) (isUnended_nil.cons hcr hlf)
  | last _ hline => exact .last (List.cons_ne_nil c _) (hline.cons hcr hlf)
  | cons hline hending hrest => exact .cons (hline.cons hcr hlf) hending hrest

variable [DecidableEq α]

/-- Behind a carriage return a newline still belongs to the end of the line. -/
theorem isLines_linesFrom (text : List α) :
    IsLines cr lf text (linesFrom cr lf false text) ∧
      IsLines cr lf (cr :: text) ([] :: linesFrom cr lf true text) := by
  induction text with
  | nil => exact ⟨.nil, .cons isUnended_nil (.carriage (by simp)) .nil⟩
  | cons c rest ih =>
    obtain ⟨hfresh, hlate⟩ := ih
    by_cases hlf : c = lf
    · rw [linesFrom, linesFrom, if_pos hlf, if_pos hlf, hlf]
      exact ⟨.cons isUnended_nil (.newline rest) hfresh, .cons isUnended_nil (.both rest) hfresh⟩
    · have hreturn : Ends cr lf [cr] (c :: rest) := .carriage (by simpa using hlf)
      have hlines : IsLines cr lf (c :: rest) (linesFrom cr lf false (c :: rest)) := by
        rw [linesFrom, if_neg hlf]
        by_cases hcr : c = cr
        · rw [if_pos hcr, hcr]
          exact hlate
        · rw [if_neg hcr]
          exact hfresh.consLine hcr hlf
      have hsame : linesFrom cr lf true (c :: rest) = linesFrom cr lf false (c :: rest) := by
        rw [linesFrom, linesFrom, if_neg hlf, if_neg hlf]
      rw [hsame]
      exact ⟨hlines, .cons isUnended_nil hreturn hlines⟩

theorem isLines_linesBy (text : List α) : IsLines cr lf text (linesBy cr lf text) :=
  (isLines_linesFrom text).1

end Splitting

/-! ## The lines of a text -/

theorem linesAfter_cons {c : Char} (hcr : c ≠ '\r') (hlf : c ≠ '\n')
    (done : List (List Char)) (line rest : List Char) :
    linesAfter done line (c :: rest) = linesAfter done (c :: line) rest := by
  rw [linesAfter.eq_3 _ _ _ _ fun _ h _ => hcr h, if_neg (by simp [hcr, hlf])]

/-- The end of a line. -/
theorem linesAfter_ends {ending rest : List Char} (h : Ends '\r' '\n' ending rest)
    (done : List (List Char)) (line : List Char) :
    linesAfter done line (ending ++ rest) = linesAfter (line.reverse :: done) [] rest := by
  cases h with
  | newline =>
    have hfirst : ('\n' : Char) ≠ '\r' := by decide
    exact (linesAfter.eq_3 _ _ _ _ fun _ h _ => hfirst h).trans (if_pos rfl)
  | carriage hrest =>
    refine (linesAfter.eq_3 _ _ _ _ fun more _ hmore => ?_).trans (if_pos rfl)
    have hhead : rest = '\n' :: more := hmore
    rw [hhead] at hrest
    exact hrest rfl
  | both => rfl

/-- A part of a line is kept for its end. -/
theorem linesAfter_append {part : List Char} (h : IsUnended '\r' '\n' part)
    (done : List (List Char)) (line text : List Char) :
    linesAfter done line (part ++ text) = linesAfter done (part.reverse ++ line) text := by
  induction part generalizing line with
  | nil => rfl
  | cons c part ih =>
    obtain ⟨hcr, hlf⟩ := h
    rw [List.mem_cons, not_or] at hcr hlf
    rw [List.cons_append, linesAfter_cons (Ne.symm hcr.1) (Ne.symm hlf.1), ih ⟨hcr.2, hlf.2⟩,
      List.reverse_cons, List.append_assoc]
    rfl

/-- What is done stands before the lines that follow. -/
theorem IsLines.linesAfter_eq {text : List Char} {found : List (List Char)}
    (h : IsLines '\r' '\n' text found) (done : List (List Char)) :
    linesAfter done [] text = done.reverse ++ found := by
  induction h generalizing done with
  | nil => simp [linesAfter]
  | @last line hne hline =>
    have happend := linesAfter_append hline done [] []
    rw [List.append_nil, List.append_nil] at happend
    rw [happend, linesAfter]
    simp [hne]
  | cons hline hending hrest ih =>
    rw [linesAfter_append hline, linesAfter_ends hending, ih, List.append_nil,
      List.reverse_reverse, List.reverse_cons, List.append_assoc]
    rfl

/-- **A text has its lines in one way only.** -/
theorem IsLines.lines_eq {text : List Char} {found : List (List Char)}
    (h : IsLines '\r' '\n' text found) : lines text = found := h.linesAfter_eq []

theorem isLines_iff {text : List Char} {found : List (List Char)} :
    IsLines '\r' '\n' text found ↔ found = lines text := by
  have hlines : IsLines '\r' '\n' text (linesBy '\r' '\n' text) := isLines_linesBy text
  constructor
  · intro h
    exact h.lines_eq.symm
  · rintro rfl
    rw [hlines.lines_eq]
    exact hlines

/-! ## Bytes below 80 -/

namespace Utf8

/-- What the reader keeps of an unfinished sequence: the next byte is none below 80, and whatever
bytes follow, the sequence stands for no character below 80: its value is at least two before the
last byte, which puts six bits behind it. -/
def Pending.Sound : Pending → Prop
  | .start => True
  | .part value missing low _ =>
    0x80 ≤ low ∧ (2 ≤ value ∨ 0 < missing ∧ 2 ≤ value * 0x40 + (low - 0x80))

theorem sound_lead (byte : Nat) : (lead byte).2.Sound := by
  unfold lead
  split_ifs <;> simp only [Pending.Sound] <;> omega

theorem Pending.Sound.step {s : Pending} (h : s.Sound) (byte : Nat) :
    (Utf8.step s byte).2.Sound := by
  cases s with
  | start => exact sound_lead byte
  | part value missing low high =>
    obtain ⟨hlow, hvalue⟩ := h
    unfold Utf8.step
    dsimp only
    split
    · rename_i hbyte
      cases missing with
      | zero => trivial
      | succ missing =>
        rw [Bool.and_eq_true, decide_eq_true_eq] at hbyte
        exact ⟨Nat.le_refl _, Or.inl (by omega)⟩
    · exact sound_lead byte

theorem lead_of_lt {byte : Nat} (h : byte < 0x80) : lead byte = ([Char.ofNat byte], .start) :=
  if_pos h

/-- **A byte below 80 ends what is pending and stands for itself.** -/
theorem Pending.Sound.step_of_lt {s : Pending} (h : s.Sound) {byte : Nat} (hbyte : byte < 0x80) :
    Utf8.step s byte = (finish s ++ [Char.ofNat byte], .start) := by
  cases s with
  | start => exact lead_of_lt hbyte
  | part value missing low high =>
    have hbelow : ¬ (decide (low ≤ byte) && decide (byte ≤ high)) = true := by
      have hlow := h.1
      simp only [Bool.and_eq_true, decide_eq_true_eq]
      omega
    unfold Utf8.step
    dsimp only
    rw [if_neg hbelow, lead_of_lt hbyte]
    rfl

theorem toNat_replacement : replacement.toNat = 0xfffd := by decide

/-- A number that is none of a character gives the first one. -/
theorem toNat_ofNat_of_ne {n : Nat} (h : (Char.ofNat n).toNat ≠ 0) : (Char.ofNat n).toNat = n := by
  unfold Char.ofNat at h ⊢
  by_cases hvalid : n.isValidChar
  · rw [dif_pos hvalid]
    rfl
  · rw [dif_neg hvalid] at h
    exact absurd rfl h

section Mem

variable {byte : Nat} {c : Char} (hc : c.toNat < 0x80) (hne : c.toNat ≠ 0)
include hc hne

theorem toNat_eq_of_mem_lead (h : c ∈ (lead byte).1) : byte = c.toNat := by
  by_cases hbyte : byte < 0x80
  · rw [lead_of_lt hbyte, List.mem_singleton] at h
    rw [h] at hne ⊢
    exact (toNat_ofNat_of_ne hne).symm
  · have hmark : (lead byte).1 = [] ∨ (lead byte).1 = [replacement] := by
      unfold lead
      rw [if_neg hbyte]
      split_ifs <;> simp
    rcases hmark with hnil | hmark
    · rw [hnil] at h
      cases h
    · rw [hmark, List.mem_singleton] at h
      rw [h, toNat_replacement] at hc
      omega

/-- No sequence of bytes from 80 on stands for a character below 80. -/
theorem Pending.Sound.toNat_eq_of_mem_step {s : Pending} (h : s.Sound)
    (hmem : c ∈ (Utf8.step s byte).1) : byte = c.toNat := by
  cases s with
  | start => exact toNat_eq_of_mem_lead hc hne hmem
  | part value missing low high =>
    obtain ⟨hlow, hvalue⟩ := h
    unfold Utf8.step at hmem
    dsimp only at hmem
    split at hmem
    · rename_i hbyte
      cases missing with
      | succ missing => cases hmem
      | zero =>
        rw [Bool.and_eq_true, decide_eq_true_eq] at hbyte
        rw [List.mem_singleton.mp hmem] at hc hne
        rw [toNat_ofNat_of_ne hne] at hc
        omega
    · rcases List.mem_cons.mp hmem with hmark | hlead
      · rw [hmark, toNat_replacement] at hc
        omega
      · exact toNat_eq_of_mem_lead hc hne hlead

end Mem

/-! ## Bytes one after the other -/

theorem Pending.Sound.readFrom_append_cons {s : Pending} (h : s.Sound) {byte : UInt8}
    (hbyte : byte.toNat < 0x80) (front back : List UInt8) :
    readFrom s (front ++ byte :: back) =
      readFrom s front ++ Char.ofNat byte.toNat :: readFrom .start back := by
  induction front generalizing s with
  | nil =>
    rw [List.nil_append, readFrom, readFrom, h.step_of_lt hbyte, List.append_assoc]
    rfl
  | cons first front ih =>
    rw [List.cons_append, readFrom, readFrom, ih (h.step first.toNat), List.append_assoc]

/-- **A byte below 80 parts what is decoded**, whatever stands before it. -/
theorem decode_append_cons {byte : UInt8} (hbyte : byte.toNat < 0x80) (front back : List UInt8) :
    decode (front ++ byte :: back) = decode front ++ Char.ofNat byte.toNat :: decode back := by
  have hstart : Pending.start.Sound := trivial
  simp only [decode_eq_readFrom]
  exact hstart.readFrom_append_cons hbyte front back

theorem Pending.Sound.exists_of_mem_readFrom {s : Pending} (h : s.Sound) {bytes : List UInt8}
    {c : Char} (hmem : c ∈ readFrom s bytes) (hc : c.toNat < 0x80) (hne : c.toNat ≠ 0) :
    ∃ byte ∈ bytes, byte.toNat = c.toNat := by
  induction bytes generalizing s with
  | nil =>
    cases s with
    | start => cases hmem
    | part value missing low high =>
      rw [List.mem_singleton.mp hmem, toNat_replacement] at hc
      omega
  | cons byte rest ih =>
    rcases List.mem_append.mp hmem with hfirst | hrest
    · exact ⟨byte, List.mem_cons_self, h.toNat_eq_of_mem_step hc hne hfirst⟩
    · obtain ⟨other, hother, heq⟩ := ih (h.step byte.toNat) hrest
      exact ⟨other, List.mem_cons_of_mem byte hother, heq⟩

/-- **A character below 80 comes from its own byte only.** -/
theorem exists_of_mem_decode {bytes : List UInt8} {c : Char} (hmem : c ∈ decode bytes)
    (hc : c.toNat < 0x80) (hne : c.toNat ≠ 0) : ∃ byte ∈ bytes, byte.toNat = c.toNat := by
  have hstart : Pending.start.Sound := trivial
  rw [decode_eq_readFrom] at hmem
  exact hstart.exists_of_mem_readFrom hmem hc hne

theorem readFrom_part_ne_nil (value missing low high : Nat) (bytes : List UInt8) :
    readFrom (.part value missing low high) bytes ≠ [] := by
  induction bytes generalizing value missing low high with
  | nil => exact List.cons_ne_nil _ _
  | cons byte rest ih =>
    rw [readFrom]
    unfold step
    dsimp only
    split
    · cases missing with
      | zero => exact List.cons_ne_nil _ _
      | succ missing => exact ih _ _ _ _
    · exact List.cons_ne_nil _ _

theorem lead_settles (byte : Nat) : (lead byte).1 = [] → (lead byte).2 ≠ .start := by
  unfold lead
  split_ifs <;> simp

theorem decode_ne_nil {bytes : List UInt8} (h : bytes ≠ []) : decode bytes ≠ [] := by
  obtain ⟨byte, rest, rfl⟩ := List.exists_cons_of_ne_nil h
  have hsettles := lead_settles byte.toNat
  rw [decode_eq_readFrom, readFrom]
  show (lead byte.toNat).1 ++ readFrom (lead byte.toNat).2 rest ≠ []
  rw [ne_eq, List.append_eq_nil_iff, not_and]
  intro hnone
  cases hstate : (lead byte.toNat).2 with
  | start => exact absurd hstate (hsettles hnone)
  | part value missing low high => exact readFrom_part_ne_nil value missing low high rest

end Utf8

/-! ## Lines of bytes -/

open Utf8 (decode decode_append_cons)

theorem isUnended_decode {line : List UInt8} (h : IsUnended 0x0d 0x0a line) :
    IsUnended '\r' '\n' (decode line) := by
  have hnone : ∀ (byte : UInt8) (c : Char), byte.toNat = c.toNat → c.toNat < 0x80 → c.toNat ≠ 0 →
      byte ∉ line → c ∉ decode line := by
    intro byte c hbyte hc hne hline hmem
    obtain ⟨other, hother, heq⟩ := Utf8.exists_of_mem_decode hmem hc hne
    have hsame : other = byte := UInt8.toNat_inj.mp (heq.trans hbyte.symm)
    exact hline (hsame ▸ hother)
  exact ⟨hnone 0x0d '\r' rfl (by decide) (by decide) h.1,
    hnone 0x0a '\n' rfl (by decide) (by decide) h.2⟩

/-- What is decoded begins with a newline only if the bytes do. -/
theorem head?_decode_ne {bytes : List UInt8} {pieces : List (List UInt8)}
    (h : IsLines 0x0d 0x0a bytes pieces) (hbytes : bytes.head? ≠ some 0x0a) :
    (decode bytes).head? ≠ some '\n' := by
  intro hhead
  cases h with
  | nil => cases hhead
  | last _ hline => exact (isUnended_decode hline).2 (List.mem_of_head? hhead)
  | @cons line ending rest pieces hline hending hrest =>
    obtain ⟨byte, more, rfl, hbyte⟩ := hending.exists_cons
    have hascii : byte.toNat < 0x80 := by rcases hbyte with rfl | rfl <;> decide
    rw [List.cons_append] at hbytes hhead
    rw [decode_append_cons hascii] at hhead
    cases line with
    | nil =>
      have hreturn : byte = 0x0d := hbyte.resolve_right fun h => hbytes (congrArg some h)
      rw [hreturn] at hhead
      exact absurd hhead (by decide : some '\r' ≠ some '\n')
    | cons first line =>
      obtain ⟨c, chars, hchars⟩ :=
        List.exists_cons_of_ne_nil (Utf8.decode_ne_nil (List.cons_ne_nil first line))
      rw [hchars, List.cons_append, List.head?_cons] at hhead
      apply (isUnended_decode hline).2
      rw [hchars, ← Option.some.inj hhead]
      exact List.mem_cons_self

/-- The end of a line is decoded to the end of a line. -/
theorem exists_ends_decode {ending rest : List UInt8} (h : Ends 0x0d 0x0a ending rest)
    (hrest : rest.head? ≠ some 0x0a → (decode rest).head? ≠ some '\n') (line : List UInt8) :
    ∃ ending', decode (line ++ (ending ++ rest)) = decode line ++ (ending' ++ decode rest) ∧
      Ends '\r' '\n' ending' (decode rest) := by
  cases h with
  | newline => exact ⟨['\n'], decode_append_cons (by decide) line rest, .newline _⟩
  | carriage hhead =>
    exact ⟨['\r'], decode_append_cons (by decide) line rest, .carriage (hrest hhead)⟩
  | both =>
    have hnewline : decode (0x0a :: rest) = '\n' :: decode rest :=
      decode_append_cons (by decide) [] rest
    refine ⟨['\r', '\n'], (decode_append_cons (by decide) line (0x0a :: rest)).trans ?_, .both _⟩
    rw [hnewline]
    rfl

/-- **Decoding keeps lines**: the lines of what is decoded are the decoded lines. -/
theorem isLines_decode {bytes : List UInt8} {pieces : List (List UInt8)}
    (h : IsLines 0x0d 0x0a bytes pieces) :
    IsLines '\r' '\n' (decode bytes) (pieces.map decode) := by
  induction h with
  | nil => exact .nil
  | last hne hline => exact .last (Utf8.decode_ne_nil hne) (isUnended_decode hline)
  | @cons line ending rest pieces hline hending hrest ih =>
    obtain ⟨ending', hdecode, hending'⟩ := exists_ends_decode hending (head?_decode_ne hrest) line
    rw [hdecode, List.map_cons]
    exact .cons (isUnended_decode hline) hending' ih

/-! ## Other ends for the lines -/

section Respelled

variable {α : Type} (cr lf : α)

/-- Every newline of a text is replaced by a carriage return, or gets one before it. -/
inductive Respells : List α → List α → Prop
  | nil : Respells [] []
  | keep {c : α} {text text' : List α} (hc : c ≠ lf) (h : Respells text text') :
      Respells (c :: text) (c :: text')
  | alone {text text' : List α} (h : Respells text text') : Respells (lf :: text) (cr :: text')
  | both {text text' : List α} (h : Respells text text') :
      Respells (lf :: text) (cr :: lf :: text')

variable {cr lf}

theorem Respells.head?_ne (hends : cr ≠ lf) {text text' : List α} (h : Respells cr lf text text') :
    text'.head? ≠ some lf := by
  cases h with
  | nil => simp
  | keep hc => simpa using hc
  | alone => simpa using hends
  | both => simpa using hends

theorem Respells.eq_of_not_mem {line text' : List α} (h : Respells cr lf line text')
    (hline : lf ∉ line) : text' = line := by
  induction h with
  | nil => rfl
  | keep hc _ ih => rw [ih fun hmem => hline (List.mem_cons_of_mem _ hmem)]
  | alone => exact absurd List.mem_cons_self hline
  | both => exact absurd List.mem_cons_self hline

/-- The first newline of a text is replaced as all others are. -/
theorem Respells.exists_of_append_cons {line rest text' : List α}
    (h : Respells cr lf (line ++ lf :: rest) text') (hline : lf ∉ line) :
    ∃ ending rest', text' = line ++ (ending ++ rest') ∧ (ending = [cr] ∨ ending = [cr, lf]) ∧
      Respells cr lf rest rest' := by
  induction line generalizing text' with
  | nil =>
    cases h with
    | keep hc => exact absurd rfl hc
    | alone hrest => exact ⟨[cr], _, rfl, Or.inl rfl, hrest⟩
    | both hrest => exact ⟨[cr, lf], _, rfl, Or.inr rfl, hrest⟩
  | cons c line ih =>
    rw [List.mem_cons, not_or] at hline
    cases h with
    | keep _ hmore =>
      obtain ⟨ending, rest', rfl, hending, hrest⟩ := ih hmore hline.2
      exact ⟨ending, rest', rfl, hending, hrest⟩
    | alone => exact absurd rfl hline.1
    | both => exact absurd rfl hline.1

/-- **Other ends give the same lines**, if no carriage return stood in the text before. -/
theorem IsLines.respelled (hends : cr ≠ lf) {text text' : List α} {lines : List (List α)}
    (h : IsLines cr lf text lines) (hcr : cr ∉ text) (hrespells : Respells cr lf text text') :
    IsLines cr lf text' lines := by
  induction h generalizing text' with
  | nil =>
    rw [hrespells.eq_of_not_mem List.not_mem_nil]
    exact .nil
  | last hne hline =>
    rw [hrespells.eq_of_not_mem hline.2]
    exact .last hne hline
  | @cons line ending rest lines hline hending _ ih =>
    rw [List.mem_append, List.mem_append, not_or, not_or] at hcr
    cases hending with
    | carriage => exact absurd (List.mem_singleton_self cr) hcr.2.1
    | both => exact absurd List.mem_cons_self hcr.2.1
    | newline =>
      obtain ⟨ending', rest', rfl, hending', hrest⟩ := hrespells.exists_of_append_cons hline.2
      refine .cons hline ?_ (ih hcr.2.2 hrest)
      rcases hending' with rfl | rfl
      · exact .carriage (hrest.head?_ne hends)
      · exact .both rest'

variable [DecidableEq α]

theorem respells_map (text : List α) :
    Respells cr lf text (text.map fun c => if c = lf then cr else c) := by
  induction text with
  | nil => exact .nil
  | cons c text ih =>
    rw [List.map_cons]
    split
    · rename_i hc
      rw [hc]
      exact .alone ih
    · rename_i hc
      exact .keep hc ih

theorem respells_flatMap (text : List α) :
    Respells cr lf text (text.flatMap fun c => if c = lf then [cr, lf] else [c]) := by
  induction text with
  | nil => exact .nil
  | cons c text ih =>
    rw [List.flatMap_cons]
    split
    · rename_i hc
      rw [hc]
      exact .both ih
    · rename_i hc
      exact .keep hc ih

end Respelled

/-! ## The lines of a file -/

theorem linesOfBytes_eq {bytes : List UInt8} {pieces : List (List UInt8)}
    (h : IsLines 0x0d 0x0a bytes pieces) :
    linesOfBytes bytes = pieces.map fun piece => String.ofList (decode piece) := by
  unfold linesOfBytes
  rw [(isLines_decode h).lines_eq, List.map_map]
  rfl

theorem withoutLineEnd_of_isUnended {line : String} (h : IsUnended '\r' '\n' line.toList) :
    withoutLineEnd line = line := by
  apply withoutLineEnd_eq_self
  intro c hc
  have hmem := List.mem_of_getLast? hc
  have hlf : c ≠ '\n' := fun hc => h.2 (hc ▸ hmem)
  have hcr : c ≠ '\r' := fun hc => h.1 (hc ▸ hmem)
  simp [isLineEnd, hlf, hcr]

end Text

open Text in
/-- **It does not matter whether bytes are decoded or split first.**  The lines of a file are its
bytes split at 0D, 0A and the two, and decoded piece by piece, whatever is ill-formed in them.  They
are the lines of the decoded text: no character but the newline and the carriage return ends one,
and no line has either of these.  If the file has no carriage return, the lines stay the same when
the newlines are replaced by carriage returns or get carriage returns before them, all of them or
each in its own way. -/
theorem lines_of_bytes (tree : FileTree) (path : Path) (bytes : List UInt8) :
    Tables.readLines tree path = (tree.read path).map (fun content =>
        (linesBy 0x0d 0x0a content).map fun piece => String.ofList (Utf8.decode piece)) ∧
      linesOfBytes bytes =
        (linesBy 0x0d 0x0a bytes).map (fun piece => String.ofList (Utf8.decode piece)) ∧
      IsLines 0x0d 0x0a bytes (linesBy 0x0d 0x0a bytes) ∧
      (∀ found, IsLines '\r' '\n' (Utf8.decode bytes) found ↔
        found = (linesOfBytes bytes).map String.toList) ∧
      (∀ line ∈ linesOfBytes bytes,
        '\r' ∉ line.toList ∧ '\n' ∉ line.toList ∧ withoutLineEnd line = line) ∧
      (0x0d ∉ bytes →
        linesOfBytes (bytes.flatMap fun b => if b = 0x0a then [0x0d, 0x0a] else [b]) =
            linesOfBytes bytes ∧
          linesOfBytes (bytes.map fun b => if b = 0x0a then 0x0d else b) = linesOfBytes bytes ∧
          ∀ bytes', Respells 0x0d 0x0a bytes bytes' → linesOfBytes bytes' = linesOfBytes bytes) := by
  have hbytes : IsLines 0x0d 0x0a bytes (linesBy 0x0d 0x0a bytes) := isLines_linesBy bytes
  have heach : ∀ content, linesOfBytes content =
      (linesBy 0x0d 0x0a content).map fun piece => String.ofList (Utf8.decode piece) :=
    fun content => linesOfBytes_eq (isLines_linesBy content)
  have hchars : (linesOfBytes bytes).map String.toList = lines (Utf8.decode bytes) := by
    have hid : String.toList ∘ String.ofList = id := funext fun _ => String.toList_ofList
    unfold linesOfBytes
    rw [List.map_map, hid, List.map_id]
  have hrespelled : 0x0d ∉ bytes → ∀ bytes', Respells 0x0d 0x0a bytes bytes' →
      linesOfBytes bytes' = linesOfBytes bytes := by
    intro hcr bytes' h
    rw [heach bytes, linesOfBytes_eq (hbytes.respelled (by decide) hcr h)]
  refine ⟨?_, heach bytes, hbytes, fun found => ?_, ?_, fun hcr => ?_⟩
  · unfold Tables.readLines
    exact congrArg (fun split => (tree.read path).map split) (funext heach)
  · rw [hchars]
    exact isLines_iff
  · intro line hline
    have hmem : line.toList ∈ lines (Utf8.decode bytes) := hchars ▸ List.mem_map_of_mem hline
    have hunended := (isLines_iff.mpr rfl).isUnended line.toList hmem
    exact ⟨hunended.1, hunended.2, withoutLineEnd_of_isUnended hunended⟩
  · exact ⟨hrespelled hcr _ (respells_flatMap bytes), hrespelled hcr _ (respells_map bytes),
      hrespelled hcr⟩

open Text in
/-- A sequence that is cut off by the end of its line, one that is cut off by the end of the file,
and a byte that starts none; the line separator is no line end. -/
example : linesOfBytes [0x61, 0xe2, 0x82, 0x0d, 0x0a, 0xe2, 0x80, 0xa8, 0xff, 0x0d, 0xf0, 0x9f] =
    ["a\uFFFD", "\u2028\uFFFD", "\uFFFD"] := by decide

end FlowAtlas
