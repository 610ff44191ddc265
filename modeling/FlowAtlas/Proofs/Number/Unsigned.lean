import FlowAtlas.Proofs.Number.Spelling
import Mathlib.Algebra.Ring.Int.Defs
import Mathlib.Algebra.Ring.Nat
import Mathlib.Data.List.Induction

/-!
# The unsigned form of an identifier

The signed and the unsigned form of the same 64 bits are carried to one text, the decimal of the
bits as a number, and no other two 64-bit numbers are.  A text in any other form stays as it is.

Main facts: `isDecimal_iff`, `unsigned64_bits` and `unsigned64_canonical`.
-/

namespace FlowAtlas

open Numeral

/-- **The text is the decimal of a number**: ASCII digits alone, with no zero before others. -/
structure IsDecimal (text : String) (n : Nat) : Prop where
  nonempty : text.toList ≠ []
  digits : ∀ c ∈ text.toList, c.isDigit = true
  leading : 1 < text.toList.length → text.toList.head? ≠ some '0'
  value : ofDigits text.toList = n

/-- A number that 64 bits hold, signed or unsigned. -/
structure Is64Bit (n : Int) : Prop where
  lower : -2 ^ 63 ≤ n
  upper : n < 2 ^ 64

/-! ## The decimal of a number -/

section Decimal

variable {n : Nat} {digits : List Char}

theorem ofDigits_toDigits (n : Nat) : ofDigits (Nat.toDigits 10 n) = n := by
  have h : Nat.ofDigitChars 10 (Nat.toDigits 10 n) 0 = n := Nat.ofDigitChars_ten_toDigits
  rwa [Nat.ofDigitChars_eq_foldl] at h

theorem isDigit_of_mem_toDigits {c : Char} (h : c ∈ Nat.toDigits 10 n) : c.isDigit = true :=
  Nat.isDigit_of_mem_toDigits (by decide) (by decide) h

theorem toList_decimal (n : Nat) : (Text.decimal n).toList = Nat.toDigits 10 n :=
  String.toList_ofList

theorem decimal_injective {m n : Nat} (h : Text.decimal m = Text.decimal n) : m = n := by
  have hdigits : Nat.toDigits 10 m = Nat.toDigits 10 n := by
    rw [← toList_decimal, h, toList_decimal]
  calc
    m = ofDigits (Nat.toDigits 10 m) := (ofDigits_toDigits m).symm
    _ = ofDigits (Nat.toDigits 10 n) := by rw [hdigits]
    _ = n := ofDigits_toDigits n

theorem head?_toDigits_ne_zero (h : 0 < n) : (Nat.toDigits 10 n).head? ≠ some '0' := by
  induction n using Nat.strongRecOn with
  | ind n ih =>
    by_cases hten : n < 10
    · rw [Nat.toDigits_of_lt_base hten]
      intro heq
      have hchar := congrArg Char.toNat (Option.some.inj heq)
      rw [Nat.toNat_digitChar_of_lt_ten hten] at hchar
      have hzero : '0'.toNat = 48 := rfl
      omega
    · obtain ⟨first, rest, hfirst⟩ : ∃ first rest, Nat.toDigits 10 (n / 10) = first :: rest :=
        List.exists_cons_of_ne_nil Nat.toDigits_ne_nil
      have hquotient := ih (n / 10) (by omega) (by omega)
      rw [Nat.toDigits_of_base_le (by decide) (Nat.not_lt.mp hten), hfirst]
      rwa [hfirst] at hquotient

theorem ofDigits_append (front : List Char) (c : Char) :
    ofDigits (front ++ [c]) = 10 * ofDigits front + (c.toNat - 48) := by
  unfold ofDigits
  rw [List.foldl_append]
  rfl

theorem toDigits_of_isDigit {c : Char} (h : c.isDigit = true) :
    Nat.toDigits 10 (c.toNat - 48) = [c] := by
  obtain ⟨hge, hle⟩ := Text.isDigit_iff.mp h
  have hten : c.toNat - 48 < 10 := by omega
  rw [Nat.toDigits_of_lt_base hten]
  congr 1
  apply Char.toNat_inj.mp
  rw [Nat.toNat_digitChar_of_lt_ten hten]
  omega

/-- Digits without a needless zero are those of their number. -/
theorem toDigits_ofDigits (hne : digits ≠ []) (hdigits : ∀ c ∈ digits, c.isDigit = true)
    (hleading : 1 < digits.length → digits.head? ≠ some '0') :
    Nat.toDigits 10 (ofDigits digits) = digits := by
  -- Division by ten takes the last digit off, so the induction is from the end.
  induction digits using List.reverseRecOn with
  | nil => exact absurd rfl hne
  | append_singleton front c ih =>
    have hc : c.isDigit = true := hdigits c (by simp)
    obtain ⟨hge, hle⟩ := Text.isDigit_iff.mp hc
    cases front with
    | nil =>
      show Nat.toDigits 10 (10 * 0 + (c.toNat - 48)) = [c]
      rw [Nat.mul_zero, Nat.zero_add, toDigits_of_isDigit hc]
    | cons first front =>
      have hfirst : first ≠ '0' := by
        have h := hleading (by simp)
        simpa using h
      have hfront : Nat.toDigits 10 (ofDigits (first :: front)) = first :: front :=
        ih (List.cons_ne_nil _ _) (fun d hd => hdigits d (List.mem_append_left _ hd))
          fun _ => by simpa using hfirst
      have hpos : 0 < ofDigits (first :: front) := by
        refine Nat.pos_of_ne_zero fun heq => hfirst ?_
        rw [heq, Nat.toDigits_zero] at hfront
        exact (List.cons.inj hfront).1.symm
      rw [ofDigits_append, ← Nat.toDigits_append_toDigits (by decide) hpos (by omega), hfront,
        toDigits_of_isDigit hc]

/-- Every number has one decimal. -/
theorem isDecimal_iff {text : String} : IsDecimal text n ↔ text = Text.decimal n := by
  constructor
  · rintro ⟨hne, hdigits, hleading, rfl⟩
    unfold Text.decimal
    rw [toDigits_ofDigits hne hdigits hleading, String.ofList_toList]
  · rintro rfl
    refine ⟨?_, ?_, ?_, ?_⟩ <;> rw [toList_decimal]
    · exact Nat.toDigits_ne_nil
    · exact fun c hc => isDigit_of_mem_toDigits hc
    · intro hlength
      refine head?_toDigits_ne_zero (Nat.pos_of_ne_zero fun heq => ?_)
      rw [heq, Nat.toDigits_zero] at hlength
      exact absurd hlength (by decide)
    · exact ofDigits_toDigits n

theorem head?_decimal_ne_minus (n : Nat) : (Text.decimal n).toList.head? ≠ some '-' := by
  rw [toList_decimal]
  intro h
  have hminus := isDigit_of_mem_toDigits (List.mem_of_head? h)
  cases hminus

end Decimal

/-! ## Decimals are read back -/

section ReadBack

variable {digits : List Char}

theorem Numeral.digitRun_of_isDigit (hne : digits ≠ [])
    (hdigits : ∀ c ∈ digits, c.isDigit = true) : DigitRun digits (digitValues digits) := by
  induction digits with
  | nil => exact absurd rfl hne
  | cons c rest ih =>
    obtain ⟨hc, hrest⟩ := List.forall_mem_cons.mp hdigits
    have hvalue := Text.digitValue?_of_isDigit hc
    cases rest with
    | nil => exact .single hvalue
    | cons d rest => exact .next hvalue (ih (List.cons_ne_nil d rest) hrest)

/-- A minus and the digits of a number write its opposite. -/
theorem writes_neg_decimal {n : Nat} (h : n < 10 ^ maxDigits) :
    Writes ("-" ++ Text.decimal n) (-n) := by
  have hrun := digitRun_of_isDigit (Nat.toDigits_ne_nil (n := n) (b := 10))
    fun c hc => isDigit_of_mem_toDigits hc
  have hlength : (digitValues (Nat.toDigits 10 n)).length ≤ maxDigits := by
    unfold digitValues
    rw [List.length_map]
    exact (Nat.length_toDigits_le_iff (by decide) (by decide)).mpr h
  have htext : ("-" ++ Text.decimal n).toList =
      [] ++ (['-'] ++ Nat.toDigits 10 n) ++ [] := by
    rw [String.toList_append, toList_decimal, List.append_nil]
    rfl
  have hwrites := Writes.intro htext (by simp) (by simp) SignOf.minus hrun hlength
  rwa [← ofDigits_eq, ofDigits_toDigits, Int.neg_one_mul] at hwrites

end ReadBack

/-! ## The unsigned form -/

theorem modulus64_eq : (modulus64 : Int) = 2 ^ 64 := rfl

theorem unsigned64_of_writes {text : String} {n : Int} (hminus : text.toList.head? = some '-')
    (h : Writes text n) : unsigned64 text = Text.decimal (n % 2 ^ 64).toNat := by
  unfold unsigned64
  rw [if_pos hminus, readInteger?_eq_some_iff.mpr h, ← modulus64_eq]

theorem unsigned64_of_not_writes {text : String}
    (h : ¬ (text.toList.head? = some '-' ∧ ∃ n, Writes text n)) : unsigned64 text = text := by
  unfold unsigned64
  split
  · rename_i hminus
    cases hread : readInteger? text with
    | none => rfl
    | some n => exact absurd ⟨hminus, n, readInteger?_eq_some_iff.mp hread⟩ h
  · rfl

theorem unsigned64_decimal (n : Nat) : unsigned64 (Text.decimal n) = Text.decimal n :=
  unsigned64_of_not_writes fun h => head?_decimal_ne_minus n h.1

theorem unsigned64_ne_of_writes {text : String} {n : Int} (hminus : text.toList.head? = some '-')
    (h : Writes text n) : unsigned64 text ≠ text := by
  intro heq
  rw [unsigned64_of_writes hminus h] at heq
  rw [← heq] at hminus
  exact head?_decimal_ne_minus _ hminus

theorem unsigned64_unsigned64 (text : String) : unsigned64 (unsigned64 text) = unsigned64 text := by
  by_cases h : text.toList.head? = some '-' ∧ ∃ n, Writes text n
  · obtain ⟨hminus, n, hwrites⟩ := h
    rw [unsigned64_of_writes hminus hwrites, unsigned64_decimal]
  · rw [unsigned64_of_not_writes h, unsigned64_of_not_writes h]

/-- The decimal of a number of 64 bits, signed or unsigned, is carried to that of its bits. -/
theorem unsigned64_signedDecimal {n : Int} (h : Is64Bit n) :
    unsigned64 (Text.signedDecimal n) = Text.decimal (n % 2 ^ 64).toNat := by
  obtain ⟨hlower, hupper⟩ := h
  cases n with
  | ofNat n =>
    have hupper : (n : Int) < 2 ^ 64 := hupper
    have hsmall : ((n : Int) % 2 ^ 64).toNat = n := by omega
    show unsigned64 (Text.decimal n) = Text.decimal ((n : Int) % 2 ^ 64).toNat
    rw [hsmall]
    exact unsigned64_decimal n
  | negSucc n =>
    -- Only here is there a minus to be read; 64 bits are far from the longest text that is read.
    have hsmall : n + 1 < 10 ^ 20 := by omega
    have hdigits : 10 ^ 20 ≤ 10 ^ maxDigits := Nat.pow_le_pow_right (by decide) (by decide)
    have hwrites : Writes (Text.signedDecimal (Int.negSucc n)) (Int.negSucc n) :=
      writes_neg_decimal (Nat.lt_of_lt_of_le hsmall hdigits)
    have hminus : (Text.signedDecimal (Int.negSucc n)).toList.head? = some '-' := by
      show ("-" ++ Text.decimal (n + 1)).toList.head? = some '-'
      rw [String.toList_append]
      rfl
    exact unsigned64_of_writes hminus hwrites

/-- The two forms of the same bits. -/
theorem unsigned64_bits (bits : BitVec 64) :
    unsigned64 (Text.signedDecimal bits.toInt) = Text.decimal bits.toNat := by
  have hsmall : bits.toNat < 2 ^ 64 := bits.isLt
  have hsigned := BitVec.toInt_eq_toNat_cond bits
  have h64 : Is64Bit bits.toInt := by
    constructor
    · split at hsigned <;> omega
    · split at hsigned <;> omega
  have hbits : (bits.toInt % 2 ^ 64).toNat = bits.toNat := by
    split at hsigned <;> omega
  rw [unsigned64_signedDecimal h64, hbits]

theorem decimal_mod_inj {m n : Int} :
    Text.decimal (m % 2 ^ 64).toNat = Text.decimal (n % 2 ^ 64).toNat ↔
      m % 2 ^ 64 = n % 2 ^ 64 := by
  constructor
  · intro h
    have hnat := decimal_injective h
    omega
  · intro h
    rw [h]

/-- **The unsigned form of every text.**  A text is changed exactly if it starts with a minus and
writes a number; it becomes the decimal of this number modulo `2 ^ 64`.  Unsigned forms are kept.
Of the decimals of 64-bit numbers, those and only those of numbers congruent modulo `2 ^ 64` come
to one text. -/
theorem unsigned64_canonical :
    (∀ text, unsigned64 text ≠ text ↔ text.toList.head? = some '-' ∧ ∃ n, Writes text n) ∧
    (∀ text n, text.toList.head? = some '-' → Writes text n →
      IsDecimal (unsigned64 text) (n % 2 ^ 64).toNat) ∧
    (∀ text, unsigned64 (unsigned64 text) = unsigned64 text) ∧
    (∀ n, Is64Bit n →
      unsigned64 (Text.signedDecimal n) = Text.signedDecimal (n % 2 ^ 64)) ∧
    (∀ m n, Is64Bit m → Is64Bit n →
      (unsigned64 (Text.signedDecimal m) = unsigned64 (Text.signedDecimal n) ↔
        m % 2 ^ 64 = n % 2 ^ 64)) := by
  refine ⟨fun text => ⟨fun h => ?_, ?_⟩, ?_, unsigned64_unsigned64, fun n hn => ?_,
    fun m n hm hn => ?_⟩
  · exact Classical.not_not.mp fun hnot => h (unsigned64_of_not_writes hnot)
  · rintro ⟨hminus, n, hwrites⟩
    exact unsigned64_ne_of_writes hminus hwrites
  · intro text n hminus hwrites
    exact isDecimal_iff.mpr (unsigned64_of_writes hminus hwrites)
  · rw [unsigned64_signedDecimal hn]
    have hbits : ((n % 2 ^ 64).toNat : Int) = n % 2 ^ 64 :=
      Int.toNat_of_nonneg (Int.emod_nonneg n (by decide))
    exact congrArg Text.signedDecimal hbits
  · rw [unsigned64_signedDecimal hm, unsigned64_signedDecimal hn]
    exact decimal_mod_inj

/-- Digits of two scripts, an underscore between them and a blank after them. -/
theorem mixedDigits_unsigned64_canonical :
    Writes "-1_٨ " (-18) ∧ Is64Bit (-18) ∧ Is64Bit (2 ^ 64 - 18) ∧
      IsDecimal (unsigned64 "-1_٨ ") 18446744073709551598 ∧
      unsigned64 (Text.signedDecimal (-18)) = "18446744073709551598" ∧
      unsigned64 (Text.signedDecimal (-18)) = unsigned64 (Text.signedDecimal (2 ^ 64 - 18)) := by
  have hwrites : Writes "-1_٨ " (-18) := readInteger?_eq_some_iff.mp (by decide)
  have hsigned : Is64Bit (-18) := ⟨by decide, by decide⟩
  have hunsigned : Is64Bit (2 ^ 64 - 18) := ⟨by decide, by decide⟩
  obtain ⟨-, hcanonical, -, hdecimal, hcollide⟩ := unsigned64_canonical
  refine ⟨hwrites, hsigned, hunsigned, hcanonical "-1_٨ " (-18) (by decide) hwrites, ?_, ?_⟩
  · rw [hdecimal (-18) hsigned]
    decide
  · exact (hcollide (-18) (2 ^ 64 - 18) hsigned hunsigned).mpr (by decide)

end FlowAtlas
