import FlowAtlas.Proofs.Number.Words

/-!
# How decimal numbers are written

Once its sign is taken off, a decimal number is written with digits, a point among them or none, and
a power of ten behind them or none.  The reader accepts exactly these texts besides words.  It takes
what they say exactly and rounds it once.  To fixed places a number is written with a point in any
case.

Main facts: `Binary64.readMagnitude_eq_some_iff` and `Binary64.exists_pointed`.
-/

namespace FlowAtlas

namespace Numeral

/-- The characters are all digits. -/
def AreDigits (text : List Char) : Prop := ∀ c ∈ text, c.isDigit = true

/-- The part of a decimal behind its whole digits: a point and more digits, or nothing. -/
inductive Fraction : List Char → List Char → Prop
  | absent : Fraction [] []
  | pointed {part : List Char} (h : AreDigits part) : Fraction ('.' :: part) part

/-- The power of ten behind the digits; without one it is the zeroth. -/
inductive Power : List Char → Int → Prop
  | absent : Power [] 0
  | written {mark : Char} {sign digits : List Char} {factor : Int}
      (hmark : mark = 'e' ∨ mark = 'E') (hsign : SignOf sign factor) (hne : digits ≠ [])
      (hdigits : AreDigits digits) :
      Power (mark :: (sign ++ digits)) (factor * ofDigits digits)

/-- **A decimal without sign** and what it says: a whole number times a power of ten. -/
inductive Decimal : List Char → Nat → Int → Prop
  | intro {whole fraction part power : List Char} {exponent : Int} (hwhole : AreDigits whole)
      (hfraction : Fraction fraction part) (hne : whole ++ part ≠ [])
      (hpower : Power power exponent) :
      Decimal (whole ++ (fraction ++ power)) (ofDigits (whole ++ part)) (exponent - part.length)

theorem Power.isDigit_head {power : List Char} {exponent : Int} (h : Power power exponent) :
    ∀ c ∈ power.head?, c.isDigit = false := by
  cases h with
  | absent => exact nofun
  | written hmark =>
    intro c hc
    cases hc
    rcases hmark with rfl | rfl <;> decide

theorem Power.ne_point {power : List Char} {exponent : Int} (h : Power power exponent)
    (rest : List Char) : power ≠ '.' :: rest := by
  cases h with
  | absent => exact nofun
  | written hmark =>
    intro heq
    have hpoint := (List.cons.inj heq).1
    rcases hmark with rfl | rfl <;> exact absurd hpoint (by decide)

/-- A decimal has a digit. -/
theorem Decimal.exists_isDigit {text : List Char} {coefficient : Nat} {exponent : Int}
    (h : Decimal text coefficient exponent) : ∃ c ∈ text, c.isDigit = true := by
  obtain ⟨hwhole, hfraction, hne, -⟩ := h
  rename_i whole fraction part power _
  obtain ⟨c, hc⟩ := List.exists_mem_of_ne_nil _ hne
  rcases List.mem_append.mp hc with hmem | hmem
  · exact ⟨c, List.mem_append_left _ hmem, hwhole c hmem⟩
  · cases hfraction with
    | absent => cases hmem
    | pointed hpart =>
      exact ⟨c, List.mem_append_right _ (List.mem_append_left _ (List.mem_cons_of_mem _ hmem)),
        hpart c hmem⟩

theorem areDigits_takeWhile (text : List Char) : AreDigits (text.takeWhile Char.isDigit) :=
  List.all_eq_true.mp List.all_takeWhile

end Numeral

open Numeral

namespace Binary64

variable {negative : Bool} {value : Binary64}

/-- The power of ten that is written behind the digits is the one that is read. -/
theorem readPower_eq_some_iff {digits rest : List Char} {places : Nat} :
    readPower negative digits places rest = some value ↔ ∃ exponent, Power rest exponent ∧
      value = ofDecimal negative (ofDigits digits) (exponent - places) := by
  have hfactor : ∀ (down : Bool) (n : Nat),
      (if down then -(n : Int) else n) = (if down then -1 else 1) * (n : Int) := by
    rintro (_ | _) n <;> simp
  constructor
  · intro h
    unfold readPower at h
    split at h
    · refine ⟨0, .absent, ?_⟩
      rw [Int.zero_sub]
      exact (Option.some.inj h).symm
    · rename_i mark rest
      cases hsigned : signed rest with
      | mk down power =>
        rw [hsigned] at h
        dsimp only at h
        split at h
        · rename_i hmark
          simp only [Bool.and_eq_true, Bool.or_eq_true, decide_eq_true_eq, Bool.not_eq_true',
            List.isEmpty_eq_false_iff, List.all_eq_true] at hmark
          obtain ⟨sign, rfl, hsign⟩ := exists_sign_of_signed hsigned
          refine ⟨_, .written hmark.1.1 hsign hmark.1.2 hmark.2, ?_⟩
          rw [← hfactor]
          exact (Option.some.inj h).symm
        · cases h
  · rintro ⟨exponent, hpower, rfl⟩
    cases hpower with
    | absent =>
      rw [Int.zero_sub]
      rfl
    | @written mark sign power factor hmark hsign hne hdigits =>
      obtain ⟨first, more, rfl⟩ := List.exists_cons_of_ne_nil hne
      have hfirst := hdigits first List.mem_cons_self
      have hsigns : first ≠ '-' ∧ first ≠ '+' := by
        constructor <;> rintro rfl <;> cases hfirst
      obtain ⟨down, hsigned, rfl⟩ := signed_append hsign hsigns.1 hsigns.2 more
      have hmarked : ((decide (mark = 'e') || decide (mark = 'E')) && !(first :: more).isEmpty &&
          (first :: more).all Char.isDigit) = true := by
        simp only [Bool.and_eq_true, Bool.or_eq_true, decide_eq_true_eq, List.all_eq_true]
        exact ⟨⟨hmark, rfl⟩, hdigits⟩
      unfold readPower
      dsimp only
      rw [hsigned]
      dsimp only
      rw [if_pos hmarked, hfactor]

/-- **The texts that are read as decimals are decimals**, and what they say is rounded once. -/
theorem readMagnitude_eq_some_iff {text : List Char} :
    readMagnitude negative text = some value ↔ ∃ coefficient exponent,
      Decimal text coefficient exponent ∧ value = ofDecimal negative coefficient exponent := by
  constructor
  · intro h
    have hwhole := areDigits_takeWhile text
    have htext := (List.takeWhile_append_dropWhile (p := Char.isDigit) (l := text)).symm
    unfold readMagnitude at h
    dsimp only at h
    split at h
    · rename_i rest hdrop
      split at h
      · cases h
      · rename_i hempty
        obtain ⟨exponent, hpower, rfl⟩ := readPower_eq_some_iff.mp h
        have hne : text.takeWhile Char.isDigit ++ rest.takeWhile Char.isDigit ≠ [] := by
          simpa [List.isEmpty_iff] using hempty
        refine ⟨_, _, ?_, rfl⟩
        have hdecimal :=
          Decimal.intro hwhole (.pointed (areDigits_takeWhile rest)) hne hpower
        rw [List.cons_append, List.takeWhile_append_dropWhile, ← hdrop, ← htext] at hdecimal
        exact hdecimal
    · split at h
      · cases h
      · rename_i hempty
        obtain ⟨exponent, hpower, rfl⟩ := readPower_eq_some_iff.mp h
        have hne : text.takeWhile Char.isDigit ++ [] ≠ [] := by
          simpa [List.isEmpty_iff] using hempty
        refine ⟨_, _, ?_, rfl⟩
        have hdecimal := Decimal.intro hwhole .absent hne hpower
        rw [List.append_nil, List.nil_append, ← htext] at hdecimal
        exact hdecimal
  · rintro ⟨coefficient, exponent, hdecimal, rfl⟩
    cases hdecimal with
    | @intro whole fraction part power exponent hwhole hfraction hne hpower =>
      cases hfraction with
      | absent =>
        obtain ⟨htake, hdrop⟩ := Text.span_append hwhole hpower.isDigit_head
        have hsome : whole.isEmpty = false := by simpa [List.isEmpty_eq_false_iff] using hne
        unfold readMagnitude
        rw [List.nil_append, htake, hdrop]
        split
        · exact absurd rfl (hpower.ne_point _)
        · dsimp only
          rw [hsome, List.append_nil]
          exact readPower_eq_some_iff.mpr ⟨exponent, hpower, rfl⟩
      | pointed hpart =>
        have hpoint : ∀ c ∈ ('.' :: (part ++ power)).head?, c.isDigit = false := by
          intro c hc
          cases hc
          rfl
        obtain ⟨htake, hdrop⟩ := Text.span_append hwhole hpoint
        obtain ⟨htakePart, hdropPart⟩ := Text.span_append hpart hpower.isDigit_head
        have hsome : (whole.isEmpty && part.isEmpty) = false := by
          simpa [Bool.and_eq_false_iff, List.isEmpty_eq_false_iff, or_iff_not_imp_left] using hne
        unfold readMagnitude
        rw [List.cons_append, htake, hdrop]
        show (if whole.isEmpty && ((part ++ power).takeWhile Char.isDigit).isEmpty then none
          else readPower negative (whole ++ (part ++ power).takeWhile Char.isDigit)
            ((part ++ power).takeWhile Char.isDigit).length
            ((part ++ power).dropWhile Char.isDigit)) = _
        rw [htakePart, hdropPart, hsome]
        exact readPower_eq_some_iff.mpr ⟨exponent, hpower, rfl⟩

/-! ## Fixed places -/

/-- The digits in front of the point are at least one, and behind it are as many as asked for. -/
theorem exists_pointed (places count : Nat) :
    ∃ whole part, (pointed places count).toList = whole ++ '.' :: part ∧ whole ≠ [] ∧
      AreDigits whole ∧ part.length = places ∧ AreDigits part := by
  generalize hpadded : List.replicate (places + 1 - (Nat.toDigits 10 count).length) '0' ++
    Nat.toDigits 10 count = padded
  have hdigits : AreDigits padded := by
    rw [← hpadded]
    refine List.forall_mem_append.mpr ⟨fun c hc => ?_, fun c hc => ?_⟩
    · rw [List.eq_of_mem_replicate hc]
      rfl
    · exact Nat.isDigit_of_mem_toDigits (by decide) (by decide) hc
  have hlength : places + 1 ≤ padded.length := by
    rw [← hpadded, List.length_append, List.length_replicate]
    omega
  refine ⟨padded.take (padded.length - places), padded.drop (padded.length - places), ?_, ?_,
    fun c hc => hdigits c (List.mem_of_mem_take hc), ?_,
    fun c hc => hdigits c (List.mem_of_mem_drop hc)⟩
  · unfold pointed
    dsimp only
    rw [hpadded]
    simp
  · refine List.ne_nil_of_length_pos ?_
    rw [List.length_take]
    omega
  · rw [List.length_drop]
    omega

end Binary64

end FlowAtlas
