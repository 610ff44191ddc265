import Mathlib.Tactic.Ring
import FlowAtlas.Proofs.Number.Decimals

/-!
# The range of floating-point numbers

Past the largest finite number there is one more step to `2 ^ 1024`, which the format does not have.
A value becomes infinite exactly from the middle of this step on: there the rounding goes to the
even neighbour, and that is the one which is not there.

Main facts: `Binary64.le_roundsTo_iff` (which quotients are rounded to a power of two or beyond),
`Binary64.ofDecimal_eq_infinite_iff` and `Binary64.read?_eq_infinite_iff`.
-/

namespace FlowAtlas

/-! ## Rounding -/

section Rounding

variable {num den : Nat}

theorem div_le_roundQuotient (num den : Nat) : num / den ≤ roundQuotient num den := by
  unfold roundQuotient
  dsimp only
  split_ifs <;> omega

theorem roundQuotient_le (num den : Nat) : roundQuotient num den ≤ num / den + 1 := by
  unfold roundQuotient
  dsimp only
  split_ifs <;> omega

/-- A quotient is rounded to an even number or beyond exactly from the half below this number on. -/
theorem le_roundQuotient_iff (hden : 0 < den) {m : Nat} (hm : 0 < m) (heven : m % 2 = 0) :
    m ≤ roundQuotient num den ↔ (2 * m - 1) * den ≤ 2 * num := by
  have hnum : den * (num / den) + num % den = num := Nat.div_add_mod num den
  have hrest : num % den < den := Nat.mod_lt num hden
  generalize hq : num / den = q at hnum
  generalize hr : num % den = r at hnum hrest
  rcases Nat.lt_trichotomy m (q + 1) with hlt | rfl | hgt
  · have hround : m ≤ roundQuotient num den :=
      (Nat.le_of_lt_succ hlt).trans (hq ▸ div_le_roundQuotient num den)
    have hscaled : (2 * m - 1) * den ≤ 2 * q * den := Nat.mul_le_mul_right den (by omega)
    have hcomm : 2 * q * den = 2 * (den * q) := by ring
    exact iff_of_true hround (by omega)
  · -- The number is the next one: the rest decides, and of two halves the even number is taken.
    have hodd : q % 2 = 1 := by omega
    have hround : q + 1 ≤ roundQuotient num den ↔ den ≤ 2 * r := by
      unfold roundQuotient
      rw [hq, hr]
      dsimp only
      split_ifs <;> omega
    have hscaled : (2 * (q + 1) - 1) * den = 2 * (den * q) + den := by
      have hsum : 2 * (q + 1) - 1 = 2 * q + 1 := by omega
      rw [hsum]
      ring
    rw [hround, hscaled]
    omega
  · have hround : ¬ m ≤ roundQuotient num den := by
      have hle := roundQuotient_le num den
      omega
    have hscaled : (2 * q + 3) * den ≤ (2 * m - 1) * den := Nat.mul_le_mul_right den (by omega)
    have hexpand : (2 * q + 3) * den = 2 * (den * q) + 3 * den := by ring
    exact iff_of_false hround (by omega)

end Rounding

/-! ## Powers of two -/

namespace Binary64

open Numeral

section Overflow

variable {num den n : Nat}

/-- `num / den` rounded to 53 significant bits. -/
def roundsTo (num den : Nat) : Nat :=
  roundQuotient num (den * twoTo (shift (num / den))) * twoTo (shift (num / den))

theorem shift_of_log2 {units k : Nat} (h : units.log2 = k) (hk : 0 < k) :
    shift units = k - 52 := by
  unfold shift
  rw [if_neg (by rintro rfl; simp at h; omega), h]
  omega

theorem div_mul_le (num den k : Nat) : num / (den * 2 ^ k) * 2 ^ k ≤ num / den := by
  rw [← Nat.div_div_eq_div_mul]
  exact Nat.div_mul_le_self _ _

theorem roundsTo_lt (hn : 53 ≤ n) (h : num / den < 2 ^ n) : roundsTo num den < 2 ^ (n + 1) := by
  have hstep : 2 ^ shift (num / den) < 2 ^ n := by
    refine Nat.pow_lt_pow_right (by decide) ?_
    unfold shift
    split
    · omega
    · rename_i hne
      have hlog := (Nat.log2_lt hne).mpr h
      omega
  have hle : roundsTo num den ≤ num / den + 2 ^ shift (num / den) := by
    calc roundsTo num den
        ≤ (num / (den * 2 ^ shift (num / den)) + 1) * 2 ^ shift (num / den) :=
          Nat.mul_le_mul_right _ (roundQuotient_le _ _)
      _ = num / (den * 2 ^ shift (num / den)) * 2 ^ shift (num / den) +
          2 ^ shift (num / den) := Nat.succ_mul _ _
      _ ≤ num / den + 2 ^ shift (num / den) := Nat.add_le_add_right (div_mul_le _ _ _) _
  rw [Nat.pow_succ]
  omega

theorem le_roundsTo (hn : 53 ≤ n) (h : 2 ^ n ≤ num / den) : 2 ^ n ≤ roundsTo num den := by
  have hpos : num / den ≠ 0 := by
    have hpow : 0 < 2 ^ n := Nat.two_pow_pos n
    omega
  have hlog : n ≤ (num / den).log2 := by
    by_contra hlt
    have hbelow := (Nat.log2_lt hpos).mp (Nat.not_le.mp hlt)
    omega
  have hself := Nat.log2_self_le hpos
  generalize hk : (num / den).log2 = k at hlog hself
  have hshift : shift (num / den) = k - 52 := shift_of_log2 hk (by omega)
  have hpow : 2 ^ k = 2 ^ 52 * 2 ^ (k - 52) := by
    rw [← Nat.pow_add]
    congr 1
    omega
  have hquotient : 2 ^ 52 ≤ num / (den * 2 ^ (k - 52)) := by
    rw [← Nat.div_div_eq_div_mul, Nat.le_div_iff_mul_le (Nat.two_pow_pos _), ← hpow]
    exact hself
  unfold roundsTo
  rw [hshift]
  calc 2 ^ n ≤ 2 ^ k := Nat.pow_le_pow_right (by decide) hlog
    _ = 2 ^ 52 * 2 ^ (k - 52) := hpow
    _ ≤ _ := Nat.mul_le_mul_right _ (hquotient.trans (div_le_roundQuotient _ _))

theorem middle_of_steps (steps half den : Nat) :
    (2 * steps - 1) * (den * (half * 2)) = 2 * ((steps * (half * 2) - half) * den) := by
  have hfactor : steps * (half * 2) - half = (2 * steps - 1) * half := by
    rw [Nat.sub_mul, Nat.one_mul, Nat.mul_comm half 2, Nat.mul_left_comm, Nat.mul_assoc]
  rw [hfactor]
  ring

/-- Between two powers of two the steps are `2 ^ (m + 1)` wide. -/
theorem le_roundsTo_iff_of_lt {m : Nat} (hden : 0 < den) (hlow : 2 ^ (m + 53) ≤ num / den)
    (hhigh : num / den < 2 ^ (m + 53 + 1)) :
    2 ^ (m + 53 + 1) ≤ roundsTo num den ↔ (2 ^ (m + 53 + 1) - 2 ^ m) * den ≤ num := by
  have hne : num / den ≠ 0 := by
    have hpow : 0 < 2 ^ (m + 53) := Nat.two_pow_pos _
    omega
  have hshift : shift (num / den) = m + 1 := by
    rw [shift_of_log2 ((Nat.log2_eq_iff hne).mpr ⟨hlow, hhigh⟩) (by omega)]
    omega
  have hsteps : 2 ^ (m + 53 + 1) = 2 ^ 53 * 2 ^ (m + 1) := by
    rw [← Nat.pow_add]
    congr 1
    omega
  have hround : 2 ^ 53 ≤ roundQuotient num (den * 2 ^ (m + 1)) ↔
      (2 * 2 ^ 53 - 1) * (den * 2 ^ (m + 1)) ≤ 2 * num :=
    le_roundQuotient_iff (Nat.mul_pos hden (Nat.two_pow_pos (m + 1))) (Nat.two_pow_pos 53)
      (by decide)
  have hscaled : roundsTo num den =
      roundQuotient num (den * 2 ^ (m + 1)) * 2 ^ (m + 1) := by
    unfold roundsTo
    rw [hshift]
    rfl
  rw [hscaled, hsteps, Nat.mul_le_mul_right_iff (Nat.two_pow_pos _), hround, Nat.pow_succ 2 m,
    middle_of_steps, Nat.mul_le_mul_left_iff (by decide)]

/-- **A value is rounded to a power of two or beyond exactly from the middle of the last step below
it on.** -/
theorem le_roundsTo_iff (m : Nat) (hden : 0 < den) :
    2 ^ (m + 53 + 1) ≤ roundsTo num den ↔ (2 ^ (m + 53 + 1) - 2 ^ m) * den ≤ num := by
  have hhalf : 2 ^ (m + 53 + 1) = 2 ^ (m + 53) + 2 ^ (m + 53) := by
    rw [Nat.pow_succ, Nat.mul_two]
  have hstep : 2 ^ m ≤ 2 ^ (m + 53) := Nat.pow_le_pow_right (by decide) (by omega)
  have hdiv : num / den * den ≤ num := Nat.div_mul_le_self num den
  have hnext : num < (num / den + 1) * den := by
    rw [Nat.mul_comm]
    exact Nat.lt_mul_div_succ num hden
  rcases Nat.lt_or_ge (num / den) (2 ^ (m + 53)) with hlow | hlow
  · have hscaled : (num / den + 1) * den ≤ (2 ^ (m + 53 + 1) - 2 ^ m) * den :=
      Nat.mul_le_mul_right den (by omega)
    exact iff_of_false (Nat.not_le.mpr (roundsTo_lt (by omega) hlow))
      (Nat.not_le.mpr (hnext.trans_le hscaled))
  · rcases Nat.lt_or_ge (num / den) (2 ^ (m + 53 + 1)) with hhigh | hhigh
    · exact le_roundsTo_iff_of_lt hden hlow hhigh
    · have hscaled : (2 ^ (m + 53 + 1) - 2 ^ m) * den ≤ num / den * den :=
        Nat.mul_le_mul_right den ((Nat.sub_le _ _).trans hhigh)
      exact iff_of_true (le_roundsTo (by omega) hhigh) (hscaled.trans hdiv)

/-- The least number of units that is rounded to infinity. -/
def beyondUnits : Nat := twoTo 2098 - twoTo 2044

theorem ofUnits_eq (negative : Bool) (num den : Nat) :
    ofUnits negative num den =
      if overflowUnits ≤ roundsTo num den then .infinite negative
      else .finite negative (roundsTo num den) := rfl

theorem overflowUnits_le_iff (hden : 0 < den) :
    overflowUnits ≤ roundsTo num den ↔ beyondUnits * den ≤ num := by
  have htop : overflowUnits = 2 ^ (2044 + 53 + 1) := by decide +kernel
  have hbeyond : beyondUnits = 2 ^ (2044 + 53 + 1) - 2 ^ 2044 := by decide +kernel
  rw [htop, hbeyond]
  exact le_roundsTo_iff 2044 hden

end Overflow

/-! ## Decimals -/

/-- A number of the format, and not an infinite one or none. -/
def IsFinite : Binary64 → Prop
  | .finite _ _ => True
  | _ => False

/-- The least number that is rounded to infinity. -/
def beyond : Nat := twoTo 1024 - twoTo 970

/-- The decimal is out of range: `coefficient * 10 ^ exponent` is rounded to infinity. -/
def IsBeyond (coefficient : Nat) (exponent : Int) : Prop :=
  beyond * tenTo (-exponent).toNat ≤ coefficient * tenTo exponent.toNat

instance (coefficient : Nat) (exponent : Int) : Decidable (IsBeyond coefficient exponent) :=
  inferInstanceAs (Decidable (_ ≤ _))

section Decimals

variable {negative other : Bool} {num den coefficient : Nat} {exponent : Int}

theorem ofUnits_eq_infinite_iff (hden : 0 < den) :
    ofUnits negative num den = .infinite other ↔ negative = other ∧ beyondUnits * den ≤ num := by
  rw [ofUnits_eq]
  split
  · rename_i h
    rw [and_iff_left ((overflowUnits_le_iff hden).mp h), infinite.injEq]
  · rename_i h
    rw [overflowUnits_le_iff hden] at h
    simp [h]

theorem pos_unitsPerOne : 0 < unitsPerOne := by decide +kernel

theorem ofRatio_eq_infinite_iff (hden : 0 < den) :
    ofRatio negative num den = .infinite other ↔ negative = other ∧ beyond * den ≤ num := by
  have hunits : beyondUnits = beyond * unitsPerOne := by decide +kernel
  unfold ofRatio
  rw [ofUnits_eq_infinite_iff hden, hunits, Nat.mul_right_comm,
    Nat.mul_le_mul_right_iff pos_unitsPerOne]

theorem pos_beyond : 0 < beyond := by decide +kernel

theorem beyond_le : beyond ≤ 10 ^ 310 := by decide +kernel

theorem ten_pow_pos (n : Nat) : 0 < 10 ^ n := Nat.pow_pos (by decide)

theorem lt_ten_pow_length (coefficient : Nat) :
    coefficient < 10 ^ (Nat.toDigits 10 coefficient).length :=
  (Nat.length_toDigits_le_iff (by decide) (List.length_pos_iff.mpr Nat.toDigits_ne_nil)).mp le_rfl

theorem ten_pow_length_le (h : coefficient ≠ 0) :
    10 ^ ((Nat.toDigits 10 coefficient).length - 1) ≤ coefficient := by
  by_contra hlt
  rw [Nat.not_le] at hlt
  rcases Nat.eq_zero_or_pos ((Nat.toDigits 10 coefficient).length - 1) with hzero | hpos
  · rw [hzero] at hlt
    omega
  · have hlength := (Nat.length_toDigits_le_iff (by decide) hpos).mpr hlt
    omega

theorem beyond_le_of_le {top length up down : Nat} (htop : beyond ≤ 10 ^ top)
    (hlow : 10 ^ (length - 1) ≤ coefficient) (h : top + down ≤ length - 1 + up) :
    beyond * 10 ^ down ≤ coefficient * 10 ^ up := by
  calc beyond * 10 ^ down
      ≤ 10 ^ top * 10 ^ down := Nat.mul_le_mul_right _ htop
    _ = 10 ^ (top + down) := (Nat.pow_add 10 top down).symm
    _ ≤ 10 ^ (length - 1 + up) := Nat.pow_le_pow_right (by decide) h
    _ = 10 ^ (length - 1) * 10 ^ up := Nat.pow_add 10 (length - 1) up
    _ ≤ coefficient * 10 ^ up := Nat.mul_le_mul_right _ hlow

theorem lt_beyond_of_le {length up down : Nat} (hhigh : coefficient < 10 ^ length)
    (h : length + up ≤ down) : coefficient * 10 ^ up < beyond * 10 ^ down := by
  calc coefficient * 10 ^ up
      < 10 ^ length * 10 ^ up := Nat.mul_lt_mul_of_pos_right hhigh (ten_pow_pos up)
    _ = 10 ^ (length + up) := (Nat.pow_add 10 length up).symm
    _ ≤ 10 ^ down := Nat.pow_le_pow_right (by decide) h
    _ ≤ beyond * 10 ^ down := Nat.le_mul_of_pos_left _ pos_beyond

/-- **A decimal is read as infinite exactly if it is out of range.**  The powers that are not
computed make no difference to this. -/
theorem ofDecimal_eq_infinite_iff :
    ofDecimal negative coefficient exponent = .infinite other ↔
      negative = other ∧ IsBeyond coefficient exponent := by
  unfold ofDecimal IsBeyond
  by_cases hzero : coefficient = 0
  · have hpos : 0 < beyond * tenTo (-exponent).toNat := Nat.mul_pos pos_beyond (ten_pow_pos _)
    rw [if_pos hzero, hzero, Nat.zero_mul]
    exact ⟨nofun, fun h => absurd h.2 (Nat.not_le.mpr hpos)⟩
  · have hlow := ten_pow_length_le hzero
    have hhigh := lt_ten_pow_length coefficient
    rw [if_neg hzero]
    dsimp only
    split
    · have hbeyond : beyond * tenTo (-exponent).toNat ≤ coefficient * tenTo exponent.toNat :=
        beyond_le_of_le beyond_le hlow (by omega)
      rw [and_iff_left hbeyond, infinite.injEq]
    · split
      · have hwithin : coefficient * tenTo exponent.toNat < beyond * tenTo (-exponent).toNat :=
          lt_beyond_of_le hhigh (by omega)
        exact ⟨nofun, fun h => absurd h.2 (Nat.not_le.mpr hwithin)⟩
      · exact ofRatio_eq_infinite_iff (ten_pow_pos _)

end Decimals

/-! ## Texts -/

section Texts

variable {text : String} {negative other : Bool} {magnitude : List Char}

/-- The text writes a decimal behind a sign or none, as people write numbers. -/
def WritesDecimal (text : String) (negative : Bool) (coefficient : Nat) (exponent : Int) : Prop :=
  ∃ plain digits, plain? text = some plain ∧ signed plain = (negative, digits) ∧
    Decimal digits coefficient exponent

theorem not_decimal_of_isAlpha (h : ∀ c ∈ magnitude, c.isAlpha = true) (coefficient : Nat)
    (exponent : Int) : ¬ Decimal magnitude coefficient exponent := by
  intro hdecimal
  obtain ⟨c, hc, hdigit⟩ := hdecimal.exists_isDigit
  rw [(isMark_of_isAlpha (h c hc)).digit] at hdigit
  cases hdigit

theorem readSigned_eq_infinite_iff :
    readSigned negative magnitude = some (.infinite other) ↔ negative = other ∧
      (magnitude.map Char.toLower = "inf".toList ∨ magnitude.map Char.toLower = "infinity".toList ∨
        ∃ coefficient exponent, Decimal magnitude coefficient exponent ∧
          IsBeyond coefficient exponent) := by
  have hmagnitude : readMagnitude negative magnitude = some (.infinite other) ↔
      negative = other ∧ ∃ coefficient exponent, Decimal magnitude coefficient exponent ∧
        IsBeyond coefficient exponent := by
    rw [readMagnitude_eq_some_iff]
    constructor
    · rintro ⟨coefficient, exponent, hdecimal, hvalue⟩
      obtain ⟨hsign, hbeyond⟩ := ofDecimal_eq_infinite_iff.mp hvalue.symm
      exact ⟨hsign, coefficient, exponent, hdecimal, hbeyond⟩
    · rintro ⟨hsign, coefficient, exponent, hdecimal, hbeyond⟩
      exact ⟨coefficient, exponent, hdecimal,
        (ofDecimal_eq_infinite_iff.mpr ⟨hsign, hbeyond⟩).symm⟩
  rw [← ofList_eq_iff, ← ofList_eq_iff]
  unfold readSigned
  dsimp only
  split
  · rename_i hword
    simp only [Bool.or_eq_true, decide_eq_true_eq] at hword
    rw [Option.some.injEq, infinite.injEq, ← or_assoc, and_iff_left (Or.inl hword)]
  · rename_i hword
    simp only [Bool.or_eq_true, decide_eq_true_eq, not_or] at hword
    rw [or_iff_right hword.1, or_iff_right hword.2]
    split
    · rename_i hnan
      have halpha := isAlpha_of_map_toLower (by decide) (ofList_eq_iff.mp hnan)
      refine ⟨nofun, ?_⟩
      rintro ⟨-, coefficient, exponent, hdecimal, -⟩
      exact absurd hdecimal (not_decimal_of_isAlpha halpha coefficient exponent)
    · exact hmagnitude

/-- **A text is read as infinite exactly if it spells a word for it or writes a decimal out of
range.** -/
theorem read?_eq_infinite_iff :
    read? text = some (.infinite negative) ↔
      SpellsWord "inf" text negative ∨ SpellsWord "infinity" text negative ∨
        ∃ coefficient exponent, WritesDecimal text negative coefficient exponent ∧
          IsBeyond coefficient exponent := by
  rw [read?_eq_some_iff, spellsWord_iff (by decide) (by decide),
    spellsWord_iff (by decide) (by decide)]
  simp only [readSigned_eq_infinite_iff]
  constructor
  · rintro ⟨plain, _, magnitude, hplain, hsigned, rfl, hinf | hinfinity | ⟨c, e, hdecimal, hbeyond⟩⟩
    · exact Or.inl ⟨plain, magnitude, hplain, hsigned, hinf⟩
    · exact Or.inr (Or.inl ⟨plain, magnitude, hplain, hsigned, hinfinity⟩)
    · exact Or.inr (Or.inr ⟨c, e, ⟨plain, magnitude, hplain, hsigned, hdecimal⟩, hbeyond⟩)
  · rintro (⟨plain, magnitude, hplain, hsigned, hinf⟩ | ⟨plain, magnitude, hplain, hsigned, hinf⟩ |
      ⟨c, e, ⟨plain, magnitude, hplain, hsigned, hdecimal⟩, hbeyond⟩)
    · exact ⟨plain, negative, magnitude, hplain, hsigned, rfl, Or.inl hinf⟩
    · exact ⟨plain, negative, magnitude, hplain, hsigned, rfl, Or.inr (Or.inl hinf)⟩
    · exact ⟨plain, negative, magnitude, hplain, hsigned, rfl,
        Or.inr (Or.inr ⟨c, e, hdecimal, hbeyond⟩)⟩

end Texts

/-! ## Numbers of the format -/

/-- The number is not beyond the largest finite one, unless it is infinite. -/
def InRange (x : Binary64) : Prop :=
  ∀ negative units, x = .finite negative units → units < overflowUnits

theorem inRange_infinite (negative : Bool) : (infinite negative).InRange := nofun

theorem inRange_nan : nan.InRange := nofun

theorem inRange_zero (negative : Bool) : (finite negative 0).InRange := by
  rintro _ _ ⟨⟩
  decide +kernel

theorem inRange_ofUnits (negative : Bool) (num den : Nat) : (ofUnits negative num den).InRange := by
  rw [ofUnits_eq]
  by_cases h : overflowUnits ≤ roundsTo num den
  · rw [if_pos h]
    exact inRange_infinite negative
  · rw [if_neg h]
    rintro _ _ ⟨⟩
    exact Nat.not_le.mp h

theorem inRange_ofDecimal (negative : Bool) (coefficient : Nat) (exponent : Int) :
    (ofDecimal negative coefficient exponent).InRange := by
  unfold ofDecimal
  split
  · exact inRange_zero negative
  · dsimp only
    split
    · exact inRange_infinite negative
    · split
      · exact inRange_zero negative
      · exact inRange_ofUnits _ _ _

/-- Every text that is read gives a number of the format. -/
theorem inRange_of_read? {text : String} {value : Binary64} (h : read? text = some value) :
    value.InRange := by
  obtain ⟨plain, negative, magnitude, -, -, hvalue⟩ := read?_eq_some_iff.mp h
  unfold readSigned at hvalue
  dsimp only at hvalue
  split at hvalue
  · cases hvalue
    exact inRange_infinite negative
  · split at hvalue
    · cases hvalue
      exact inRange_nan
    · obtain ⟨coefficient, exponent, -, rfl⟩ := readMagnitude_eq_some_iff.mp hvalue
      exact inRange_ofDecimal _ _ _

/-- Scaling down keeps what is finite. -/
theorem isFinite_mul_iff {x : Binary64} (hx : x.InRange) {scale : Nat} (hpos : scale ≠ 0)
    (hscale : overflowUnits * scale ≤ beyondUnits * unitsPerOne) :
    (x * finite false scale).IsFinite ↔ x.IsFinite := by
  cases x with
  | nan => exact iff_of_false id id
  | infinite negative =>
    have hproduct : infinite negative * finite false scale = infinite (negative != false) :=
      if_neg hpos
    rw [hproduct]
    exact iff_of_false id id
  | finite negative units =>
    have hproduct : finite negative units * finite false scale =
        ofUnits (negative != false) (units * scale) unitsPerOne := by
      show mul (finite negative units) (finite false scale) = _
      rw [mul]
    have hunits : units * scale < overflowUnits * scale :=
      Nat.mul_lt_mul_of_pos_right (hx _ _ rfl) (Nat.pos_of_ne_zero hpos)
    have hlt : units * scale < beyondUnits * unitsPerOne := Nat.lt_of_lt_of_le hunits hscale
    have hwithin : ¬ overflowUnits ≤ roundsTo (units * scale) unitsPerOne := by
      rw [overflowUnits_le_iff pos_unitsPerOne]
      exact Nat.not_le.mpr hlt
    rw [hproduct, ofUnits_eq, if_neg hwithin]
    exact iff_of_true True.intro True.intro

end Binary64

/-- The largest finite number is `2 ^ 1024 - 2 ^ 971`; the middle of the step behind it is already
read as infinite. -/
example : Binary64.IsBeyond 18 307 ∧ ¬ Binary64.IsBeyond 17976931348623157 292 := by
  decide +kernel

end FlowAtlas
