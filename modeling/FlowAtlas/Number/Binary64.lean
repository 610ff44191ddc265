import FlowAtlas.Number.Power

/-!
# Binary floating-point numbers of 64 bits

Every finite number of the format is a whole multiple of `2 ^ -1074`, so it is held as a sign and a
number of such units; a zero keeps its sign.  Arithmetic is exact on the units and rounds once, to
the nearest number of the format and in a tie to the one with an even significand (IEEE 754).
-/

namespace FlowAtlas

/-- `num / den` rounded to a whole number, halves to the even neighbour. -/
def roundQuotient (num den : Nat) : Nat :=
  let q := num / den
  let twice := 2 * (num % den)
  if twice < den then q
  else if den < twice then q + 1
  else if q % 2 = 0 then q else q + 1

/-- A number of the format. -/
inductive Binary64
  /-- The number of `units`, each `2 ^ -1074`. -/
  | finite (negative : Bool) (units : Nat)
  | infinite (negative : Bool)
  | nan
deriving DecidableEq

namespace Binary64

/-- How many units make one. -/
def unitsPerOne : Nat := twoTo 1074

/-- One unit more than the largest finite number would need. -/
def overflowUnits : Nat := twoTo 2098

/-- How many low bits of the units are zero because the significand has 53 bits. -/
def shift (units : Nat) : Nat := if units = 0 then 0 else units.log2 + 1 - 53

/-- The number nearest to `num / den` units. -/
def ofUnits (negative : Bool) (num den : Nat) : Binary64 :=
  let step := twoTo (shift (num / den))
  let units := roundQuotient num (den * step) * step
  if overflowUnits ≤ units then .infinite negative else .finite negative units

/-- Positive zero. -/
def zero : Binary64 := .finite false 0

instance : Inhabited Binary64 := ⟨zero⟩

/-- The number nearest to `num / den`. -/
def ofRatio (negative : Bool) (num den : Nat) : Binary64 :=
  ofUnits negative (num * unitsPerOne) den

/-- The number nearest to `coefficient * 10 ^ exponent`.  Beyond `10 ^ 310` and below `10 ^ -330`
the power is not computed: the result is infinite or zero there. -/
def ofDecimal (negative : Bool) (coefficient : Nat) (exponent : Int) : Binary64 :=
  if coefficient = 0 then .finite negative 0
  else
    let magnitude := ((Nat.toDigits 10 coefficient).length : Int) + exponent
    if 310 < magnitude then .infinite negative
    else if magnitude < -330 then .finite negative 0
    else ofRatio negative (coefficient * tenTo exponent.toNat) (tenTo (-exponent).toNat)

/-- The product, rounded once; infinity times zero is no number. -/
def mul : Binary64 → Binary64 → Binary64
  | .finite s u, .finite t v => ofUnits (s != t) (u * v) unitsPerOne
  | .infinite s, .infinite t => .infinite (s != t)
  | .infinite s, .finite t v => if v = 0 then .nan else .infinite (s != t)
  | .finite s u, .infinite t => if u = 0 then .nan else .infinite (s != t)
  | .nan, _ => .nan
  | _, .nan => .nan

instance : Mul Binary64 := ⟨mul⟩

/-- Whether the number is at most zero; false of what is no number. -/
def isAtMostZero : Binary64 → Bool
  | .finite negative units => negative || units = 0
  | .infinite negative => negative
  | .nan => false

/-- Whether the number is greater than zero; false of what is no number. -/
def isPositive : Binary64 → Bool
  | .finite negative units => !negative && units ≠ 0
  | .infinite negative => !negative
  | .nan => false

/-- The 64 bits of the number in the interchange format, all kinds of NaN being one. -/
def bits : Binary64 → Nat
  | .finite negative units =>
    let k := shift units
    (if negative then twoTo 63 else 0) + k * twoTo 52 + units / twoTo k
  | .infinite negative => (if negative then twoTo 63 else 0) + 0x7ff * twoTo 52
  | .nan => 0x7ff * twoTo 52 + twoTo 51

end Binary64

end FlowAtlas
