import FlowAtlas.Number.Binary64
import FlowAtlas.Number.Numeral

/-!
# Decimal texts of floating-point numbers

Reading: an optional sign, digits with an optional point and an optional power of ten, or one of the
words `inf`, `infinity` and `nan` in any letter case.  The nearest number is taken.

Writing has two forms.  `fixed` writes the exact value to a number of places, a half going to the
even neighbour.  `shortest` writes the fewest digits that read back, of those the nearest to the
value; it is positional where the point falls within the 16 digits behind or the three zeros before
them, and has a power of ten of at least two digits elsewhere.
-/

namespace FlowAtlas

namespace Binary64

/-! ## Reading -/

/-- The whole numeral as a sequence of digits with a power of ten, its sign taken off. -/
def readPower (negative : Bool) (digits : List Char) (places : Nat) :
    List Char → Option Binary64
  | [] => some (ofDecimal negative (Numeral.ofDigits digits) (-(places : Int)))
  | mark :: rest =>
    let (down, power) := Numeral.signed rest
    if (mark = 'e' || mark = 'E') && !power.isEmpty && power.all Char.isDigit then
      let p : Int := Numeral.ofDigits power
      some (ofDecimal negative (Numeral.ofDigits digits) ((if down then -p else p) - places))
    else none

/-- A decimal number without sign. -/
def readMagnitude (negative : Bool) (text : List Char) : Option Binary64 :=
  let whole := text.takeWhile Char.isDigit
  match text.dropWhile Char.isDigit with
  | '.' :: rest =>
    let part := rest.takeWhile Char.isDigit
    if whole.isEmpty && part.isEmpty then none
    else readPower negative (whole ++ part) part.length (rest.dropWhile Char.isDigit)
  | rest => if whole.isEmpty then none else readPower negative whole 0 rest

/-- The number that a text denotes. -/
def read? (text : String) : Option Binary64 := do
  let (negative, magnitude) := Numeral.signed (← Numeral.plain? text)
  let word := String.ofList (magnitude.map Char.toLower)
  if word = "inf" || word = "infinity" then some (.infinite negative)
  else if word = "nan" then some .nan
  else readMagnitude negative magnitude

/-! ## Fixed places -/

/-- The sign of a text that starts with it. -/
def signText (negative : Bool) : String := if negative then "-" else ""

/-- A count of units of `10 ^ -places`, with the point. -/
def pointed (places count : Nat) : String :=
  let digits := Nat.toDigits 10 count
  let padded := List.replicate (places + 1 - digits.length) '0' ++ digits
  String.ofList (padded.take (padded.length - places)) ++ "." ++
    String.ofList (padded.drop (padded.length - places))

/-- The value to a positive number of places, a half going to the even neighbour. -/
def fixed (places : Nat) : Binary64 → String
  | .finite negative units =>
    signText negative ++ pointed places (roundQuotient (units * tenTo places) unitsPerOne)
  | .infinite negative => signText negative ++ "inf"
  | .nan => "nan"

/-! ## Fewest digits -/

/-- The numbers that read back as a given one, in quarters of a unit: from `low` to `high`, the ends
counted if the significand is even. -/
structure Span where
  low : Nat
  high : Nat
  ends : Bool

/-- The span of a positive number of units.  Below a power of two the grid is twice as fine. -/
def span (units : Nat) : Span :=
  let k := shift units
  let significand := units / twoTo k
  let below := if significand = twoTo 52 && 0 < k then twoTo k else 2 * twoTo k
  ⟨4 * units - below, 4 * units + 2 * twoTo k, significand % 2 = 0⟩

/-- Whether `count * 10 ^ power` lies in the span. -/
def Span.holds (s : Span) (count : Nat) (power : Int) : Bool :=
  let value := count * tenTo power.toNat * (4 * unitsPerOne)
  let scale := tenTo (-power).toNat
  if s.ends then s.low * scale ≤ value && value ≤ s.high * scale
  else s.low * scale < value && value < s.high * scale

/-- The place of the point: a positive number of units is below `10 ^ point` and at least a tenth
of it. -/
def point (units : Nat) : Int :=
  ((Nat.toDigits 10 (units * tenTo 400 / unitsPerOne)).length : Int) - 400

/-- The multiple of `10 ^ power` nearest to the number among its two neighbours that read back. -/
def neighbour? (units : Nat) (power : Int) : Option Nat :=
  let num := units * tenTo (-power).toNat
  let den := unitsPerOne * tenTo power.toNat
  let low := num / den
  match (span units).holds low power, (span units).holds (low + 1) power with
  | true, true => some (roundQuotient num den)
  | true, false => some low
  | false, true => some (low + 1)
  | false, false => none

/-- The fewest digits that read back: a whole number and the power of ten that it counts. -/
def fewest (units : Nat) : Nat × Int :=
  let powers := (List.range 17).map fun n => point units - (n + 1 : Nat)
  let found := powers.findSome? fun power => (neighbour? units power).map fun d => (d, power)
  found.getD (units, -1074)

/-- Digits with the point behind the first `place` of them. -/
def positional (digits : List Char) (place : Int) : String :=
  if place ≤ 0 then
    "0." ++ String.ofList (List.replicate (-place).toNat '0' ++ digits)
  else
    let whole := digits.take place.toNat
    let part := digits.drop place.toNat
    String.ofList (whole ++ List.replicate (place.toNat - whole.length) '0') ++ "." ++
      (if part.isEmpty then "0" else String.ofList part)

/-- Digits with the point behind the first and a power of ten. -/
def scientific (digits : List Char) (power : Int) : String :=
  let size := Nat.toDigits 10 power.natAbs
  String.ofList (digits.take 1) ++ (if digits.length ≤ 1 then "" else ".") ++
    String.ofList (digits.drop 1) ++ "e" ++ (if power < 0 then "-" else "+") ++
    String.ofList (List.replicate (2 - size.length) '0' ++ size)

/-- The text of the fewest digits that read back. -/
def shortest : Binary64 → String
  | .finite negative units =>
    if units = 0 then signText negative ++ "0.0"
    else
      let (count, power) := fewest units
      let all := Nat.toDigits 10 count
      let place := (all.length : Int) + power
      let digits := Text.dropEnd (· = '0') all
      signText negative ++
        (if -4 < place && place ≤ 16 then positional digits place
         else scientific digits (place - 1))
  | .infinite negative => signText negative ++ "inf"
  | .nan => "nan"

end Binary64

end FlowAtlas
