import FlowAtlas.Number.Numeral
import FlowAtlas.Number.Power

/-!
# Whole numbers in texts, and 64-bit identifiers

Identifiers of game data are 64-bit numbers that some files write signed and others unsigned.
`unsigned64` brings the signed form of an identifier into the unsigned one and leaves every other
text alone.
-/

namespace FlowAtlas

/-- The longest digit string that is read as a whole number. -/
def maxDigits : Nat := 4300

/-- The whole number that a text denotes. -/
def readInteger? (text : String) : Option Int := do
  let (negative, digits) := Numeral.signed (← Numeral.plain? text)
  if digits.isEmpty || !digits.all Char.isDigit || maxDigits < digits.length then none
  else
    let n := Numeral.ofDigits digits
    some (if negative then -(n : Int) else n)

/-- How many values 64 bits have. -/
def modulus64 : Nat := twoTo 64

/-- The unsigned form of an identifier: a text that starts with a minus and denotes a number is
replaced by that number modulo `2 ^ 64`. -/
def unsigned64 (text : String) : String :=
  if text.toList.head? = some '-' then
    match readInteger? text with
    | some n => Text.decimal (n % modulus64).toNat
    | none => text
  else text

end FlowAtlas
