import FlowAtlas.Text.Blank
import FlowAtlas.Text.Digit

/-!
# Numerals as people write them

Common ground of whole and decimal numbers in texts: blanks may stand around the number, its digits
may be of any script, and an underscore may stand between two digits.
-/

namespace FlowAtlas.Numeral

/-- A character of a numeral in ASCII: digits of other scripts and blanks are carried over, other
characters outside ASCII belong to no numeral. -/
def plainChar? (c : Char) : Option Char :=
  if c.toNat < 0x7f then some c
  else if Text.isSpace c then some ' '
  else (Text.digitValue? c).map Text.digitChar

/-- Drop the underscores that stand between two digits; any other underscore spoils the text.  The
flag tells whether a digit went before. -/
def withoutUnderscores : Bool → List Char → Option (List Char)
  | _, [] => some []
  | _, ['_'] => none
  | afterDigit, '_' :: c :: rest =>
    if afterDigit && c.isDigit then (withoutUnderscores true rest).map (c :: ·) else none
  | _, c :: rest => (withoutUnderscores c.isDigit rest).map (c :: ·)

/-- The numeral in ASCII, without blanks around it and underscores between its digits. -/
def plain? (text : String) : Option (List Char) := do
  let chars ← text.toList.mapM plainChar?
  withoutUnderscores false (Text.trim Text.isAsciiSpace chars)

/-- The number of a list of ASCII digits. -/
def ofDigits (digits : List Char) : Nat :=
  digits.foldl (fun n c => 10 * n + (c.toNat - 48)) 0

/-- Take an optional sign off; `true` means minus. -/
def signed : List Char → Bool × List Char
  | '-' :: rest => (true, rest)
  | '+' :: rest => (false, rest)
  | text => (false, text)

end FlowAtlas.Numeral
