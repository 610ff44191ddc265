/-!
# Searching and cutting texts

Occurrence of one text in another, splitting at a character, and cutting to a length that may
count from the end.
-/

namespace FlowAtlas.Text

/-- Whether the characters `word` occur in a row in the given characters. -/
def occursIn (word : List Char) : List Char → Bool
  | [] => word.isEmpty
  | c :: rest => word.isPrefixOf (c :: rest) || occursIn word rest

/-- Whether `word` occurs in `text`. -/
def hasWord (text word : String) : Bool := occursIn word.toList text.toList

/-- Whether `text` ends in `word`. -/
def endsIn (text word : String) : Bool := word.toList.isSuffixOf text.toList

/-- The pieces between the occurrences of a separator; always at least one. -/
def splitAtEach (separator : Char) : List Char → List (List Char)
  | [] => [[]]
  | c :: rest =>
    if c = separator then [] :: splitAtEach separator rest
    else
      match splitAtEach separator rest with
      | [] => [[c]]
      | piece :: pieces => (c :: piece) :: pieces

/-- The first `n` characters for `n ≥ 0`, all but the last `-n` for `n < 0`. -/
def cut (n : Int) (text : String) : String :=
  match n with
  | .ofNat k => String.ofList (text.toList.take k)
  | .negSucc k => String.ofList (text.toList.take (text.toList.length - (k + 1)))

/-- A text that may be absent, shown as the word `None` where it is. -/
def orNone : Option String → String
  | some text => text
  | none => "None"

theorem splitAtEach_ne_nil (separator : Char) (text : List Char) :
    splitAtEach separator text ≠ [] := by
  induction text with
  | nil => simp [splitAtEach]
  | cons c rest ih =>
    rw [splitAtEach]
    split
    · simp
    · split <;> simp

end FlowAtlas.Text
