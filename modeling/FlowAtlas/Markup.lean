import FlowAtlas.Data.OrderedMap

/-!
# Record lines

A record is one line of markup, read leniently: its tag is the first run of letters between `<` and
a space, and its attributes are all places of the form `key="value"`, found from left to right
without overlap.  A value with a character outside `isValueChar` is no value, and its place yields
nothing.
-/

namespace FlowAtlas

namespace Markup

/-- ASCII letters and the underscore. -/
def isKeyChar (c : Char) : Bool := c.isAlpha || c = '_'

/-- ASCII letters and digits, the space, and `@ & ; , - . / : _`. -/
def isValueChar (c : Char) : Bool :=
  c.isAlphanum || ['@', '&', ';', ',', '-', '.', '/', ':', '_', ' '].contains c

/-! ## Tags -/

/-- The tag that starts here, if one does. -/
def tagAt : List Char → Option (List Char)
  | '<' :: rest =>
    if (rest.dropWhile Char.isAlpha).head? = some ' ' then some (rest.takeWhile Char.isAlpha)
    else none
  | _ => none

/-- The first tag of a text. -/
def firstTag : List Char → Option (List Char)
  | [] => none
  | c :: rest => (tagAt (c :: rest)).or (firstTag rest)

/-- The tag of a line, empty if it has none. -/
def tag (line : String) : String := String.ofList ((firstTag line.toList).getD [])

/-! ## Attributes -/

/-- One place of the form `key="value"` and the text behind it. -/
structure Place where
  key : List Char
  value : List Char
  rest : List Char
deriving DecidableEq

/-- The place that starts here, if one does. -/
def placeAt (text : List Char) : Option Place :=
  match text.dropWhile isKeyChar with
  | '=' :: '"' :: more =>
    match more.dropWhile isValueChar with
    | '"' :: rest => some ⟨text.takeWhile isKeyChar, more.takeWhile isValueChar, rest⟩
    | _ => none
  | _ => none

theorem length_dropWhile_le (p : Char → Bool) (text : List Char) :
    (text.dropWhile p).length ≤ text.length := by
  induction text with
  | nil => simp
  | cons c rest ih =>
    rw [List.dropWhile_cons]
    split
    · simp only [List.length_cons]; omega
    · simp

theorem length_rest_lt {text : List Char} {place : Place} (h : placeAt text = some place) :
    place.rest.length < text.length := by
  unfold placeAt at h
  split at h
  · rename_i more hmore
    split at h
    · rename_i rest hrest
      cases h
      have h₁ := length_dropWhile_le isKeyChar text
      have h₂ := length_dropWhile_le isValueChar more
      rw [hmore] at h₁
      rw [hrest] at h₂
      simp only [List.length_cons] at h₁ h₂ ⊢
      omega
    · cases h
  · cases h

/-- All places of a text from left to right; the search goes on behind a place that was found. -/
def places (text : List Char) : List Place :=
  match text with
  | [] => []
  | c :: rest =>
    match _h : placeAt (c :: rest) with
    | some place => place :: places place.rest
    | none => places rest
termination_by text.length
decreasing_by
  · exact length_rest_lt _h
  · simp

/-- An attribute as it is filed: keys have no letter case. -/
def Place.entry (place : Place) : String × String :=
  (String.ofList (place.key.map Char.toLower), String.ofList place.value)

end Markup

/-- The attributes of a record by lower-case key. -/
abbrev Attributes := OrderedMap String String

/-- The attributes of a line; of several with one key the last counts. -/
def Markup.attributes (line : String) : Attributes :=
  .ofList ((Markup.places line.toList).map Markup.Place.entry)

end FlowAtlas
