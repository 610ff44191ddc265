import FlowAtlas.Proofs.Markup.Values
import FlowAtlas.Text.Blank

/-!
# Attributes that are read back

A record spells its attributes one behind the other, each key in any letter case and each value in
quotes.  If the keys and values are made of the characters that they may have, then every attribute
is found where it is spelled, and nothing else is.

Main facts: `Spells.map_entry_places` and `Spells.attributes_eq`.
-/

namespace FlowAtlas

namespace Text

/-- Whether characters are all blank. -/
def IsBlank (text : List Char) : Prop := ∀ c ∈ text, isMargin c = true

instance (text : List Char) : Decidable (IsBlank text) :=
  decidable_of_iff (text.all isMargin = true) List.all_eq_true

theorem IsBlank.not_mem {text : List Char} (h : IsBlank text) {c : Char}
    (hc : isMargin c = false) : c ∉ text := by
  intro hmem
  rw [h c hmem] at hc
  cases hc

end Text

namespace Markup

open Text (IsBlank)

/-- Whether a text is a key as it is filed, which is made of lower-case letters and underscores. -/
def IsKey (key : String) : Prop := ∀ c ∈ key.toList, c.isLower = true ∨ c = '_'

instance (key : String) : Decidable (IsKey key) :=
  decidable_of_iff ((key.toList.all fun c => c.isLower || c = '_') = true) (by simp [IsKey])

instance (text : String) : Decidable (IsValue text) :=
  decidable_of_iff (text.toList.all isValueChar = true) List.all_eq_true

/-- Attributes with keys and values that can be spelled. -/
def Spellable (attributes : List (String × String)) : Prop :=
  ∀ a ∈ attributes, IsKey a.1 ∧ IsValue a.2

instance (attributes : List (String × String)) : Decidable (Spellable attributes) :=
  inferInstanceAs (Decidable (∀ a ∈ attributes, IsKey a.1 ∧ IsValue a.2))

theorem Spellable.perm {attributes attributes' : List (String × String)}
    (h : Spellable attributes') (horder : attributes.Perm attributes') : Spellable attributes :=
  fun a ha => h a (horder.mem_iff.mp ha)

theorem IsKey.not_mem {key : String} (h : IsKey key) {c : Char} (hlower : c.isLower = false)
    (hunderscore : c ≠ '_') : c ∉ key.toList := by
  intro hmem
  rcases h c hmem with hc | hc
  · rw [hlower] at hc
    cases hc
  · exact hunderscore hc

/-- The characters spell the attributes in order, each behind any blanks and its key in any letter
case. -/
inductive Spells : List (String × String) → List Char → Prop
  | nil {blanks : List Char} (hblanks : IsBlank blanks) : Spells [] blanks
  | cons {blanks key text : List Char} {name value : String} {rest : List (String × String)}
      (hblanks : IsBlank blanks) (hkey : key.map Char.toLower = name.toList)
      (hrest : Spells rest text) :
      Spells ((name, value) :: rest)
        (blanks ++ (key ++ '=' :: '"' :: (value.toList ++ '"' :: text)))

/-- An attribute as it is spelled. -/
structure Spelling where
  blanks : String
  key : String
  value : String

/-- The characters of spelled attributes. -/
def Spelling.text (spellings : List Spelling) : List Char :=
  spellings.flatMap fun s =>
    s.blanks.toList ++ (s.key.toList ++ '=' :: '"' :: (s.value.toList ++ ['"']))

/-- The attribute that is spelled. -/
def Spelling.attribute (s : Spelling) : String × String :=
  (String.ofList (s.key.toList.map Char.toLower), s.value)

theorem spells_text {spellings : List Spelling} (h : ∀ s ∈ spellings, IsBlank s.blanks.toList) :
    Spells (spellings.map Spelling.attribute) (Spelling.text spellings) := by
  induction spellings with
  | nil => exact Spells.nil (by decide)
  | cons s spellings ih =>
    have htext : Spelling.text (s :: spellings) = s.blanks.toList ++ (s.key.toList ++
        '=' :: '"' :: (s.value.toList ++ '"' :: Spelling.text spellings)) := by
      simp [Spelling.text]
    rw [htext]
    refine Spells.cons (h s (List.mem_cons_self ..)) String.toList_ofList.symm ?_
    exact ih fun other hother => h other (List.mem_cons_of_mem _ hother)

/-! ## Characters -/

/-- A key character is a letter or the underscore, so it is no blank. -/
theorem isKeyChar_of_isMargin {c : Char} (h : Text.isMargin c = true) : isKeyChar c = false := by
  have hrange : c.toNat ≤ 32 ∨ 127 < c.toNat := by
    unfold Text.isMargin Text.isSpace at h
    simp only [Bool.or_eq_true, Bool.and_eq_true, decide_eq_true_eq] at h
    omega
  rw [Bool.eq_false_iff]
  intro hkey
  rcases isKeyChar_iff.mp hkey with hupper | hlower | rfl
  · have hletter := isUpper_iff.mp hupper
    omega
  · have hletter := isLower_iff.mp hlower
    omega
  · revert hrange
    decide

/-- What a key character is lower-case of is one, too. -/
theorem isKeyChar_of_toLower {c : Char} (h : c.toLower.isLower = true ∨ c.toLower = '_') :
    isKeyChar c = true := by
  rw [isKeyChar_iff]
  by_cases hupper : c.isUpper = true
  · exact Or.inl hupper
  · rw [toLower_of_not_isUpper hupper] at h
    exact Or.inr h

/-- A key has no letter case to lose. -/
theorem IsKey.map_toLower {key : String} (h : IsKey key) :
    key.toList.map Char.toLower = key.toList := by
  refine (List.map_congr_left fun c hc => ?_).trans (List.map_id _)
  apply toLower_of_not_isUpper
  rw [isUpper_iff]
  rcases h c hc with hlower | rfl
  · have hletter := isLower_iff.mp hlower
    omega
  · decide

theorem isKeyChar_of_spelled {key : List Char} {name : String}
    (hkey : key.map Char.toLower = name.toList) (hname : IsKey name) :
    ∀ c ∈ key, isKeyChar c = true := by
  intro c hc
  apply isKeyChar_of_toLower
  apply hname
  rw [← hkey]
  exact List.mem_map_of_mem hc

/-! ## Places -/

/-- No place starts where the run of key characters does not end in an equals sign. -/
theorem placeAt_eq_none {text : List Char} (h : (text.dropWhile isKeyChar).head? ≠ some '=') :
    placeAt text = none := by
  unfold placeAt
  split
  · rename_i hmore
    rw [hmore] at h
    exact absurd rfl h
  · rfl

theorem places_of_placeAt {text : List Char} {place : Place} (h : placeAt text = some place) :
    places text = place :: places place.rest := by
  cases text with
  | nil => cases h
  | cons c rest => exact places_cons_of_some h

/-- Without an equals sign there are no places. -/
theorem places_eq_nil {text : List Char} (h : '=' ∉ text) : places text = [] := by
  induction text with
  | nil => rw [places]
  | cons c rest ih =>
    have hnone : placeAt (c :: rest) = none := by
      refine placeAt_eq_none fun hhead => h ?_
      exact (List.dropWhile_suffix _).subset (List.mem_of_head? hhead)
    rw [places_cons_of_none hnone]
    exact ih fun hmem => h (List.mem_cons_of_mem c hmem)

/-- What is left of a text behind a run of a class begins in a front with a stranger to it. -/
theorem dropWhile_append_of_stranger {p : Char → Bool} {front : List Char} {c : Char}
    (hc : c ∈ front) (hstranger : p c = false) (rest : List Char) :
    ∃ d back, front.dropWhile p = d :: back ∧ d ∈ front ∧
      (front ++ rest).dropWhile p = d :: (back ++ rest) := by
  have hstop : front.dropWhile p ≠ [] := by
    intro hnil
    rw [List.dropWhile_eq_nil_iff.mp hnil c hc] at hstranger
    cases hstranger
  obtain ⟨d, back, hback⟩ := List.exists_cons_of_ne_nil hstop
  have hmem : d ∈ front := by
    apply (List.dropWhile_suffix p).subset
    rw [hback]
    exact List.mem_cons_self
  have hdrop : (front ++ rest).dropWhile p = d :: (back ++ rest) := by
    rw [List.dropWhile_append, hback]
    rfl
  exact ⟨d, back, hback, hmem, hdrop⟩

/-- No place starts in a front without equals signs, if no key can begin in it. -/
theorem placeAt_append_eq_none {front : List Char} (heq : '=' ∉ front) {last : Char}
    (hmem : last ∈ front) (hlast : isKeyChar last = false) (text : List Char) :
    placeAt (front ++ text) = none := by
  obtain ⟨c, back, -, hc, hdrop⟩ := dropWhile_append_of_stranger hmem hlast text
  apply placeAt_eq_none
  rw [hdrop, List.head?_cons]
  intro hhead
  exact heq (Option.some.inj hhead ▸ hc)

theorem places_append {front : List Char} (heq : '=' ∉ front)
    (hlast : ∀ c ∈ front.getLast?, isKeyChar c = false) (text : List Char) :
    places (front ++ text) = places text := by
  induction front with
  | nil => rfl
  | cons c front ih =>
    have hd := List.getLast?_eq_some_getLast (List.cons_ne_nil c front)
    have hnone : placeAt (c :: (front ++ text)) = none :=
      placeAt_append_eq_none heq (List.mem_of_getLast? hd) (hlast _ hd) text
    rw [List.cons_append, places_cons_of_none hnone]
    refine ih (fun hmem => heq (List.mem_cons_of_mem c hmem)) fun d hd => ?_
    exact hlast d (by rw [List.getLast?_cons, Option.mem_def.mp hd]; rfl)

theorem places_blanks_append {blanks : List Char} (h : IsBlank blanks) (text : List Char) :
    places (blanks ++ text) = places text :=
  Markup.places_append (h.not_mem (by decide))
    (fun _ hc => isKeyChar_of_isMargin (h _ (List.mem_of_getLast? hc))) text

theorem span_append_cons {p : Char → Bool} {run : List Char} (hrun : ∀ c ∈ run, p c = true)
    {c : Char} (hc : p c = false) (rest : List Char) :
    (run ++ c :: rest).takeWhile p = run ∧ (run ++ c :: rest).dropWhile p = c :: rest :=
  Text.span_append hrun (by simpa using hc)

/-- A key in front of a value in quotes is a place. -/
theorem placeAt_of_chars {key value : List Char} (hkey : ∀ c ∈ key, isKeyChar c = true)
    (hvalue : ∀ c ∈ value, isValueChar c = true) (rest : List Char) :
    placeAt (key ++ '=' :: '"' :: (value ++ '"' :: rest)) = some ⟨key, value, rest⟩ := by
  have hequals : isKeyChar '=' = false := by decide
  have hquote : isValueChar '"' = false := by decide
  obtain ⟨htake, hdrop⟩ := span_append_cons hkey hequals ('"' :: (value ++ '"' :: rest))
  obtain ⟨htakeValue, hdropValue⟩ := span_append_cons hvalue hquote rest
  unfold placeAt
  simp only [htake, hdrop, htakeValue, hdropValue]

/-- A spelled attribute is the place that starts at its key. -/
theorem placeAt_attribute {key : List Char} {value : String} (hkey : ∀ c ∈ key, isKeyChar c = true)
    (hvalue : IsValue value) (rest : List Char) :
    placeAt (key ++ '=' :: '"' :: (value.toList ++ '"' :: rest)) =
      some ⟨key, value.toList, rest⟩ :=
  placeAt_of_chars hkey hvalue rest

/-! ## Reading back -/

/-- **Spelled attributes are found where they are spelled, and nothing else is.** -/
theorem Spells.map_entry_places {attributes : List (String × String)} {text : List Char}
    (h : Spells attributes text) (hspellable : Spellable attributes) {back : List Char}
    (hback : '=' ∉ back) : (places (text ++ back)).map Place.entry = attributes := by
  induction h with
  | nil hblanks =>
    rw [places_blanks_append hblanks, places_eq_nil hback]
    rfl
  | @cons blanks key text name value rest hblanks hkey hrest ih =>
    obtain ⟨hname, hvalue⟩ := hspellable (name, value) (List.mem_cons_self ..)
    have hkeys := isKeyChar_of_spelled hkey hname
    have hplace := places_of_placeAt (placeAt_attribute hkeys hvalue (text ++ back))
    have hentry : Place.entry ⟨key, value.toList, text ++ back⟩ = (name, value) := by
      unfold Place.entry
      rw [hkey, String.ofList_toList, String.ofList_toList]
    -- the key starts afresh, behind blanks or where the search goes on behind the last value
    rw [List.append_assoc, places_blanks_append hblanks]
    simp only [List.append_assoc, List.cons_append]
    rw [hplace, List.map_cons, hentry, ih fun a ha => hspellable a (List.mem_cons_of_mem _ ha)]

theorem Spells.attributes_eq {attributes : List (String × String)} {text : List Char}
    (h : Spells attributes text) (hspellable : Spellable attributes) {front back : List Char}
    (hfront : '=' ∉ front) (hlast : ∀ c ∈ front.getLast?, isKeyChar c = false)
    (hback : '=' ∉ back) :
    Markup.attributes (String.ofList (front ++ (text ++ back))) = .ofList attributes := by
  unfold Markup.attributes
  rw [String.toList_ofList, places_append hfront hlast, h.map_entry_places hspellable hback]

/-! ## What stands in spelled attributes -/

/-- Nothing stands in spelled attributes but blanks, key and value characters, and the signs
between them. -/
theorem Spells.lt_not_mem {attributes : List (String × String)} {text : List Char}
    (h : Spells attributes text) (hspellable : Spellable attributes) : '<' ∉ text := by
  induction h with
  | nil hblanks => exact hblanks.not_mem (by decide)
  | @cons blanks key text name value rest hblanks hkey hrest ih =>
    obtain ⟨hname, hvalue⟩ := hspellable (name, value) (List.mem_cons_self ..)
    have hrest := ih fun a ha => hspellable a (List.mem_cons_of_mem _ ha)
    have hkeyless : '<' ∉ key := fun hmem =>
      absurd (isKeyChar_of_spelled hkey hname _ hmem) (by decide)
    have hvalueless : '<' ∉ value.toList := hvalue.not_mem (by decide)
    have hblankless : '<' ∉ blanks := hblanks.not_mem (by decide)
    simp [hkeyless, hvalueless, hblankless, hrest]

/-- Spelled attributes end in a blank or a quote. -/
theorem Spells.getLast?_ne {attributes : List (String × String)} {text : List Char}
    (h : Spells attributes text) : text.getLast? ≠ some '/' := by
  induction h with
  | nil hblanks =>
    intro hlast
    exact hblanks.not_mem (by decide) (List.mem_of_getLast? hlast)
  | @cons blanks key text name value rest hblanks hkey hrest ih =>
    have hlast : (blanks ++ (key ++ '=' :: '"' :: (value.toList ++ '"' :: text))).getLast? =
        some (text.getLast?.getD '"') := by
      simp [List.getLast?_append, List.getLast?_cons]
    rw [hlast]
    cases htext : text.getLast? with
    | none => decide
    | some c =>
      rw [htext] at ih
      exact ih

end Markup

end FlowAtlas
