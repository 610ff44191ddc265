import FlowAtlas.Proofs.Markup.Spelled

/-!
# Values that are refused

A line may have any texts in quotes behind keys.  One with a character that is none of a value
yields nothing, although the search for attributes goes on inside it.  What keeps it from going
astray is that a value has no equals sign: between two texts in quotes there is the equals sign of
the second, so no value begins at a quote that ends a text.

Main facts: `places_append_quote` (a quote at which no value begins is passed over),
`attributes_append_of_quote_not_mem` (a text without quotes adds no attributes) and
`attributes_quotes`.
-/

namespace FlowAtlas

namespace Markup

/-! ## Quotes that are passed over -/

/-- Whether a value begins here, right behind a quote: its characters lead to the next quote. -/
def BeginsValue (text : List Char) : Prop := (text.dropWhile isValueChar).head? = some '"'

/-- No value begins in front of a character that is none of a value, if no quote is before it. -/
theorem not_beginsValue_append {front : List Char} (hquote : '"' ∉ front) {c : Char}
    (hc : c ∈ front) (hstranger : isValueChar c = false) (rest : List Char) :
    ¬ BeginsValue (front ++ rest) := by
  obtain ⟨d, back, -, hmem, hdrop⟩ := dropWhile_append_of_stranger hc hstranger rest
  unfold BeginsValue
  rw [hdrop, List.head?_cons]
  intro hhead
  exact hquote (Option.some.inj hhead ▸ hmem)

theorem not_beginsValue_of_not_mem {text : List Char} (h : '"' ∉ text) : ¬ BeginsValue text := by
  intro hhead
  exact h ((List.dropWhile_suffix isValueChar).subset (List.mem_of_head? hhead))

/-- A place that starts before the first quote, and not at the key that stands there, has its value
right behind this quote. -/
theorem exists_value_of_placeAt_append {front text : List Char} (hquote : '"' ∉ front) {c : Char}
    (hc : c ∈ front) (hkey : isKeyChar c = false) (h : placeAt (front ++ text) ≠ none) :
    ∃ more, text = '"' :: more ∧ BeginsValue more := by
  obtain ⟨d, back, hback, -, hdrop⟩ := dropWhile_append_of_stranger hc hkey text
  have hbackless : '"' ∉ back := by
    intro hmem
    apply hquote
    apply (List.dropWhile_suffix isKeyChar).subset
    rw [hback]
    exact List.mem_cons_of_mem d hmem
  unfold placeAt at h
  rw [hdrop] at h
  split at h
  · rename_i more hmore
    have htext : back ++ text = '"' :: more := (List.cons.inj hmore).2
    cases back with
    | nil =>
      refine ⟨more, htext, ?_⟩
      unfold BeginsValue
      split at h
      · rename_i rest hrest
        rw [hrest]
        rfl
      · exact absurd rfl h
    | cons e back =>
      have hfirst : e = '"' := (List.cons.inj htext).1
      exact absurd (hfirst ▸ List.mem_cons_self) hbackless
  · exact absurd rfl h

/-- No place starts before a quote at which no value begins. -/
theorem placeAt_append_quote {front rest : List Char} (hquote : '"' ∉ front)
    (hrest : ¬ BeginsValue rest) : placeAt (front ++ '"' :: rest) = none := by
  by_cases hkeys : ∀ c ∈ front, isKeyChar c = true
  · have hquoteKey : isKeyChar '"' = false := by decide
    apply placeAt_eq_none
    rw [(span_append_cons hkeys hquoteKey rest).2, List.head?_cons]
    decide
  · simp only [not_forall, Bool.not_eq_true] at hkeys
    obtain ⟨c, hc, hkey⟩ := hkeys
    by_contra hplace
    obtain ⟨more, hmore, hvalue⟩ := exists_value_of_placeAt_append hquote hc hkey hplace
    exact hrest ((List.cons.inj hmore).2 ▸ hvalue)

/-- **The search passes over a quote at which no value begins**, and over what is before it. -/
theorem places_append_quote {front rest : List Char} (hquote : '"' ∉ front)
    (hrest : ¬ BeginsValue rest) : places (front ++ '"' :: rest) = places rest := by
  induction front with
  | nil => exact places_cons_of_none (placeAt_append_quote List.not_mem_nil hrest)
  | cons c front ih =>
    have hnone : placeAt (c :: (front ++ '"' :: rest)) = none := placeAt_append_quote hquote hrest
    rw [List.cons_append, places_cons_of_none hnone]
    exact ih fun hmem => hquote (List.mem_cons_of_mem c hmem)

/-- The search passes over a text without quotes up to a key, wherever an equals sign stands. -/
theorem places_append_key {front : List Char} (hquote : '"' ∉ front)
    (hlast : ∀ c ∈ front.getLast?, isKeyChar c = false) {text : List Char}
    (htext : text.head? ≠ some '"') : places (front ++ text) = places text := by
  induction front with
  | nil => rfl
  | cons c front ih =>
    have hend := List.getLast?_eq_some_getLast (List.cons_ne_nil c front)
    have hnone : placeAt (c :: (front ++ text)) = none := by
      by_contra hplace
      obtain ⟨more, rfl, -⟩ := exists_value_of_placeAt_append hquote (List.mem_of_getLast? hend)
        (hlast _ hend) hplace
      exact htext rfl
    rw [List.cons_append, places_cons_of_none hnone]
    refine ih (fun hmem => hquote (List.mem_cons_of_mem c hmem)) fun d hd => ?_
    exact hlast d (by rw [List.getLast?_cons, Option.mem_def.mp hd]; rfl)

/-- Without a quote there are no places. -/
theorem places_eq_nil_of_quote_not_mem {text : List Char} (h : '"' ∉ text) : places text = [] := by
  induction text with
  | nil => rw [places]
  | cons c rest ih =>
    have hnone : placeAt (c :: rest) = none := by
      unfold placeAt
      split
      · rename_i more hmore
        have hmem : '"' ∈ (c :: rest).dropWhile isKeyChar := by simp [hmore]
        exact absurd ((List.dropWhile_suffix _).subset hmem) h
      · rfl
    rw [places_cons_of_none hnone]
    exact ih fun hmem => h (List.mem_cons_of_mem c hmem)

/-! ## Texts without quotes behind a line -/

theorem eq_of_placeAt {text : List Char} {place : Place} (h : placeAt text = some place) :
    text = place.key ++ '=' :: '"' :: (place.value ++ '"' :: place.rest) := by
  unfold placeAt at h
  split at h
  · rename_i more hmore
    split at h
    · rename_i rest hrest
      cases h
      rw [← hrest, List.takeWhile_append_dropWhile, ← hmore, List.takeWhile_append_dropWhile]
    · cases h
  · cases h

theorem placeAt_of_placeAt {text : List Char} {place : Place} (h : placeAt text = some place)
    (rest : List Char) :
    placeAt (place.key ++ '=' :: '"' :: (place.value ++ '"' :: rest)) =
      some ⟨place.key, place.value, rest⟩ :=
  placeAt_of_chars (isKeyChar_of_placeAt h) (isValueChar_of_placeAt h) rest

/-- A place that starts in a text ends in it, if no quote comes behind the text. -/
theorem placeAt_append {back : List Char} (hback : '"' ∉ back) (text : List Char) :
    placeAt (text ++ back) =
      (placeAt text).map fun place => { place with rest := place.rest ++ back } := by
  cases htext : placeAt text with
  | some place =>
    have hplace := placeAt_of_placeAt htext (place.rest ++ back)
    rw [eq_of_placeAt htext, Option.map_some, ← hplace]
    simp
  | none =>
    by_contra hsome
    obtain ⟨place, hplace⟩ := Option.ne_none_iff_exists'.mp hsome
    -- the last quote of the place is in the text, so the place is there as well
    have hshape : text ++ back =
        (place.key ++ '=' :: '"' :: (place.value ++ ['"'])) ++ place.rest := by
      rw [eq_of_placeAt hplace]
      simp
    have hinside : ∃ rest, text = (place.key ++ '=' :: '"' :: (place.value ++ ['"'])) ++ rest := by
      rcases List.append_eq_append_iff.mp hshape with ⟨between, hplaceText, hrest⟩ | ⟨rest, h, -⟩
      · rcases List.eq_nil_or_concat between with rfl | ⟨between, c, rfl⟩
        · exact ⟨[], by rw [List.append_nil, hplaceText, List.append_nil]⟩
        · have hlast := congrArg List.getLast? hplaceText
          have hquote : c = '"' := by
            simpa [List.getLast?_append, List.getLast?_cons] using hlast.symm
          exact absurd (by simp [hrest, hquote]) hback
      · exact ⟨rest, h⟩
    obtain ⟨rest, rfl⟩ := hinside
    have hfound := placeAt_of_placeAt hplace rest
    simp only [List.append_assoc, List.cons_append, List.nil_append] at htext
    rw [hfound] at htext
    cases htext

theorem map_entry_places_append {back : List Char} (hback : '"' ∉ back) (text : List Char) :
    (places (text ++ back)).map Place.entry = (places text).map Place.entry := by
  induction text using places.induct with
  | case1 =>
    rw [List.nil_append, places_eq_nil_of_quote_not_mem hback, places]
  | case2 c rest place hplace ih =>
    have happend := placeAt_append hback (c :: rest)
    rw [hplace] at happend
    rw [places_of_placeAt happend, places_of_placeAt hplace, List.map_cons, List.map_cons, ih]
    rfl
  | case3 c rest hnone ih =>
    have happend := placeAt_append hback (c :: rest)
    rw [hnone] at happend
    rw [places_cons_of_none hnone, ← ih]
    exact congrArg _ (places_cons_of_none happend)

/-- **A text without quotes behind a line adds no attributes.** -/
theorem attributes_append_of_quote_not_mem {back : String} (hback : '"' ∉ back.toList)
    (line : String) : attributes (line ++ back) = attributes line := by
  unfold attributes
  rw [String.toList_append, map_entry_places_append hback]

/-! ## Lines of quotes -/

/-- A key and a text in quotes, behind another text. -/
structure Quote where
  front : String
  key : String
  text : String

namespace Quote

/-- The characters of quotes, one behind the other. -/
def chars (quotes : List Quote) : List Char :=
  quotes.flatMap fun q =>
    q.front.toList ++ (q.key.toList ++ '=' :: '"' :: (q.text.toList ++ ['"']))

/-- The line of quotes with a text behind them. -/
def line (quotes : List Quote) (back : String) : String :=
  String.ofList (chars quotes ++ back.toList)

/-- There are no further double quotes, and the key is a whole word of key characters. -/
structure IsProper (q : Quote) : Prop where
  front : '"' ∉ q.front.toList
  text : '"' ∉ q.text.toList
  key : ∀ c ∈ q.key.toList, isKeyChar c = true
  nonempty : q.key.toList ≠ []
  whole : ∀ c ∈ q.front.toList.getLast?, isKeyChar c = false

/-- The key without letter case and the text. -/
def pair (q : Quote) : String × String :=
  (String.ofList (q.key.toList.map Char.toLower), q.text)

/-- The pairs of the quotes whose text is a value. -/
def accepted (quotes : List Quote) : List (String × String) :=
  (quotes.filter fun q => IsValue q.text).map pair

variable {q : Quote} {quotes : List Quote}

theorem chars_cons_append (q : Quote) (quotes : List Quote) (back : List Char) :
    chars (q :: quotes) ++ back = q.front.toList ++
      (q.key.toList ++ '=' :: '"' :: (q.text.toList ++ '"' :: (chars quotes ++ back))) := by
  simp [chars]

/-- Behind the quote that ends a text no value begins: an equals sign comes before the next quote.
-/
theorem not_beginsValue_chars_append (hproper : ∀ q ∈ quotes, q.IsProper) {back : List Char}
    (hback : '"' ∉ back) : ¬ BeginsValue (chars quotes ++ back) := by
  cases quotes with
  | nil => exact not_beginsValue_of_not_mem hback
  | cons q quotes =>
    have hq := hproper q List.mem_cons_self
    have hkey : '"' ∉ q.key.toList := fun hmem => absurd (hq.key _ hmem) (by decide)
    have hquote : '"' ∉ q.front.toList ++ (q.key.toList ++ ['=']) := by
      simp [hq.front, hkey]
    have hequals : '=' ∈ q.front.toList ++ (q.key.toList ++ ['=']) := by simp
    have hstranger : isValueChar '=' = false := by decide
    have hshape : chars (q :: quotes) ++ back = (q.front.toList ++ (q.key.toList ++ ['='])) ++
        '"' :: (q.text.toList ++ '"' :: (chars quotes ++ back)) := by
      simp [chars_cons_append]
    rw [hshape]
    exact not_beginsValue_append hquote hequals hstranger _

/-- A text that is a value makes a place. -/
theorem IsProper.places_of_isValue (hq : q.IsProper) (hvalue : IsValue q.text) (rest : List Char) :
    places (q.key.toList ++ '=' :: '"' :: (q.text.toList ++ '"' :: rest)) =
      ⟨q.key.toList, q.text.toList, rest⟩ :: places rest :=
  places_of_placeAt (placeAt_attribute hq.key hvalue rest)

/-- **A text that is no value makes no place, and the search goes on behind it.** -/
theorem IsProper.places_of_not_isValue (hq : q.IsProper) (hvalue : ¬ IsValue q.text)
    {rest : List Char} (hrest : ¬ BeginsValue rest) :
    places (q.key.toList ++ '=' :: '"' :: (q.text.toList ++ '"' :: rest)) = places rest := by
  have hkey : '"' ∉ q.key.toList ++ ['='] := by
    simp only [List.mem_append, List.mem_singleton, not_or]
    exact ⟨fun hmem => absurd (hq.key _ hmem) (by decide), by decide⟩
  obtain ⟨c, hc, hstranger⟩ : ∃ c ∈ q.text.toList, isValueChar c = false := by
    simpa [IsValue] using hvalue
  have htext : ¬ BeginsValue (q.text.toList ++ '"' :: rest) :=
    not_beginsValue_append hq.text hc hstranger _
  rw [List.append_cons, places_append_quote hkey htext, places_append_quote hq.text hrest]

/-- **The places of a line are those of its accepted quotes.** -/
theorem map_entry_places (hproper : ∀ q ∈ quotes, q.IsProper) {back : List Char}
    (hback : '"' ∉ back) : (places (chars quotes ++ back)).map Place.entry = accepted quotes := by
  induction quotes with
  | nil =>
    show (places back).map Place.entry = []
    rw [places_eq_nil_of_quote_not_mem hback, List.map_nil]
  | cons q quotes ih =>
    have hq := hproper q List.mem_cons_self
    have hrest : ∀ other ∈ quotes, other.IsProper :=
      fun other hother => hproper other (List.mem_cons_of_mem q hother)
    have hend := not_beginsValue_chars_append hrest hback
    have hkey : (q.key.toList ++ '=' :: '"' ::
        (q.text.toList ++ '"' :: (chars quotes ++ back))).head? ≠ some '"' := by
      obtain ⟨c, key, hc⟩ := List.exists_cons_of_ne_nil hq.nonempty
      have hchar : isKeyChar c = true := hq.key c (by simp [hc])
      rw [hc, List.cons_append, List.head?_cons]
      rintro hhead
      cases hhead
      exact absurd hchar (by decide)
    rw [chars_cons_append, places_append_key hq.front hq.whole hkey]
    unfold accepted
    by_cases hvalue : IsValue q.text
    · have hentry : Place.entry ⟨q.key.toList, q.text.toList, chars quotes ++ back⟩ = q.pair := by
        unfold Place.entry pair
        rw [String.ofList_toList]
      rw [hq.places_of_isValue hvalue, List.map_cons, ih hrest, hentry,
        List.filter_cons_of_pos (by simpa using hvalue), List.map_cons]
      rfl
    · rw [hq.places_of_not_isValue hvalue hend, ih hrest,
        List.filter_cons_of_neg (by simpa using hvalue)]
      rfl

theorem attributes_line (hproper : ∀ q ∈ quotes, q.IsProper) {back : String}
    (hback : '"' ∉ back.toList) : attributes (line quotes back) = .ofList (accepted quotes) := by
  unfold Markup.attributes line
  rw [String.toList_ofList, map_entry_places hproper hback]

/-- A quote that is not accepted changes nothing for the others. -/
theorem accepted_append_cons (hq : ¬ IsValue q.text) (front back : List Quote) :
    accepted (front ++ q :: back) = accepted (front ++ back) := by
  unfold accepted
  rw [List.filter_append, List.filter_cons_of_neg (by simpa using hq), ← List.filter_append]

theorem isProper_iff : q.IsProper ↔
    '"' ∉ q.front.toList ∧ '"' ∉ q.text.toList ∧ q.key.toList.all isKeyChar = true ∧
      q.key.toList ≠ [] ∧ q.front.toList.getLast?.all (fun c => !isKeyChar c) = true := by
  simp only [List.all_eq_true, Option.all_eq_true, Bool.not_eq_true']
  constructor
  · intro h
    exact ⟨h.front, h.text, h.key, h.nonempty, h.whole⟩
  · rintro ⟨hfront, htext, hkey, hnonempty, hwhole⟩
    exact ⟨hfront, htext, hkey, hnonempty, hwhole⟩

instance (q : Quote) : Decidable q.IsProper := decidable_of_iff' _ isProper_iff

end Quote

open OrderedMap (valuesOf)

/-- **A line of quotes yields exactly the pairs of its accepted quotes**, and of several with one
key the last.  So a text that is no value takes away its own pair only: without its key and without
it the line yields the same, whatever stands in it. -/
theorem attributes_quotes {quotes : List Quote} {back : String}
    (hproper : ∀ q ∈ quotes, q.IsProper) (hback : '"' ∉ back.toList) :
    attributes (Quote.line quotes back) = .ofList (Quote.accepted quotes) ∧
      (∀ key, (attributes (Quote.line quotes back)).get? key =
        (valuesOf key (Quote.accepted quotes)).getLast?) ∧
      ∀ before q after, quotes = before ++ q :: after → ¬ IsValue q.text →
        attributes (Quote.line quotes back) = attributes (Quote.line (before ++ after) back) := by
  have hline := Quote.attributes_line hproper hback
  refine ⟨hline, fun key => ?_, ?_⟩
  · rw [hline, OrderedMap.ofList_eq_latest, OrderedMap.get?_latest]
  · rintro before q after rfl hrefused
    have hothers : ∀ other ∈ before ++ after, other.IsProper := by
      intro other hother
      apply hproper
      rcases List.mem_append.mp hother with h | h
      · exact List.mem_append_left _ h
      · exact List.mem_append_right _ (List.mem_cons_of_mem q h)
    rw [hline, Quote.attributes_line hothers hback, Quote.accepted_append_cons hrefused]

/-! ## A text that looks like a key -/

namespace Misleading

/-- The first text in quotes ends like a key, and something like a value follows its quote. -/
def quotes : List Quote :=
  [⟨"<Desc ", "Note", "Don't say id="⟩, ⟨" 7 ", "Id", "12"⟩, ⟨" x=", "ID", "13"⟩]

theorem isProper : ∀ q ∈ quotes, q.IsProper := by decide

end Misleading

open Misleading in
theorem misleading_attributes_quotes :
    (∀ q ∈ quotes, q.IsProper) ∧ '"' ∉ "/>".toList ∧
      attributes (Quote.line quotes "/>") = .ofList [("id", "12"), ("id", "13")] :=
  ⟨isProper, by decide, (attributes_quotes isProper (by decide)).1.trans (by decide)⟩

end Markup

end FlowAtlas
