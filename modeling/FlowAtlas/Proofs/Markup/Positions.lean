import Mathlib.Data.List.DropRight
import FlowAtlas.Proofs.Markup.Quotes

/-!
# Attributes by position

The search for attributes goes from left to right: where a place starts it resumes behind the
place, and elsewhere one character on.  What it finds can be told without a search.  An attribute
belongs to the position of its equals sign; whether one stands there is seen from the position
alone, forwards over the value to the quote that ends it and backwards over the key.

Main facts: `entryAt_eq_some_iff` (what stands at a position), `map_entry_places_eq` (the search
finds what stands at the positions, by induction along the search) and `attributes_by_position`.
-/

namespace FlowAtlas

namespace Markup

/-! ## What stands at a position -/

instance (text : List Char) : Decidable (BeginsValue text) :=
  inferInstanceAs (Decidable (_ = _))

/-- The value that stands here, if an equals sign and a quote do and value characters lead from
them to the next quote. -/
def valueAt : List Char → Option (List Char)
  | '=' :: '"' :: more => if BeginsValue more then some (more.takeWhile isValueChar) else none
  | _ => none

/-- The attribute that stands between two texts: its value is at the start of the second, and its
key is the longest run of key characters at the end of the first. -/
def entryBetween (before after : List Char) : Option (String × String) :=
  (valueAt after).map fun value =>
    (String.ofList ((before.rtakeWhile isKeyChar).map Char.toLower), String.ofList value)

/-- The attribute that stands at a position of a text. -/
def entryAt (text : List Char) (position : Nat) : Option (String × String) :=
  entryBetween (text.take position) (text.drop position)

/-- A place of a text by its position: what is before it, and where its equals sign is. -/
structure StandsAt (text : List Char) (position : Nat) (before : List Char) (place : Place) :
    Prop where
  text_eq : text = before ++ (place.key ++ '=' :: '"' :: (place.value ++ '"' :: place.rest))
  position_eq : position = before.length + place.key.length
  key : ∀ c ∈ place.key, isKeyChar c = true
  whole : ∀ c ∈ before.getLast?, isKeyChar c = false
  value : ∀ c ∈ place.value, isValueChar c = true

theorem valueAt_eq_some_iff {text value : List Char} :
    valueAt text = some value ↔ (∀ c ∈ value, isValueChar c = true) ∧
      ∃ rest, text = '=' :: '"' :: (value ++ '"' :: rest) := by
  constructor
  · intro h
    unfold valueAt at h
    split at h
    · rename_i more
      split at h
      · rename_i hbegins
        cases h
        obtain ⟨rest, hrest⟩ := List.head?_eq_some_iff.mp hbegins
        refine ⟨fun c hc => List.mem_takeWhile_imp hc, rest, ?_⟩
        rw [← hrest, List.takeWhile_append_dropWhile]
      · cases h
    · cases h
  · rintro ⟨hvalue, rest, rfl⟩
    have hquote : isValueChar '"' = false := by decide
    obtain ⟨htake, hdrop⟩ := span_append_cons hvalue hquote rest
    have hbegins : BeginsValue (value ++ '"' :: rest) := by
      unfold BeginsValue
      rw [hdrop, List.head?_cons]
    show (if BeginsValue _ then _ else _) = _
    rw [if_pos hbegins, htake]

theorem valueAt_ne_equals {c : Char} (h : c ≠ '=') (rest : List Char) :
    valueAt (c :: rest) = none := by
  rw [Option.eq_none_iff_forall_ne_some]
  intro value hvalue
  obtain ⟨-, more, hmore⟩ := valueAt_eq_some_iff.mp hvalue
  exact h (List.cons.inj hmore).1

/-- The run of key characters at the end of a text does not go on into what is before it. -/
theorem rtakeWhile_append {before : List Char} (hwhole : ∀ c ∈ before.getLast?, isKeyChar c = false)
    (run : List Char) :
    (before ++ run).rtakeWhile isKeyChar = run.rtakeWhile isKeyChar := by
  induction run using List.reverseRecOn with
  | nil =>
    rw [List.append_nil, List.rtakeWhile_nil, List.rtakeWhile_eq_nil_iff]
    intro hne hlast
    rw [hwhole _ (List.getLast?_eq_some_getLast hne)] at hlast
    cases hlast
  | append_singleton run c ih =>
    rw [← List.append_assoc, List.rtakeWhile_concat, List.rtakeWhile_concat, ih]

theorem StandsAt.entryAt_eq {text before : List Char} {position : Nat} {place : Place}
    (h : StandsAt text position before place) : entryAt text position = some place.entry := by
  have hlength : position = (before ++ place.key).length := by
    rw [List.length_append, h.position_eq]
  have hkey : (before ++ place.key).rtakeWhile isKeyChar = place.key :=
    (rtakeWhile_append h.whole _).trans (List.rtakeWhile_eq_self_iff.mpr h.key)
  unfold entryAt
  rw [h.text_eq, ← List.append_assoc, hlength, List.take_left, List.drop_left, entryBetween,
    valueAt_eq_some_iff.mpr ⟨h.value, place.rest, rfl⟩, hkey]
  rfl

/-- **An attribute stands at a position if the text can be cut around it**: into what comes before
the key, the key, the value and what comes behind. -/
theorem entryAt_eq_some_iff {text : List Char} {position : Nat} {entry : String × String} :
    entryAt text position = some entry ↔
      ∃ before place, StandsAt text position before place ∧ place.entry = entry := by
  constructor
  · intro h
    obtain ⟨value, hvalue, hentry⟩ := Option.map_eq_some_iff.mp h
    obtain ⟨hvalueChars, rest, hrest⟩ := valueAt_eq_some_iff.mp hvalue
    have hinside : position < text.length := by
      rw [← List.drop_eq_nil_iff.not.trans not_le, hrest]
      exact List.cons_ne_nil _ _
    have hcut : (text.take position).rdropWhile isKeyChar ++
        (text.take position).rtakeWhile isKeyChar = text.take position :=
      List.rdropWhile_append_rtakeWhile
    refine ⟨(text.take position).rdropWhile isKeyChar,
      ⟨(text.take position).rtakeWhile isKeyChar, value, rest⟩,
      ⟨?_, ?_, fun c hc => List.mem_rtakeWhile_imp hc, fun c hc => ?_, hvalueChars⟩, hentry⟩
    · rw [← hrest, ← List.append_assoc, hcut, List.take_append_drop]
    · rw [← List.length_append, hcut, List.length_take_of_le hinside.le]
    · obtain ⟨hne, rfl⟩ := List.mem_getLast?_eq_getLast hc
      exact Bool.eq_false_iff.mpr (List.rdropWhile_last_not _ _ hne)
  · rintro ⟨before, place, hstands, rfl⟩
    exact hstands.entryAt_eq

/-- No key goes on behind a quote. -/
theorem isKeyChar_of_getLast?_quote (front value : List Char) :
    ∀ c ∈ (front ++ '"' :: (value ++ ['"'])).getLast?, isKeyChar c = false := by
  intro c hc
  have hshape : front ++ '"' :: (value ++ ['"']) = (front ++ '"' :: value) ++ ['"'] := by simp
  rw [hshape, List.getLast?_concat, Option.mem_some] at hc
  rw [← hc]
  decide

/-- The text of a key and of characters in quotes, with what is before and behind. -/
def quoteText (before run quoted rest : List Char) : List Char :=
  before ++ (run ++ '=' :: '"' :: (quoted ++ '"' :: rest))

/-- **What stands at a position is seen from the key and the quotes.**  Neither what is before the
key nor what is behind the quote that ends the value matters. -/
theorem entryAt_quoteText {before run quoted : List Char} (hrun : ∀ c ∈ run, isKeyChar c = true)
    (hwhole : ∀ c ∈ before.getLast?, isKeyChar c = false) (hquote : '"' ∉ quoted)
    (rest : List Char) :
    entryAt (quoteText before run quoted rest) (before.length + run.length) =
      if quoted.all isValueChar = true then
        some (String.ofList (run.map Char.toLower), String.ofList quoted)
      else none := by
  split
  · rename_i hvalue
    rw [List.all_eq_true] at hvalue
    have hstands : StandsAt (quoteText before run quoted rest) (before.length + run.length) before
        ⟨run, quoted, rest⟩ := ⟨rfl, rfl, hrun, hwhole, hvalue⟩
    exact hstands.entryAt_eq
  · rename_i hstranger
    simp only [List.all_eq_true, not_forall, Bool.not_eq_true] at hstranger
    obtain ⟨c, hc, hstranger⟩ := hstranger
    have hno : ¬ BeginsValue (quoted ++ '"' :: rest) :=
      not_beginsValue_append hquote hc hstranger _
    have hnone : valueAt ('=' :: '"' :: (quoted ++ '"' :: rest)) = none := if_neg hno
    unfold entryAt quoteText
    rw [← List.append_assoc, ← List.length_append, List.drop_left, entryBetween, hnone]
    rfl

/-- No value stands inside a text without equals signs. -/
theorem valueAt_drop_append {inner : List Char} (h : '=' ∉ inner) {k : Nat}
    (hk : k < inner.length) (rest : List Char) : valueAt ((inner ++ rest).drop k) = none := by
  have hne : inner[k] ≠ '=' := fun heq => h (heq ▸ List.getElem_mem hk)
  rw [List.drop_append_of_le_length hk.le, List.drop_eq_getElem_cons hk, List.cons_append]
  exact valueAt_ne_equals hne _

/-- Of the characters behind a text in which no key goes on, a key takes no more than there are. -/
theorem length_rtakeWhile_take_le {front : List Char}
    (h : ∀ c ∈ front.getLast?, isKeyChar c = false) (rest : List Char) (r : Nat) :
    (((front ++ rest).take (front.length + r)).rtakeWhile isKeyChar).length ≤ r := by
  rw [List.take_length_add_append, rtakeWhile_append h]
  exact (List.rtakeWhile_suffix _ _).length_le.trans (List.length_take_le _ _)

/-- Behind an attribute there is no other before its last quote, and no key reaches across it. -/
theorem StandsAt.le_of_lt {text before : List Char} {position next : Nat} {place : Place}
    (h : StandsAt text position before place) (hlt : position < next) {entry : String × String}
    (hnext : entryAt text next = some entry) :
    position + place.value.length + entry.1.length + 3 ≤ next := by
  obtain ⟨value, hvalue, rfl⟩ := Option.map_eq_some_iff.mp hnext
  -- the text up to the equals sign, and the value with its quotes
  obtain ⟨front, hfront⟩ : ∃ front, front = before ++ (place.key ++ ['=']) := ⟨_, rfl⟩
  obtain ⟨inner, hinner⟩ : ∃ inner, inner = '"' :: (place.value ++ ['"']) := ⟨_, rfl⟩
  have hfrontLength : front.length = position + 1 := by
    rw [hfront, h.position_eq]
    simp [Nat.add_assoc]
  have hinnerLength : inner.length = place.value.length + 2 := by simp [hinner]
  have htext : text = front ++ (inner ++ place.rest) := by
    rw [h.text_eq, hfront, hinner]
    simp
  obtain ⟨k, rfl⟩ := Nat.exists_eq_add_of_lt hlt
  rcases lt_or_ge k inner.length with hinside | hbehind
  · have hequals : '=' ∉ inner := by
      intro hmem
      have hin : '=' ∈ place.value := by simpa [hinner] using hmem
      exact absurd (h.value _ hin) (by decide)
    have hshift : position + k + 1 = front.length + k := by omega
    rw [htext, hshift, List.drop_length_add_append, valueAt_drop_append hequals hinside] at hvalue
    cases hvalue
  · obtain ⟨r, rfl⟩ := Nat.exists_eq_add_of_le hbehind
    have hlast : ∀ c ∈ (front ++ inner).getLast?, isKeyChar c = false := by
      rw [hinner]
      exact isKeyChar_of_getLast?_quote _ _
    have hrun := length_rtakeWhile_take_le hlast place.rest r
    have hshift : (front ++ inner).length + r = position + (inner.length + r) + 1 := by
      rw [List.length_append]
      omega
    rw [hshift, List.append_assoc, ← htext] at hrun
    rw [String.length_ofList, List.length_map]
    omega

/-! ## The search -/

/-- What stands at the positions of a text, from left to right, behind another text. -/
def entriesFrom (before : List Char) : List Char → List (String × String)
  | [] => []
  | c :: rest => (entryBetween before (c :: rest)).toList ++ entriesFrom (before ++ [c]) rest

theorem entriesFrom_eq (before text : List Char) :
    entriesFrom before text = (List.range text.length).filterMap fun position =>
      entryBetween (before ++ text.take position) (text.drop position) := by
  induction text generalizing before with
  | nil => rfl
  | cons c rest ih =>
    rw [entriesFrom, ih, List.length_cons, List.range_succ_eq_map, List.filterMap_cons,
      List.filterMap_map, List.take_zero, List.drop_zero, List.append_nil]
    have hshift : ((fun position => entryBetween (before ++ (c :: rest).take position)
        ((c :: rest).drop position)) ∘ Nat.succ) = fun position =>
          entryBetween (before ++ [c] ++ rest.take position) (rest.drop position) := by
      funext position
      simp
    rw [hshift]
    cases entryBetween before (c :: rest) <;> rfl

/-- Nothing stands at a position without an equals sign. -/
theorem entriesFrom_append {front : List Char} (h : '=' ∉ front) (before text : List Char) :
    entriesFrom before (front ++ text) = entriesFrom (before ++ front) text := by
  induction front generalizing before with
  | nil => rw [List.nil_append, List.append_nil]
  | cons c front ih =>
    have hc : c ≠ '=' := fun heq => h (heq ▸ List.mem_cons_self)
    have hnone : entryBetween before (c :: (front ++ text)) = none := by
      rw [entryBetween, valueAt_ne_equals hc]
      rfl
    rw [List.cons_append, entriesFrom, hnone, ih fun hmem => h (List.mem_cons_of_mem c hmem)]
    simp

theorem entryBetween_of_placeAt_eq_none {text : List Char} (h : placeAt text = none)
    (before : List Char) : entryBetween before text = none := by
  rw [entryBetween, Option.map_eq_none_iff, Option.eq_none_iff_forall_ne_some]
  intro value hvalue
  obtain ⟨hchars, rest, rfl⟩ := valueAt_eq_some_iff.mp hvalue
  have hplace := placeAt_of_chars (List.forall_mem_nil _) hchars rest
  rw [List.nil_append, h] at hplace
  cases hplace

/-- If no place starts at a character of a key, none starts at the next one. -/
theorem placeAt_eq_none_of_cons {c : Char} (hkey : isKeyChar c = true) {rest : List Char}
    (h : placeAt (c :: rest) = none) : placeAt rest = none := by
  rw [Option.eq_none_iff_forall_ne_some]
  intro place hplace
  have hrun : ∀ d ∈ c :: place.key, isKeyChar d = true := by
    intro d hd
    rcases List.mem_cons.mp hd with rfl | hd
    · exact hkey
    · exact isKeyChar_of_placeAt hplace d hd
  have hlonger := placeAt_of_chars hrun (isValueChar_of_placeAt hplace) place.rest
  rw [List.cons_append, ← eq_of_placeAt hplace, h] at hlonger
  cases hlonger

/-- **The search finds what stands at the positions.**  Along the search, either no key goes on
from what is behind into what comes, or no place starts here. -/
theorem map_entry_places_eq (before text : List Char)
    (h : (∀ c ∈ before.getLast?, isKeyChar c = false) ∨ placeAt text = none) :
    (places text).map Place.entry = entriesFrom before text := by
  induction text using places.induct generalizing before with
  | case1 => rw [places, List.map_nil, entriesFrom]
  | case2 c rest place hplace ih =>
    have hwhole := h.resolve_right (by simp [hplace])
    have hkey : '=' ∉ place.key := fun hmem =>
      absurd (isKeyChar_of_placeAt hplace _ hmem) (by decide)
    have hvalue : '=' ∉ '"' :: (place.value ++ ['"']) := by
      have hin : '=' ∉ place.value := fun hmem =>
        absurd (isValueChar_of_placeAt hplace _ hmem) (by decide)
      simpa using hin
    have hstands : entryBetween (before ++ place.key)
        ('=' :: ('"' :: (place.value ++ ['"']) ++ place.rest)) = some place.entry := by
      have hrun : (before ++ place.key).rtakeWhile isKeyChar = place.key :=
        (rtakeWhile_append hwhole _).trans
          (List.rtakeWhile_eq_self_iff.mpr (isKeyChar_of_placeAt hplace))
      rw [entryBetween, hrun, valueAt_eq_some_iff.mpr
        ⟨isValueChar_of_placeAt hplace, place.rest, by simp⟩]
      rfl
    have htext : c :: rest =
        place.key ++ '=' :: ('"' :: (place.value ++ ['"']) ++ place.rest) := by
      rw [eq_of_placeAt hplace]
      simp
    rw [places_cons_of_some hplace, htext, entriesFrom_append hkey, entriesFrom, hstands,
      entriesFrom_append hvalue, List.map_cons,
      ih _ (.inl (isKeyChar_of_getLast?_quote _ _))]
    rfl
  | case3 c rest hnone ih =>
    rw [places_cons_of_none hnone, entriesFrom, entryBetween_of_placeAt_eq_none hnone, ih]
    · rfl
    · cases hkey : isKeyChar c with
      | true => exact .inr (placeAt_eq_none_of_cons hkey hnone)
      | false =>
        refine .inl fun d hd => ?_
        have hlast : c = d := by simpa using hd
        exact hlast ▸ hkey

/-! ## The attributes of a line -/

open OrderedMap in
/-- Of the values that positions give to a key the last counts. -/
theorem getLast?_valuesOf_range (entry : Nat → Option (String × String)) (n : Nat)
    {key value : String} :
    (valuesOf key ((List.range n).filterMap entry)).getLast? = some value ↔
      ∃ position < n, entry position = some (key, value) ∧
        ∀ other < n, ∀ value', entry other = some (key, value') → other ≤ position := by
  induction n with
  | zero => simp [valuesOf]
  | succ n ih =>
    have hrange : (List.range (n + 1)).filterMap entry =
        (List.range n).filterMap entry ++ (entry n).toList := by
      rw [List.range_succ, List.filterMap_append]
      cases hn : entry n <;> simp [hn]
    rw [hrange, valuesOf_append, List.getLast?_append]
    by_cases hn : ∃ value', entry n = some (key, value')
    · obtain ⟨last, hlast⟩ := hn
      have hvalues : (valuesOf key (entry n).toList).getLast? = some last := by
        simp [hlast, valuesOf]
      rw [hvalues, Option.some_or, Option.some.injEq]
      constructor
      · rintro rfl
        exact ⟨n, n.lt_succ_self, hlast, fun other hother _ _ => Nat.le_of_lt_succ hother⟩
      · rintro ⟨position, hposition, hentry, hmax⟩
        have hsame : position = n :=
          le_antisymm (Nat.le_of_lt_succ hposition) (hmax n n.lt_succ_self _ hlast)
        rw [hsame, hlast, Option.some.injEq, Prod.mk.injEq] at hentry
        exact hentry.2
    · have hvalues : valuesOf key (entry n).toList = [] := by
        rw [valuesOf_eq_nil_iff]
        intro hmem
        obtain ⟨pair, hpair, rfl⟩ := List.mem_map.mp hmem
        exact hn ⟨pair.2, Option.mem_toList.mp hpair⟩
      have hbelow : ∀ {position value'}, position < n + 1 →
          entry position = some (key, value') → position < n := by
        intro position value' hposition hentry
        refine lt_of_le_of_ne (Nat.le_of_lt_succ hposition) fun heq => ?_
        exact hn ⟨value', heq ▸ hentry⟩
      rw [hvalues, List.getLast?_nil, Option.none_or, ih]
      constructor
      · rintro ⟨position, hposition, hentry, hmax⟩
        exact ⟨position, hposition.trans n.lt_succ_self, hentry, fun other hother value' heq =>
          hmax other (hbelow hother heq) value' heq⟩
      · rintro ⟨position, hposition, hentry, hmax⟩
        exact ⟨position, hbelow hposition hentry, hentry, fun other hother value' heq =>
          hmax other (hother.trans n.lt_succ_self) value' heq⟩

/-- What a line yields is what stands at its positions. -/
theorem map_entry_places_line (text : List Char) :
    (places text).map Place.entry = (List.range text.length).filterMap (entryAt text) := by
  have hnone : ∀ c ∈ ([] : List Char).getLast?, isKeyChar c = false := by simp
  rw [map_entry_places_eq [] text (.inl hnone), entriesFrom_eq]
  rfl

theorem lt_length_of_entryAt {text : List Char} {position : Nat} {entry : String × String}
    (h : entryAt text position = some entry) : position < text.length := by
  obtain ⟨before, place, hstands, -⟩ := entryAt_eq_some_iff.mp h
  rw [hstands.text_eq, hstands.position_eq]
  simp

/-- The rightmost attribute of a key counts. -/
theorem get?_eq_some_iff_rightmost {line key value : String} :
    (attributes line).get? key = some value ↔
      ∃ position, entryAt line.toList position = some (key, value) ∧
        ∀ other value', entryAt line.toList other = some (key, value') → other ≤ position := by
  rw [attributes, OrderedMap.ofList_eq_latest, OrderedMap.get?_latest, map_entry_places_line,
    getLast?_valuesOf_range]
  constructor
  · rintro ⟨position, -, hentry, hmax⟩
    exact ⟨position, hentry, fun other value' heq =>
      hmax other (lt_length_of_entryAt heq) value' heq⟩
  · rintro ⟨position, hentry, hmax⟩
    exact ⟨position, lt_length_of_entryAt hentry, hentry, fun other _ => hmax other⟩

theorem get?_eq_none_iff_nowhere {line key : String} :
    (attributes line).get? key = none ↔
      ∀ position value, entryAt line.toList position ≠ some (key, value) := by
  rw [attributes, OrderedMap.ofList_eq_latest, OrderedMap.get?_latest, map_entry_places_line,
    List.getLast?_eq_none_iff, List.eq_nil_iff_forall_not_mem]
  simp only [OrderedMap.mem_valuesOf, List.mem_filterMap, List.mem_range, not_exists, not_and]
  constructor
  · intro h position value hentry
    exact h value position (lt_length_of_entryAt hentry) hentry
  · intro h value position _
    exact h position value

/-- **The attributes of a line can be told position by position.**  The search yields, from left to
right, what stands at the positions of the line.  What stands at a position is seen from the
characters between the start of its key and the quote behind its value, whatever is before and
behind.  Of two attributes the second has its key behind the quote that ends the first, so neither
covers the other.  Of several attributes with one key the rightmost counts, and a key that stands
nowhere has no value. -/
theorem attributes_by_position :
    (∀ line : String, (places line.toList).map Place.entry =
      (List.range line.toList.length).filterMap (entryAt line.toList)) ∧
    (∀ before run quoted rest, (∀ c ∈ before.getLast?, isKeyChar c = false) →
      (∀ c ∈ run, isKeyChar c = true) → '"' ∉ quoted →
        entryAt (quoteText before run quoted rest) (before.length + run.length) =
          if quoted.all isValueChar = true then
            some (String.ofList (run.map Char.toLower), String.ofList quoted)
          else none) ∧
    (∀ text position entry, entryAt text position = some entry ↔
      ∃ before place, StandsAt text position before place ∧ place.entry = entry) ∧
    (∀ text position next entry entry', position < next → entryAt text position = some entry →
      entryAt text next = some entry' → position + entry.2.length + entry'.1.length + 3 ≤ next) ∧
    ∀ (line : String) (key : String),
      (∀ value, (attributes line).get? key = some value ↔
        ∃ position, entryAt line.toList position = some (key, value) ∧
          ∀ other value', entryAt line.toList other = some (key, value') → other ≤ position) ∧
      ((attributes line).get? key = none ↔
        ∀ position value, entryAt line.toList position ≠ some (key, value)) := by
  refine ⟨fun line => map_entry_places_line _, fun before run quoted rest hwhole hrun hquote =>
    entryAt_quoteText hrun hwhole hquote rest, fun text position entry => entryAt_eq_some_iff,
    fun text position next entry entry' hlt hfirst hnext => ?_, fun line key => ?_⟩
  · obtain ⟨before, place, hstands, rfl⟩ := entryAt_eq_some_iff.mp hfirst
    have hlength : place.entry.2.length = place.value.length := String.length_ofList
    rw [hlength]
    exact hstands.le_of_lt hlt hnext
  · exact ⟨fun value => get?_eq_some_iff_rightmost, get?_eq_none_iff_nowhere⟩

/-! ## A line with a value that is refused -/

namespace RefusedValue

/-- The second text in quotes has a character of no value, and a key and a value stand inside what
a search would take for it. -/
def line : String := "id=\"1\"x=\"a!b=\"2\" ID=\"3\""

/-- What stands before the key inside. -/
def front : List Char := "id=\"1\"x=\"a!".toList

theorem quoteText_line :
    quoteText front ['b'] ['2'] " ID=\"3\"".toList = line.toList := by
  decide

theorem isKeyChar_front : ∀ c ∈ front.getLast?, isKeyChar c = false := by
  have hlast : front.getLast? = some '!' := by decide
  rw [hlast]
  rintro c ⟨⟩
  decide

theorem entryAt_first : entryAt line.toList 2 = some ("id", "1") := by decide

theorem entryAt_inside : entryAt line.toList 12 = some ("b", "2") := by decide

theorem entryAt_ne (position : Nat) (value : String) :
    entryAt line.toList position ≠ some ("x", value) := by
  intro h
  have hkeys : ∀ p < line.toList.length, (entryAt line.toList p).map Prod.fst ≠ some "x" := by
    decide
  exact hkeys position (lt_length_of_entryAt h) (by rw [h]; rfl)

end RefusedValue

open RefusedValue in
theorem refusedValue_attributes_by_position :
    entryAt line.toList 7 = none ∧ entryAt line.toList 2 = some ("id", "1") ∧
      entryAt line.toList 12 = some ("b", "2") ∧ 2 + "1".length + "b".length + 3 ≤ 12 ∧
      (attributes line).get? "x" = none := by
  obtain ⟨-, hlocal, -, hapart, hlast⟩ := attributes_by_position
  have hkey : ∀ c ∈ ['b'], isKeyChar c = true := by
    intro c hc
    rw [List.mem_singleton.mp hc]
    decide
  have hinside := hlocal front ['b'] ['2'] " ID=\"3\"".toList isKeyChar_front hkey (by decide)
  rw [quoteText_line] at hinside
  exact ⟨by decide, entryAt_first, hinside,
    hapart line.toList 2 12 _ _ (by decide) entryAt_first entryAt_inside,
    (hlast line "x").2.mpr entryAt_ne⟩

end Markup

end FlowAtlas
