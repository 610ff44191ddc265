import Mathlib.Data.List.TakeWhile
import FlowAtlas.Markup
import FlowAtlas.Proofs.Data.KeyOrder

/-!
# What attributes are made of

Every value that a line yields is made of value characters, and every key of key characters.  So
neither has a `<` or a quote, and the mark of what is missing cannot be read from a source.

Main facts: `isValue_of_get?`, `IsValue.not_mem` and `isKeyChar_of_get?`.
-/

namespace FlowAtlas

namespace Markup

/-- Whether a text is made of value characters. -/
def IsValue (text : String) : Prop := ∀ c ∈ text.toList, isValueChar c = true

theorem IsValue.not_mem {text : String} (h : IsValue text) {c : Char}
    (hc : isValueChar c = false) : c ∉ text.toList := by
  intro hmem
  rw [h c hmem] at hc
  cases hc

theorem isValueChar_of_placeAt {text : List Char} {place : Place}
    (h : placeAt text = some place) : ∀ c ∈ place.value, isValueChar c = true := by
  unfold placeAt at h
  split at h
  · split at h
    · cases h
      exact fun c hc => List.mem_takeWhile_imp hc
    · cases h
  · cases h

theorem places_cons_of_some {c : Char} {rest : List Char} {place : Place}
    (h : placeAt (c :: rest) = some place) : places (c :: rest) = place :: places place.rest := by
  rw [places]
  split
  · rename_i found hfound
    rw [h] at hfound
    cases hfound
    rfl
  · rename_i hnone
    rw [h] at hnone
    cases hnone

theorem places_cons_of_none {c : Char} {rest : List Char} (h : placeAt (c :: rest) = none) :
    places (c :: rest) = places rest := by
  rw [places]
  split
  · rename_i found hfound
    rw [h] at hfound
    cases hfound
  · rfl

/-- Every place of a text starts somewhere in it. -/
theorem exists_placeAt_of_mem {text : List Char} {place : Place} (h : place ∈ places text) :
    ∃ part, placeAt part = some place := by
  induction text using places.induct with
  | case1 =>
    rw [places] at h
    cases h
  | case2 c rest first hfirst ih =>
    rw [places_cons_of_some hfirst] at h
    rcases List.mem_cons.mp h with rfl | h
    · exact ⟨_, hfirst⟩
    · exact ih h
  | case3 c rest hnone ih =>
    rw [places_cons_of_none hnone] at h
    exact ih h

theorem isValueChar_of_mem_places {text : List Char} {place : Place} (h : place ∈ places text) :
    ∀ c ∈ place.value, isValueChar c = true := by
  obtain ⟨part, hpart⟩ := exists_placeAt_of_mem h
  exact isValueChar_of_placeAt hpart

theorem exists_place_of_get? {line key value : String}
    (h : (attributes line).get? key = some value) :
    ∃ place ∈ places line.toList, place.entry = (key, value) := by
  unfold attributes at h
  rw [OrderedMap.ofList_eq_latest, OrderedMap.get?_latest] at h
  exact List.mem_map.mp (OrderedMap.mem_valuesOf.mp (List.mem_of_getLast? h))

/-- **What a line yields under a key is made of value characters.** -/
theorem isValue_of_get? {line key value : String}
    (h : (attributes line).get? key = some value) : IsValue value := by
  obtain ⟨place, hplace, hentry⟩ := exists_place_of_get? h
  cases hentry
  intro c hc
  rw [String.toList_ofList] at hc
  exact isValueChar_of_mem_places hplace c hc

/-! ## Keys -/

theorem isUpper_iff {c : Char} : c.isUpper = true ↔ 65 ≤ c.toNat ∧ c.toNat ≤ 90 :=
  decide_eq_true_iff

theorem isLower_iff {c : Char} : c.isLower = true ↔ 97 ≤ c.toNat ∧ c.toNat ≤ 122 := by
  change (decide ('a'.val ≤ c.val) && decide (c.val ≤ 'z'.val)) = true ↔ _
  rw [Bool.and_eq_true, decide_eq_true_iff, decide_eq_true_iff]
  exact Iff.rfl

theorem isKeyChar_iff {c : Char} :
    isKeyChar c = true ↔ c.isUpper = true ∨ c.isLower = true ∨ c = '_' := by
  change (c.isUpper || c.isLower || decide (c = '_')) = true ↔ _
  rw [Bool.or_eq_true, Bool.or_eq_true, decide_eq_true_iff, or_assoc]

theorem toLower_of_not_isUpper {c : Char} (h : ¬ c.isUpper = true) : c.toLower = c := by
  unfold Char.toLower
  rw [dif_neg fun hrange => h (decide_eq_true hrange)]

theorem toNat_toLower_of_isUpper {c : Char} (h : c.isUpper = true) :
    c.toLower.toNat = c.toNat + 32 := by
  obtain ⟨hge, hle⟩ := isUpper_iff.mp h
  unfold Char.toLower
  rw [dif_pos (of_decide_eq_true h)]
  show (c.val + ('a'.val - 'A'.val)).toNat = c.val.toNat + 32
  rw [UInt32.toNat_add, show ('a'.val - 'A'.val : UInt32).toNat = 32 from rfl]
  have hrange : c.val.toNat ≤ 90 := hle
  omega

theorem isKeyChar_toLower {c : Char} (h : isKeyChar c = true) : isKeyChar c.toLower = true := by
  by_cases hupper : c.isUpper = true
  · obtain ⟨hge, hle⟩ := isUpper_iff.mp hupper
    have hnat := toNat_toLower_of_isUpper hupper
    exact isKeyChar_iff.mpr (Or.inr (Or.inl (isLower_iff.mpr (by omega))))
  · rw [toLower_of_not_isUpper hupper]
    exact h

theorem isKeyChar_of_placeAt {text : List Char} {place : Place}
    (h : placeAt text = some place) : ∀ c ∈ place.key, isKeyChar c = true := by
  unfold placeAt at h
  split at h
  · split at h
    · cases h
      exact fun c hc => List.mem_takeWhile_imp hc
    · cases h
  · cases h

theorem isKeyChar_of_mem_places {text : List Char} {place : Place} (h : place ∈ places text) :
    ∀ c ∈ place.key, isKeyChar c = true := by
  obtain ⟨part, hpart⟩ := exists_placeAt_of_mem h
  exact isKeyChar_of_placeAt hpart

/-- The keys under which a line yields values are made of key characters. -/
theorem isKeyChar_of_get? {line key value : String}
    (h : (attributes line).get? key = some value) : ∀ c ∈ key.toList, isKeyChar c = true := by
  obtain ⟨place, hplace, hentry⟩ := exists_place_of_get? h
  cases hentry
  intro c hc
  rw [String.toList_ofList] at hc
  obtain ⟨d, hd, rfl⟩ := List.mem_map.mp hc
  exact isKeyChar_toLower (isKeyChar_of_mem_places hplace d hd)

end Markup

end FlowAtlas
