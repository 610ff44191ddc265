import FlowAtlas.Data.OrderedMap
import Mathlib.Data.List.Basic
import Mathlib.Data.List.Induction

/-!
# Ordered maps by keys and values

An ordered map is determined by its keys in order and by what lookups give.  `tabulate` builds one
from these two, and maps that were filled pair by pair are read off the list of pairs:
`ofList_eq_latest` (a key stands where it came first, with the value that came last) and
`insert_collected` (a key that collects values has all of them in order).
-/

namespace FlowAtlas

namespace OrderedMap

variable {κ ν : Type} [DecidableEq κ]

/-! ## Lookups -/

theorem find_eq_none_iff {key : κ} {entries : List (κ × ν)} :
    find key entries = none ↔ key ∉ entries.map Prod.fst := by
  induction entries with
  | nil => simp [find]
  | cons e rest ih =>
    obtain ⟨k, v⟩ := e
    by_cases hk : k = key
    · simp [find, hk]
    · have hk' : ¬ key = k := fun h => hk h.symm
      simp [find, hk, hk', ih]

theorem find_of_mem {key : κ} {value : ν} {entries : List (κ × ν)}
    (hn : (entries.map Prod.fst).Nodup) (h : (key, value) ∈ entries) :
    find key entries = some value := by
  induction entries with
  | nil => simp at h
  | cons e rest ih =>
    obtain ⟨k, v⟩ := e
    rw [List.map_cons, List.nodup_cons] at hn
    rcases List.mem_cons.mp h with h | h
    · obtain ⟨rfl, rfl⟩ := Prod.mk.inj h
      simp [find]
    · have hk : k ≠ key := by
        rintro rfl
        exact hn.1 (List.mem_map.mpr ⟨_, h, rfl⟩)
      rw [find, if_neg hk]
      exact ih hn.2 h

theorem get?_eq_none_iff {m : OrderedMap κ ν} {key : κ} : m.get? key = none ↔ key ∉ m.keys :=
  find_eq_none_iff

theorem get?_of_mem {m : OrderedMap κ ν} {key : κ} {value : ν} (h : (key, value) ∈ m.entries) :
    m.get? key = some value :=
  find_of_mem m.nodup h

theorem mem_entries_iff {m : OrderedMap κ ν} {key : κ} {value : ν} :
    (key, value) ∈ m.entries ↔ m.get? key = some value := by
  refine ⟨get?_of_mem, fun h => ?_⟩
  have hkey : key ∈ m.keys := by
    by_contra hnone
    rw [get?_eq_none_iff.mpr hnone] at h
    cases h
  obtain ⟨⟨k, v⟩, hmem, rfl⟩ := List.mem_map.mp hkey
  have hvalue : v = value := Option.some.inj ((get?_of_mem hmem).symm.trans h)
  exact hvalue ▸ hmem

theorem contains_iff {m : OrderedMap κ ν} {key : κ} : m.contains key = true ↔ key ∈ m.keys := by
  rw [contains, Option.isSome_iff_ne_none, ne_eq, get?_eq_none_iff, not_not]

theorem entries_eq (m : OrderedMap κ ν) :
    m.entries = m.keys.filterMap fun k => (m.get? k).map fun v => (k, v) := by
  have h : ∀ entries : List (κ × ν), (∀ e ∈ entries, m.get? e.1 = some e.2) →
      (entries.map Prod.fst).filterMap (fun k => (m.get? k).map fun v => (k, v)) = entries := by
    intro entries
    induction entries with
    | nil => simp
    | cons e rest ih =>
      intro he
      rw [List.map_cons, List.filterMap_cons, he e (by simp), Option.map_some]
      simp only
      rw [ih fun e' h' => he e' (by simp [h'])]
  exact (h m.entries fun e he => get?_of_mem he).symm

/-- Maps with the same keys in order and the same values are equal. -/
theorem eq_of_keys_of_get? {m n : OrderedMap κ ν} (hk : m.keys = n.keys)
    (hg : ∀ k, m.get? k = n.get? k) : m = n := by
  apply ext
  rw [entries_eq m, entries_eq n, hk]
  simp only [hg]

/-- Maps have the same pairs, in an order of their own each, exactly if they have the same values. -/
theorem entries_perm_iff {m n : OrderedMap κ ν} :
    m.entries.Perm n.entries ↔ ∀ k, m.get? k = n.get? k := by
  have hnodup : ∀ o : OrderedMap κ ν, o.entries.Nodup := fun o =>
    List.Pairwise.of_map Prod.fst (fun _ _ hne heq => hne (congrArg Prod.fst heq)) o.nodup
  rw [List.perm_ext_iff_of_nodup (hnodup m) (hnodup n)]
  constructor
  · intro h k
    refine Option.ext fun v => ?_
    rw [← mem_entries_iff, ← mem_entries_iff, h]
  · rintro h ⟨k, v⟩
    rw [mem_entries_iff, mem_entries_iff, h]

theorem put_of_not_mem {key : κ} {value : ν} {entries : List (κ × ν)}
    (h : key ∉ entries.map Prod.fst) : put key value entries = entries ++ [(key, value)] := by
  induction entries with
  | nil => rfl
  | cons e rest ih =>
    obtain ⟨k, v⟩ := e
    rw [List.map_cons, List.mem_cons, not_or] at h
    rw [put, if_neg (fun he => h.1 he.symm), ih h.2]
    rfl

/-- A new key goes to the end. -/
theorem entries_insert_of_not_mem {m : OrderedMap κ ν} {key : κ} (h : key ∉ m.keys) (value : ν) :
    (m.insert key value).entries = m.entries ++ [(key, value)] :=
  put_of_not_mem h

/-- What stands in a map after an insertion stood there before or was inserted. -/
theorem mem_put {key : κ} {value : ν} {entries : List (κ × ν)} {p : κ × ν}
    (h : p ∈ put key value entries) : p = (key, value) ∨ p ∈ entries := by
  induction entries with
  | nil => exact Or.inl (List.mem_singleton.mp h)
  | cons e rest ih =>
    obtain ⟨k, v⟩ := e
    rw [put] at h
    by_cases hk : k = key
    · rw [if_pos hk] at h
      rcases List.mem_cons.mp h with h | h
      · exact Or.inl h
      · exact Or.inr (List.mem_cons_of_mem _ h)
    · rw [if_neg hk] at h
      rcases List.mem_cons.mp h with h | h
      · exact Or.inr (h ▸ List.mem_cons_self ..)
      · exact (ih h).imp_right (List.mem_cons_of_mem _)

theorem mem_entries_insert {m : OrderedMap κ ν} {key : κ} {value : ν} {p : κ × ν}
    (h : p ∈ (m.insert key value).entries) : p = (key, value) ∨ p ∈ m.entries :=
  mem_put h

/-! ## Keys in the order in which they first occur -/

/-- The distinct ones among some keys, in the order in which they first occur. -/
def distinct (keys : List κ) : List κ := keys.eraseDups

@[simp] theorem mem_distinct {keys : List κ} {k : κ} : k ∈ distinct keys ↔ k ∈ keys :=
  List.mem_eraseDups

theorem distinct_concat (keys : List κ) (k : κ) :
    distinct (keys ++ [k]) = if k ∈ distinct keys then distinct keys else distinct keys ++ [k] := by
  rw [distinct, List.eraseDups_append]
  by_cases hk : k ∈ keys <;> simp [distinct, List.removeAll, hk, List.eraseDups_cons]

theorem nodup_distinct (keys : List κ) : (distinct keys).Nodup := by
  induction keys using List.reverseRecOn with
  | nil => simp [distinct]
  | append_singleton keys k ih =>
    rw [distinct_concat]
    split
    · exact ih
    · rename_i hk
      refine List.nodup_append.mpr ⟨ih, by simp, ?_⟩
      rintro a ha b hb rfl
      exact hk (List.mem_singleton.mp hb ▸ ha)

omit [DecidableEq κ] in
theorem map_fst_filterMap (value : κ → Option ν) (keys : List κ) :
    (keys.filterMap fun k => (value k).map fun v => (k, v)).map Prod.fst =
      keys.filter fun k => (value k).isSome := by
  have h : (fun k => Option.map Prod.fst ((value k).map fun v => (k, v))) =
      Option.guard fun k => (value k).isSome := by
    funext k
    cases hv : value k <;> simp [Option.guard, hv]
  rw [List.map_filterMap, h, List.filterMap_eq_filter]

/-- The map of given keys, in the order in which they first occur, and of the values that they
have. -/
def tabulate (keys : List κ) (value : κ → Option ν) : OrderedMap κ ν where
  entries := (distinct keys).filterMap fun k => (value k).map fun v => (k, v)
  nodup := by
    rw [map_fst_filterMap]
    exact (nodup_distinct keys).sublist List.filter_sublist

theorem get?_tabulate (keys : List κ) (value : κ → Option ν) (k : κ) :
    (tabulate keys value).get? k = if k ∈ keys then value k else none := by
  have h : ∀ ks : List κ, find k (ks.filterMap fun k => (value k).map fun v => (k, v)) =
      if k ∈ ks then value k else none := by
    intro ks
    induction ks with
    | nil => rfl
    | cons k' ks ih =>
      by_cases hk : k = k'
      · subst hk
        cases hv : value k with
        | none => simp [hv, ih]
        | some v => simp [hv, find]
      · have hk' : ¬ k' = k := fun h => hk h.symm
        cases hv : value k' with
        | none => simp [hv, ih, hk]
        | some v => simp [hv, find, ih, hk, hk']
  rw [get?, tabulate, h]
  simp

theorem keys_tabulate {keys : List κ} {value : κ → Option ν}
    (h : ∀ k ∈ keys, (value k).isSome = true) : (tabulate keys value).keys = distinct keys := by
  rw [OrderedMap.keys, tabulate, map_fst_filterMap, List.filter_eq_self]
  exact fun k hk => h k (mem_distinct.mp hk)

/-! ## Maps filled pair by pair -/

/-- The values that come with a key. -/
def valuesOf (key : κ) (pairs : List (κ × ν)) : List ν :=
  (pairs.filter fun p => p.1 = key).map Prod.snd

theorem valuesOf_concat (key : κ) (pairs : List (κ × ν)) (p : κ × ν) :
    valuesOf key (pairs ++ [p]) =
      if p.1 = key then valuesOf key pairs ++ [p.2] else valuesOf key pairs := by
  by_cases h : p.1 = key <;> simp [valuesOf, h]

theorem valuesOf_append (key : κ) (pairs pairs' : List (κ × ν)) :
    valuesOf key (pairs ++ pairs') = valuesOf key pairs ++ valuesOf key pairs' := by
  unfold valuesOf
  rw [List.filter_append, List.map_append]

theorem valuesOf_eq_nil_iff {key : κ} {pairs : List (κ × ν)} :
    valuesOf key pairs = [] ↔ key ∉ pairs.map Prod.fst := by
  simp only [valuesOf, List.map_eq_nil_iff, List.filter_eq_nil_iff, decide_eq_true_eq,
    List.mem_map, not_exists, not_and]

theorem mem_valuesOf {key : κ} {value : ν} {pairs : List (κ × ν)} :
    value ∈ valuesOf key pairs ↔ (key, value) ∈ pairs := by
  simp only [valuesOf, List.mem_map, List.mem_filter, decide_eq_true_eq]
  constructor
  · rintro ⟨⟨k, v⟩, ⟨hp, rfl⟩, rfl⟩
    exact hp
  · intro hp
    exact ⟨(key, value), ⟨hp, rfl⟩, rfl⟩

theorem valuesOf_filter_ne {key other : κ} (h : other ≠ key) (pairs : List (κ × ν)) :
    valuesOf other (pairs.filter fun p => p.1 ≠ key) = valuesOf other pairs := by
  rw [valuesOf, valuesOf, List.filter_filter]
  congr 1
  apply List.filter_congr
  intro p _
  by_cases hp : p.1 = other
  · simp [hp, h]
  · simp [hp]

/-- Taking the values key by key rearranges them. -/
theorem flatMap_valuesOf_perm {keys : List κ} {pairs : List (κ × ν)} (hn : keys.Nodup)
    (h : ∀ p ∈ pairs, p.1 ∈ keys) :
    (keys.flatMap fun k => valuesOf k pairs).Perm (pairs.map Prod.snd) := by
  induction keys generalizing pairs with
  | nil =>
    have hp : pairs = [] := List.eq_nil_iff_forall_not_mem.mpr fun p hp => by simpa using h p hp
    rw [hp]
    exact .refl _
  | cons key keys ih =>
    rw [List.nodup_cons] at hn
    have hrest : keys.flatMap (fun k => valuesOf k pairs) =
        keys.flatMap fun k => valuesOf k (pairs.filter fun p => p.1 ≠ key) := by
      apply List.flatMap_congr
      intro k hk
      have hne : k ≠ key := fun he => hn.1 (he ▸ hk)
      exact (valuesOf_filter_ne hne pairs).symm
    have hcover : ∀ p ∈ pairs.filter (fun p => p.1 ≠ key), p.1 ∈ keys := by
      intro p hp
      obtain ⟨hp, hne⟩ := List.mem_filter.mp hp
      exact (List.mem_cons.mp (h p hp)).resolve_left (by simpa using hne)
    rw [List.flatMap_cons, hrest]
    refine ((ih hn.2 hcover).append_left _).trans ?_
    rw [valuesOf, ← List.map_append]
    have hsplit := List.filter_append_perm (fun p : κ × ν => decide (p.1 = key)) pairs
    simpa using hsplit.map Prod.snd

/-- Each key at the place of its first pair, with the value of its last. -/
def latest (pairs : List (κ × ν)) : OrderedMap κ ν :=
  tabulate (pairs.map Prod.fst) fun k => (valuesOf k pairs).getLast?

/-- Each key at the place of its first pair, with the values of all its pairs. -/
def collected (pairs : List (κ × ν)) : OrderedMap κ (List ν) :=
  tabulate (pairs.map Prod.fst) fun k => some (valuesOf k pairs)

theorem get?_latest (pairs : List (κ × ν)) (k : κ) :
    (latest pairs).get? k = (valuesOf k pairs).getLast? := by
  rw [latest, get?_tabulate]
  split
  · rfl
  · rename_i hk
    rw [valuesOf_eq_nil_iff.mpr hk, List.getLast?_nil]

theorem keys_latest (pairs : List (κ × ν)) :
    (latest pairs).keys = distinct (pairs.map Prod.fst) := by
  apply keys_tabulate
  intro k hk
  rw [List.getLast?_isSome, ne_eq, valuesOf_eq_nil_iff]
  exact fun h => h hk

theorem insert_latest (pairs : List (κ × ν)) (key : κ) (value : ν) :
    (latest pairs).insert key value = latest (pairs ++ [(key, value)]) := by
  apply eq_of_keys_of_get?
  · simp only [keys_insert, keys_latest, List.map_append, List.map_cons, List.map_nil,
      distinct_concat]
  · intro k
    rw [get?_insert, get?_latest, get?_latest, valuesOf_concat]
    by_cases hk : k = key
    · simp [hk]
    · have hk' : ¬ key = k := fun h => hk h.symm
      simp [hk, hk']

/-- A map that is filled pair by pair keeps a key at its first place and its last value. -/
theorem ofList_eq_latest (pairs : List (κ × ν)) : ofList pairs = latest pairs := by
  induction pairs using List.reverseRecOn with
  | nil => rfl
  | append_singleton pairs p ih =>
    rw [ofList, insertAll, List.foldl_append, ← insert_latest, ← ih]
    rfl

theorem insertAll_append (m : OrderedMap κ ν) (pairs pairs' : List (κ × ν)) :
    m.insertAll (pairs ++ pairs') = (m.insertAll pairs).insertAll pairs' :=
  List.foldl_append

/-- New keys go to the end in order. -/
theorem entries_insertAll {m : OrderedMap κ ν} {pairs : List (κ × ν)}
    (h : (m.keys ++ pairs.map Prod.fst).Nodup) :
    (m.insertAll pairs).entries = m.entries ++ pairs := by
  induction pairs generalizing m with
  | nil => exact (List.append_nil _).symm
  | cons p pairs ih =>
    obtain ⟨key, value⟩ := p
    rw [List.map_cons, List.append_cons] at h
    have hnew : key ∉ m.keys := by
      intro hmem
      have hfront := (List.nodup_append.mp h).1
      exact (List.nodup_append.mp hfront).2.2 key hmem key (List.mem_singleton_self key) rfl
    have hkeys : (m.insert key value).keys = m.keys ++ [key] := by
      rw [keys_insert, if_neg hnew]
    have hrest := ih (hkeys ▸ h)
    rw [entries_insert_of_not_mem hnew, List.append_assoc] at hrest
    exact hrest

/-- A map that is filled with distinct keys has the pairs as they are. -/
theorem ofList_eq {pairs : List (κ × ν)} (h : (pairs.map Prod.fst).Nodup) :
    ofList pairs = ⟨pairs, h⟩ :=
  ext (entries_insertAll h)

/-- Where a key has one value at most, the order of the pairs does not matter. -/
theorem get?_ofList_of_perm {pairs pairs' : List (κ × ν)} (h : pairs.Perm pairs') {key : κ}
    {value : Option ν} (hvalue : valuesOf key pairs' = value.toList) :
    (ofList pairs).get? key = value := by
  have hperm : (valuesOf key pairs).Perm value.toList := by
    rw [← hvalue]
    exact (h.filter _).map _
  rw [ofList_eq_latest, get?_latest]
  cases value with
  | none =>
    rw [List.perm_nil.mp hperm]
    rfl
  | some v =>
    rw [List.perm_singleton.mp hperm]
    rfl

theorem get?_collected (pairs : List (κ × ν)) (k : κ) :
    ((collected pairs).get? k).getD [] = valuesOf k pairs := by
  rw [collected, get?_tabulate]
  split
  · rfl
  · rename_i hk
    rw [valuesOf_eq_nil_iff.mpr hk, Option.getD_none]

theorem keys_collected (pairs : List (κ × ν)) :
    (collected pairs).keys = distinct (pairs.map Prod.fst) :=
  keys_tabulate fun _ _ => rfl

theorem entries_collected (pairs : List (κ × ν)) :
    (collected pairs).entries =
      (distinct (pairs.map Prod.fst)).map fun k => (k, valuesOf k pairs) := by
  simp only [collected, tabulate, Option.map_some, List.filterMap_eq_map']

/-- Adding a value to what its key has collected. -/
theorem insert_collected (pairs : List (κ × ν)) (key : κ) (value : ν) :
    (collected pairs).insert key (((collected pairs).get? key).getD [] ++ [value]) =
      collected (pairs ++ [(key, value)]) := by
  have hkeys : ((collected pairs).insert key
      (((collected pairs).get? key).getD [] ++ [value])).keys =
      (collected (pairs ++ [(key, value)])).keys := by
    simp only [keys_insert, keys_collected, List.map_append, List.map_cons, List.map_nil,
      distinct_concat]
  apply eq_of_keys_of_get? hkeys
  intro k
  rw [get?_insert, get?_collected]
  simp only [collected, get?_tabulate, valuesOf_concat]
  by_cases hk : k = key
  · simp [hk]
  · have hk' : ¬ key = k := fun h => hk h.symm
    have hm : k ∈ (pairs ++ [(key, value)]).map Prod.fst ↔ k ∈ pairs.map Prod.fst := by
      rw [List.map_append, List.mem_append, List.map_singleton, List.mem_singleton]
      exact or_iff_left hk
    simp only [hk, hk', hm, if_false]

end OrderedMap

end FlowAtlas
