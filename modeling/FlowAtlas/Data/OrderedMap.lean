/-!
# Ordered maps

A finite map that keeps its keys in the order in which they were first inserted.  Inserting a key
again replaces its value and leaves it at its place.  The keys are distinct by construction.

Main facts: `get?_insert` (what a lookup sees after an insertion) and `keys_insert` (where the key
goes).
-/

namespace FlowAtlas

namespace OrderedMap

/-! ## Entries as lists -/

section Entries

variable {κ ν : Type} [DecidableEq κ]

/-- Write the value at the key's own place, or at the end if the key is new. -/
def put (key : κ) (value : ν) : List (κ × ν) → List (κ × ν)
  | [] => [(key, value)]
  | (k, v) :: rest => if k = key then (key, value) :: rest else (k, v) :: put key value rest

/-- The value at the first entry of the key. -/
def find (key : κ) : List (κ × ν) → Option ν
  | [] => none
  | (k, v) :: rest => if k = key then some v else find key rest

theorem find_put (key k : κ) (value : ν) (entries : List (κ × ν)) :
    find k (put key value entries) = if k = key then some value else find k entries := by
  induction entries with
  | nil => simp only [put, find, eq_comm]
  | cons e rest ih =>
    obtain ⟨k', v'⟩ := e
    by_cases hk : k' = key
    · subst hk
      by_cases h : k = k'
      · simp [put, find, h]
      · have h' : ¬ k' = k := fun e => h e.symm
        simp [put, find, h, h']
    · by_cases h : k' = k
      · subst h
        simp [put, find, hk]
      · simp [put, find, hk, h, ih]

theorem map_fst_put (key : κ) (value : ν) (entries : List (κ × ν)) :
    (put key value entries).map Prod.fst =
      if key ∈ entries.map Prod.fst then entries.map Prod.fst
      else entries.map Prod.fst ++ [key] := by
  induction entries with
  | nil => simp [put]
  | cons e rest ih =>
    obtain ⟨k', v'⟩ := e
    by_cases hk : k' = key
    · simp [put, hk]
    · have hk' : ¬ key = k' := fun h => hk h.symm
      simp only [put, hk, if_false, List.map_cons, List.mem_cons, hk', false_or, ih]
      split <;> rfl

theorem nodup_put {key : κ} {value : ν} {entries : List (κ × ν)}
    (h : (entries.map Prod.fst).Nodup) : ((put key value entries).map Prod.fst).Nodup := by
  rw [map_fst_put]
  split
  · exact h
  · rename_i hk
    refine List.nodup_append.2 ⟨h, by simp, ?_⟩
    intro a ha b hb hab
    rw [List.mem_singleton] at hb
    exact hk (hb ▸ hab ▸ ha)

end Entries

end OrderedMap

/-! ## Maps -/

/-- Pairs with distinct keys, in the order of first insertion. -/
structure OrderedMap (κ ν : Type) where
  entries : List (κ × ν)
  nodup : (entries.map Prod.fst).Nodup
deriving DecidableEq

namespace OrderedMap

section Views

variable {κ ν : Type}

/-- The map without entries. -/
def empty : OrderedMap κ ν := ⟨[], List.nodup_nil⟩

instance : Inhabited (OrderedMap κ ν) := ⟨empty⟩

/-- The keys in order of first insertion. -/
def keys (m : OrderedMap κ ν) : List κ := m.entries.map Prod.fst

/-- The values in the order of their keys. -/
def values (m : OrderedMap κ ν) : List ν := m.entries.map Prod.snd

/-- The number of keys. -/
def size (m : OrderedMap κ ν) : Nat := m.entries.length

@[ext] theorem ext {m n : OrderedMap κ ν} (h : m.entries = n.entries) : m = n := by
  cases m; cases n; cases h; rfl

@[simp] theorem entries_empty : (empty : OrderedMap κ ν).entries = [] := rfl

end Views

section Operations

variable {κ ν : Type} [DecidableEq κ]

/-- Set a key's value; a new key goes to the end. -/
def insert (m : OrderedMap κ ν) (key : κ) (value : ν) : OrderedMap κ ν :=
  ⟨put key value m.entries, nodup_put m.nodup⟩

/-- The value under a key. -/
def get? (m : OrderedMap κ ν) (key : κ) : Option ν := find key m.entries

/-- Whether the key has a value. -/
def contains (m : OrderedMap κ ν) (key : κ) : Bool := (m.get? key).isSome

/-- Insert the pairs from left to right, so that of several with one key the last counts. -/
def insertAll (m : OrderedMap κ ν) (pairs : List (κ × ν)) : OrderedMap κ ν :=
  pairs.foldl (fun m p => m.insert p.1 p.2) m

/-- The map of a list of pairs; the last pair of a key counts, at the place of its first. -/
def ofList (pairs : List (κ × ν)) : OrderedMap κ ν := empty.insertAll pairs

@[simp] theorem get?_empty (key : κ) : (empty : OrderedMap κ ν).get? key = none := rfl

@[simp] theorem get?_insert (m : OrderedMap κ ν) (key k : κ) (value : ν) :
    (m.insert key value).get? k = if k = key then some value else m.get? k :=
  find_put key k value m.entries

/-- A key that is present keeps its place; a new one goes to the end. -/
theorem keys_insert (m : OrderedMap κ ν) (key : κ) (value : ν) :
    (m.insert key value).keys = if key ∈ m.keys then m.keys else m.keys ++ [key] :=
  map_fst_put key value m.entries

end Operations

end OrderedMap

end FlowAtlas
