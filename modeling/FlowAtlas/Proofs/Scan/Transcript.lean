import FlowAtlas.Proofs.Data.KeyOrder
import FlowAtlas.Scope.Scan

/-!
# Transcripts

The scopes of a source in two stages, without a scanner.  The lines are first parted into the ones
that count and the ones that only continue a node record.  What counts is then a list of readings:
a record each, with the name of the entity that is current there.  The list is cut behind every
closing mark, and a scope is what one piece says.

Main facts: `cut_cutBehind` (cutting loses nothing and cuts nowhere else), `get?_nodesOf` (the last
record of an id counts) and `cutBehind_concat` (what one more reading does to the pieces).
-/

namespace FlowAtlas

namespace Transcript

/-! ## Lines that count -/

/-- A line that counts, with the line behind it if that only continues it. -/
structure Entry where
  line : String
  continuation : Option String

/-- Whether a line that counts takes the next one as its continuation. -/
def takesNext (line : String) : Bool := Text.hasWord line "<Node " && !Text.endsIn line "/>"

/-- The lines that count, each with its continuation. -/
def entries : List String → List Entry
  | [] => []
  | [line] => [⟨line, none⟩]
  | line :: next :: rest =>
    if takesNext line then ⟨line, some next⟩ :: entries rest
    else ⟨line, none⟩ :: entries (next :: rest)

/-- The inputs of a node record: the attributes of its continuation, if that is an inputs record. -/
def Entry.inputs (e : Entry) : Attributes :=
  match e.continuation with
  | some line => if Text.hasWord line "<Inputs " then Markup.attributes line else .empty
  | none => .empty

/-! ## Readings -/

/-- What a line that counts records. -/
inductive Record
  | node (node : Node)
  | edge (edge : Edge)
  | close
  | nothing
deriving DecidableEq

/-- Whether an entity has a name that is not empty. -/
def isNamed : Option String → Bool
  | some name => name ≠ ""
  | none => false

theorem exists_name_of_isNamed {entity : Option String} (h : isNamed entity = true) :
    ∃ name, entity = some name ∧ name ≠ "" := by
  cases entity with
  | none => cases h
  | some name => exact ⟨name, rfl, by simpa [isNamed] using h⟩

/-- What an entry records while the given entity is current. -/
def Entry.record (entity : Option String) (e : Entry) : Record :=
  if Text.hasWord e.line "<Node " then
    .node (Node.ofAttributes (Markup.attributes e.line) e.inputs).value
  else if Text.hasWord e.line "<Edge " then .edge (.ofAttributes (Markup.attributes e.line))
  else if Text.hasWord e.line "</FlowGraph>" && isNamed entity then .close
  else .nothing

/-- A record and the entity that is current at it. -/
structure Reading where
  entity : Option String
  record : Record

/-- The entity that is current at an entry, after the given one. -/
def Entry.entity (before : Option String) (e : Entry) : Option String :=
  if Text.hasWord e.line "<Entity" then (Markup.attributes e.line).get? "name" else before

/-- The reading of an entry after the given entity. -/
def Entry.reading (before : Option String) (e : Entry) : Reading :=
  ⟨e.entity before, e.record (e.entity before)⟩

/-- The readings of entries, of which the first comes after the given entity. -/
def readings (before : Option String) : List Entry → List Reading
  | [] => []
  | e :: rest => e.reading before :: readings (e.entity before) rest

/-- The entity of the last reading. -/
def lastEntity (rs : List Reading) : Option String := rs.getLast?.bind Reading.entity

/-! ## Pieces -/

/-- Cut a list behind every element with a property: the pieces that end so, and what is left. -/
def cutBehind {α : Type} (p : α → Bool) : List α → List (List α) × List α
  | [] => ([], [])
  | a :: rest =>
    if p a then ([a] :: (cutBehind p rest).1, (cutBehind p rest).2)
    else
      match cutBehind p rest with
      | ([], left) => ([], a :: left)
      | (piece :: pieces, left) => ((a :: piece) :: pieces, left)

/-- Whether a reading is a closing mark. -/
def Reading.closes (r : Reading) : Bool := r.record = .close

/-- The readings up to each closing mark, and those behind the last. -/
def pieces (rs : List Reading) : List (List Reading) × List Reading := cutBehind Reading.closes rs

/-- The node of a reading under its id, if it is a node record with an id. -/
def Reading.declaration? (r : Reading) : Option (Option String × Node) :=
  match r.record with
  | .node node => if node.id = none then none else some (node.id, node)
  | _ => none

/-- The edge of a reading, if it is an edge record. -/
def Reading.edge? (r : Reading) : Option Edge :=
  match r.record with
  | .edge edge => some edge
  | _ => none

/-- The nodes of a piece: under each id its last record, at the place of its first. -/
def nodesOf (piece : List Reading) : OrderedMap (Option String) Node :=
  .latest (piece.filterMap Reading.declaration?)

/-- The edges of a piece. -/
def edgesOf (piece : List Reading) : List Edge := piece.filterMap Reading.edge?

/-- The scope of a piece that ends in a closing mark; its entity is the one current there. -/
def closedScope (piece : List Reading) : Scope :=
  ⟨lastEntity piece, nodesOf piece, edgesOf piece, false⟩

/-- The scope of what is left at the end of some readings. -/
def trailingScope (rs : List Reading) : Scope :=
  ⟨lastEntity rs, nodesOf (pieces rs).2, edgesOf (pieces rs).2, true⟩

/-- The readings of the lines of a source. -/
def ofLines (lines : List String) : List Reading :=
  readings none (entries (lines.map Text.withoutLineEnd))

/-- The scopes of some readings. -/
def scopes (rs : List Reading) : List Scope :=
  (pieces rs).1.map closedScope ++ [trailingScope rs]

/-! ### Readings one behind the other -/

theorem cutBehind_concat {α : Type} (p : α → Bool) (l : List α) (a : α) :
    cutBehind p (l ++ [a]) =
      if p a then ((cutBehind p l).1 ++ [(cutBehind p l).2 ++ [a]], [])
      else ((cutBehind p l).1, (cutBehind p l).2 ++ [a]) := by
  induction l with
  | nil => by_cases ha : p a <;> simp [cutBehind, ha]
  | cons b l ih =>
    rw [List.cons_append, cutBehind, cutBehind, ih]
    by_cases hb : p b
    · by_cases ha : p a <;> simp [ha, hb]
    · rcases hl : cutBehind p l with ⟨ps, left⟩
      cases ps with
      | nil => by_cases ha : p a <;> simp [ha, hb]
      | cons piece ps => by_cases ha : p a <;> simp [ha, hb]

/-- Pieces that are cut out of a list: in order they give it back, each but the rest ends in an
element with the property, and there is no such element elsewhere. -/
structure Cut {α : Type} (p : α → Bool) (l : List α) (cut : List (List α) × List α) : Prop where
  whole : cut.1.flatten ++ cut.2 = l
  ends : ∀ piece ∈ cut.1, ∃ front a, piece = front ++ [a] ∧ p a = true ∧ ∀ b ∈ front, p b = false
  rest : ∀ a ∈ cut.2, p a = false

theorem cut_cutBehind {α : Type} (p : α → Bool) (l : List α) : Cut p l (cutBehind p l) := by
  induction l using List.reverseRecOn with
  | nil => exact ⟨rfl, by simp [cutBehind], by simp [cutBehind]⟩
  | append_singleton l a ih =>
    have hwhole := ih.whole
    rw [cutBehind_concat]
    by_cases ha : p a = true
    · rw [if_pos ha]
      refine ⟨?_, ?_, by simp⟩
      · simp only [List.flatten_append, List.flatten_cons, List.flatten_nil, List.append_nil]
        rw [← List.append_assoc, hwhole]
      · intro piece hpiece
        rcases List.mem_append.mp hpiece with h | h
        · exact ih.ends piece h
        · exact ⟨_, a, List.mem_singleton.mp h, ha, ih.rest⟩
    · rw [if_neg ha]
      refine ⟨?_, ih.ends, ?_⟩
      · rw [← List.append_assoc, hwhole]
      · intro b hb
        rcases List.mem_append.mp hb with h | h
        · exact ih.rest b h
        · rw [List.mem_singleton.mp h]; simpa using ha

theorem lastEntity_concat (rs : List Reading) (r : Reading) :
    lastEntity (rs ++ [r]) = r.entity := by
  simp [lastEntity]

theorem edgesOf_concat (piece : List Reading) (r : Reading) :
    edgesOf (piece ++ [r]) = edgesOf piece ++ r.edge?.toList := by
  rw [edgesOf, List.filterMap_append, List.filterMap_cons, List.filterMap_nil]
  cases r.edge? <;> rfl

theorem nodesOf_concat_of_none {piece : List Reading} {r : Reading} (h : r.declaration? = none) :
    nodesOf (piece ++ [r]) = nodesOf piece := by
  simp [nodesOf, List.filterMap_append, h]

theorem nodesOf_concat_of_some {piece : List Reading} {r : Reading} {id : Option String}
    {node : Node} (h : r.declaration? = some (id, node)) :
    nodesOf (piece ++ [r]) = (nodesOf piece).insert id node := by
  rw [nodesOf, List.filterMap_append, nodesOf, OrderedMap.insert_latest]
  simp [h]

/-- The records that declare an id, in order. -/
def recordsOf (id : Option String) (piece : List Reading) : List Node :=
  OrderedMap.valuesOf id (piece.filterMap Reading.declaration?)

theorem keys_nodesOf (piece : List Reading) :
    (nodesOf piece).keys = OrderedMap.distinct ((piece.filterMap Reading.declaration?).map Prod.fst) :=
  OrderedMap.keys_latest _

theorem get?_nodesOf (piece : List Reading) (id : Option String) :
    (nodesOf piece).get? id = (recordsOf id piece).getLast? :=
  OrderedMap.get?_latest _ id

end Transcript

end FlowAtlas
