import FlowAtlas.Proofs.Scan.Records

/-!
# Sources as they are written

A source can be told by what it declares: closed scopes under their entities and what follows the
last of them, each with node and edge records in some order.  Such a source can be written in many
ways, as to indentation, line ends, the letter case of keys, the order of attributes and the lines
between the records.

Main definitions: `Source`, `Source.scopes` (what it declares) and `Source.Written` (the lines on
which it may stand).  Main fact: `Source.exists_written` (every source has such lines).
-/

namespace FlowAtlas

open Markup (IsKey IsValue Spellable)
open Scan (IsFree IsTag)
open Text (Holds)

/-! ## What a source declares -/

/-- An attribute value. -/
abbrev Markup.Value := {text : String // IsValue text}

/-- The attributes that are there among some that may be absent. -/
def Markup.given (fields : List (String × Option Markup.Value)) : List (String × String) :=
  fields.flatMap fun field => field.2.toList.map fun text => (field.1, text.val)

/-- A node as it is declared. -/
structure NodeRecord where
  id : Markup.Value
  name : Option Markup.Value
  kind : Option Markup.Value
  /-- The position as it is written. -/
  position : Option Markup.Value
  inputs : Attributes
  spellable : Spellable inputs.entries

namespace NodeRecord

/-- The attributes of the node itself. -/
def fields (r : NodeRecord) : List (String × Option Markup.Value) :=
  [("id", some r.id), ("name", r.name), ("class", r.kind), ("pos", r.position)]

/-- The node that is declared. -/
def node (r : NodeRecord) : Node where
  id := some r.id
  name := r.name.map Subtype.val
  kind := r.kind.map Subtype.val
  position := (Position.read (r.position.map Subtype.val)).value
  inputs := r.inputs

end NodeRecord

/-- An edge as it is declared. -/
structure EdgeRecord where
  source : Option Markup.Value
  target : Option Markup.Value
  sourcePort : Option Markup.Value
  targetPort : Option Markup.Value

namespace EdgeRecord

def fields (r : EdgeRecord) : List (String × Option Markup.Value) :=
  [("nodeout", r.source), ("nodein", r.target), ("portout", r.sourcePort),
    ("portin", r.targetPort)]

/-- The edge that is declared. -/
def edge (r : EdgeRecord) : Edge where
  source := r.source.map Subtype.val
  target := r.target.map Subtype.val
  sourcePort := r.sourcePort.map Subtype.val
  targetPort := r.targetPort.map Subtype.val

end EdgeRecord

/-- A record in a scope. -/
inductive Item
  | node (record : NodeRecord)
  | edge (record : EdgeRecord)

namespace Item

/-- The node that the record declares, under its id. -/
def declaration? : Item → Option (Option String × Node)
  | node r => some (r.node.id, r.node)
  | edge _ => none

/-- The edge that the record declares. -/
def edge? : Item → Option Edge
  | node _ => none
  | edge r => some r.edge

end Item

/-- The records of a scope, in any order, with distinct ids. -/
structure Content where
  items : List Item
  distinct : ((items.filterMap Item.declaration?).map Prod.fst).Nodup

namespace Content

/-- The nodes under their ids, in order. -/
def nodes (c : Content) : OrderedMap (Option String) Node :=
  ⟨c.items.filterMap Item.declaration?, c.distinct⟩

def edges (c : Content) : List Edge := c.items.filterMap Item.edge?

end Content

/-- A scope with an entity of its own. -/
structure ClosedScope where
  entity : Markup.Value
  named : entity.val ≠ ""
  content : Content

/-- The scope that is declared. -/
def ClosedScope.scope (c : ClosedScope) : Scope :=
  ⟨some c.entity, c.content.nodes, c.content.edges, false⟩

/-- Closed scopes, and the records behind the last of them. -/
structure Source where
  closed : List ClosedScope
  trailing : Content

namespace Source

/-- The entity of the last closed scope. -/
def lastEntity (s : Source) : Option String := s.closed.getLast?.map fun c => c.entity

/-- The scopes that the source declares: the closed ones, then the trailing one, which goes by the
last entity. -/
def scopes (s : Source) : List Scope :=
  s.closed.map ClosedScope.scope ++ [⟨s.lastEntity, s.trailing.nodes, s.trailing.edges, true⟩]

end Source

/-! ## How it is written -/

/-- Lines on which a record is written. -/
inductive Item.Written : Item → List String → Prop
  /-- A node on one line, which has no inputs. -/
  | bare {r : NodeRecord} {attributes : List (String × String)} {line : String}
      (hinputs : r.inputs = .empty) (horder : attributes.Perm (Markup.given r.fields))
      (hline : IsTag .node attributes true line) : Written (.node r) [line]
  /-- A node with its inputs on the next line, and lines without marks before it ends. -/
  | withInputs {r : NodeRecord} {attributes : List (String × String)} {line inputs last : String}
      {between : List String} (horder : attributes.Perm (Markup.given r.fields))
      (hline : IsTag .node attributes false line)
      (hinputs : IsTag .inputs r.inputs.entries true inputs)
      (hbetween : ∀ other ∈ between, IsFree other) (hlast : Holds last "</Node>".toList) :
      Written (.node r) (line :: inputs :: (between ++ [last]))
  | edge {r : EdgeRecord} {attributes : List (String × String)} {line : String}
      (horder : attributes.Perm (Markup.given r.fields))
      (hline : IsTag .edge attributes true line) : Written (.edge r) [line]

/-- Lines on which records are written one after the other, with lines without marks around them. -/
inductive WrittenItems : List Item → List String → Prop
  | nil : WrittenItems [] []
  | between {items : List Item} {line : String} {rest : List String} (hfree : IsFree line)
      (hrest : WrittenItems items rest) : WrittenItems items (line :: rest)
  | cons {item : Item} {items : List Item} {lines rest : List String} (hitem : item.Written lines)
      (hrest : WrittenItems items rest) : WrittenItems (item :: items) (lines ++ rest)

/-- Lines on which a source is written. -/
inductive Source.Written : Source → List String → Prop
  /-- What follows the last closed scope. -/
  | trailing {content : Content} {lines : List String} (hlines : WrittenItems content.items lines) :
      Written ⟨[], content⟩ lines
  | between {source : Source} {line : String} {rest : List String} (hfree : IsFree line)
      (hrest : Written source rest) : Written source (line :: rest)
  /-- A closed scope between the line of its entity and the one that ends its flow graph. -/
  | closed {scope : ClosedScope} {source : Source} {first last : String}
      {lines rest : List String} (hfirst : IsTag .entity [("name", scope.entity)] false first)
      (hlines : WrittenItems scope.content.items lines)
      (hlast : Holds last "</FlowGraph>".toList) (hrest : Written source rest) :
      Written ⟨scope :: source.closed, source.trailing⟩ (first :: (lines ++ last :: rest))

/-! ## Everything can be written -/

namespace Markup

variable {fields : List (String × Option Value)}

theorem mem_given {a : String × String} (h : a ∈ given fields) :
    ∃ field ∈ fields, a.1 = field.1 ∧ IsValue a.2 := by
  obtain ⟨field, hfield, ha⟩ := List.mem_flatMap.mp h
  obtain ⟨text, -, rfl⟩ := List.mem_map.mp ha
  exact ⟨field, hfield, rfl, text.property⟩

theorem spellable_given (h : ∀ field ∈ fields, IsKey field.1) : Spellable (given fields) := by
  intro a ha
  obtain ⟨field, hfield, hkey, hvalue⟩ := mem_given ha
  exact ⟨hkey ▸ h field hfield, hvalue⟩

end Markup

theorem NodeRecord.isKey_fields (r : NodeRecord) : ∀ field ∈ r.fields, IsKey field.1 := by
  simp only [fields, List.forall_mem_cons]
  decide

theorem EdgeRecord.isKey_fields (r : EdgeRecord) : ∀ field ∈ r.fields, IsKey field.1 := by
  simp only [fields, List.forall_mem_cons]
  decide

theorem ClosedScope.spellable_entity (c : ClosedScope) :
    Spellable [("name", c.entity.val)] := by
  intro pair hpair
  rw [List.mem_singleton.mp hpair]
  exact ⟨(by decide : IsKey "name"), c.entity.property⟩

theorem Text.holds_self (text : String) : Holds text text.toList :=
  ⟨[], [], by decide, by decide, by simp⟩

theorem Item.exists_written (item : Item) : ∃ lines, item.Written lines := by
  cases item with
  | node r =>
    have hspellable := Markup.spellable_given r.isKey_fields
    by_cases hnone : r.inputs = .empty
    · obtain ⟨line, hline⟩ := Scan.exists_isTag hspellable .node true
      exact ⟨_, .bare hnone (.refl _) hline⟩
    · obtain ⟨line, hline⟩ := Scan.exists_isTag hspellable .node false
      obtain ⟨inputs, hinputs⟩ := Scan.exists_isTag r.spellable .inputs true
      exact ⟨_, .withInputs (.refl _) hline hinputs (List.forall_mem_nil _)
        (Text.holds_self "</Node>")⟩
  | edge r =>
    obtain ⟨line, hline⟩ := Scan.exists_isTag (Markup.spellable_given r.isKey_fields) .edge true
    exact ⟨_, .edge (.refl _) hline⟩

theorem exists_writtenItems (items : List Item) : ∃ lines, WrittenItems items lines := by
  induction items with
  | nil => exact ⟨_, .nil⟩
  | cons item items ih =>
    obtain ⟨lines, hlines⟩ := item.exists_written
    obtain ⟨rest, hrest⟩ := ih
    exact ⟨_, .cons hlines hrest⟩

/-- **There are lines for every source.** -/
theorem Source.exists_written (source : Source) : ∃ lines, source.Written lines := by
  obtain ⟨closed, trailing⟩ := source
  induction closed with
  | nil =>
    obtain ⟨lines, hlines⟩ := exists_writtenItems trailing.items
    exact ⟨_, .trailing hlines⟩
  | cons scope closed ih =>
    obtain ⟨first, hfirst⟩ := Scan.exists_isTag scope.spellable_entity .entity false
    obtain ⟨lines, hlines⟩ := exists_writtenItems scope.content.items
    obtain ⟨rest, hrest⟩ := ih
    exact ⟨_, .closed hfirst hlines (Text.holds_self "</FlowGraph>") hrest⟩

end FlowAtlas
