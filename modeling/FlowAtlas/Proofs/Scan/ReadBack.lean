import FlowAtlas.Proofs.Scan.Written

/-!
# Sources are read back

The scanner recovers what a source declares from all the lines on which it may be written: every
scope, in order, with its nodes, edges and entity.  Each way of writing a record makes the scanner
declare that record and nothing else, and so the records of a scope are declared in order whatever
stands between them.

Main facts: `Item.Written.readAll_eq` (the lines of one record), `WrittenItems.readAll_eq` (those of
a scope) and `Source.written_read_back`.
-/

namespace FlowAtlas

open Markup (Spellable)
open Scan (IsFree IsTag selfClosing)
open OrderedMap (valuesOf)

/-! ## Attributes of records -/

namespace Markup

variable {fields : List (String × Option Value)}

theorem valuesOf_given (hdistinct : (fields.map Prod.fst).Nodup) {key : String}
    {value : Option Value} (h : (key, value) ∈ fields) :
    valuesOf key (given fields) = (value.map Subtype.val).toList := by
  induction fields with
  | nil => cases h
  | cons field fields ih =>
    obtain ⟨hnew, hrest⟩ := List.nodup_cons.mp hdistinct
    have hcons : given (field :: fields) =
        (field.2.toList.map fun text => (field.1, text.val)) ++ given fields := rfl
    rw [hcons, OrderedMap.valuesOf_append]
    rcases List.mem_cons.mp h with rfl | h
    · have hnone : valuesOf key (given fields) = [] := by
        rw [OrderedMap.valuesOf_eq_nil_iff]
        intro hmem
        obtain ⟨a, ha, rfl⟩ := List.mem_map.mp hmem
        obtain ⟨other, hother, hkey, -⟩ := mem_given ha
        exact hnew (hkey ▸ List.mem_map_of_mem hother)
      rw [hnone, List.append_nil]
      cases value <;> simp [valuesOf]
    · have hne : field.1 ≠ key := fun heq => hnew (heq ▸ List.mem_map_of_mem h)
      rw [ih hrest h]
      cases field.2 <;> simp [valuesOf, hne]

/-- The attributes that are given yield the fields, in any order. -/
theorem get?_given {attributes : List (String × String)} (horder : attributes.Perm (given fields))
    (hdistinct : (fields.map Prod.fst).Nodup) {key : String} {value : Option Value}
    (h : (key, value) ∈ fields) :
    (OrderedMap.ofList attributes).get? key = value.map Subtype.val :=
  OrderedMap.get?_ofList_of_perm horder (valuesOf_given hdistinct h)

end Markup

namespace NodeRecord

variable {r : NodeRecord} {attributes : List (String × String)}

theorem nodup_fields : (r.fields.map Prod.fst).Nodup := by
  simp [fields]

theorem get?_id (horder : attributes.Perm (Markup.given r.fields)) :
    (OrderedMap.ofList attributes).get? "id" = some r.id.val :=
  Markup.get?_given horder nodup_fields (List.mem_cons_self ..)

/-- The attributes of a node declare it in any order. -/
theorem ofAttributes_eq (horder : attributes.Perm (Markup.given r.fields)) :
    (Node.ofAttributes (.ofList attributes) r.inputs).value = r.node := by
  have hname : (OrderedMap.ofList attributes).get? "name" = r.name.map Subtype.val :=
    Markup.get?_given horder nodup_fields (by simp [fields])
  have hkind : (OrderedMap.ofList attributes).get? "class" = r.kind.map Subtype.val :=
    Markup.get?_given horder nodup_fields (by simp [fields])
  have hposition : (OrderedMap.ofList attributes).get? "pos" = r.position.map Subtype.val :=
    Markup.get?_given horder nodup_fields (by simp [fields])
  unfold Node.ofAttributes NodeRecord.node
  rw [Logged.value_bind, Logged.value_pure, get?_id horder, hname, hkind, hposition]

/-- What the line of a node's tag says, whether the tag is empty or not. -/
theorem of_isTag {isEmpty : Bool} {line : String} (horder : attributes.Perm (Markup.given r.fields))
    (hline : IsTag .node attributes isEmpty line) :
    Scan.Shows .node (Text.withoutLineEnd line) ∧
      (Markup.attributes (Text.withoutLineEnd line)).get? "id" ≠ none ∧
      (Node.ofAttributes (Markup.attributes (Text.withoutLineEnd line)) r.inputs).value =
        r.node := by
  have hspellable := (Markup.spellable_given r.isKey_fields).perm horder
  rw [hline.attributes_eq hspellable, get?_id horder]
  exact ⟨hline.shows hspellable, Option.some_ne_none _, ofAttributes_eq horder⟩

end NodeRecord

namespace EdgeRecord

variable {r : EdgeRecord} {attributes : List (String × String)}

theorem nodup_fields : (r.fields.map Prod.fst).Nodup := by
  simp [fields]

/-- The attributes of an edge declare it in any order. -/
theorem ofAttributes_eq (horder : attributes.Perm (Markup.given r.fields)) :
    Edge.ofAttributes (.ofList attributes) = r.edge := by
  have hsource : (OrderedMap.ofList attributes).get? "nodeout" = r.source.map Subtype.val :=
    Markup.get?_given horder nodup_fields (by simp [fields])
  have htarget : (OrderedMap.ofList attributes).get? "nodein" = r.target.map Subtype.val :=
    Markup.get?_given horder nodup_fields (by simp [fields])
  have hsourcePort : (OrderedMap.ofList attributes).get? "portout" = r.sourcePort.map Subtype.val :=
    Markup.get?_given horder nodup_fields (by simp [fields])
  have htargetPort : (OrderedMap.ofList attributes).get? "portin" = r.targetPort.map Subtype.val :=
    Markup.get?_given horder nodup_fields (by simp [fields])
  unfold Edge.ofAttributes EdgeRecord.edge
  rw [hsource, htarget, hsourcePort, htargetPort]

end EdgeRecord

/-! ## Reading lines -/

namespace Scan

/-- Read lines that have their line ends. -/
def readAll (s : Scan) (lines : List String) : Scan :=
  (lines.map Text.withoutLineEnd).foldl Transcript.readLine s

theorem readAll_cons (s : Scan) (line : String) (lines : List String) :
    s.readAll (line :: lines) =
      (Transcript.readLine s (Text.withoutLineEnd line)).readAll lines := rfl

theorem readAll_append (s : Scan) (lines lines' : List String) :
    s.readAll (lines ++ lines') = (s.readAll lines).readAll lines' := by
  unfold readAll
  rw [List.map_append, List.foldl_append]

/-- Lines without marks are read over. -/
theorem readAll_of_isFree {a : Assembly} {lines : List String} (h : ∀ line ∈ lines, IsFree line) :
    readAll ⟨a, none⟩ lines = ⟨a, none⟩ := by
  induction lines with
  | nil => rfl
  | cons line lines ih =>
    have hline : IsFree (Text.withoutLineEnd line) := fun mark =>
      Text.hasWord_withoutLineEnd (h line (List.mem_cons_self ..) mark)
    rw [readAll_cons, Transcript.readLine_of_isFree hline]
    exact ih fun other hother => h other (List.mem_cons_of_mem _ hother)

end Scan

/-- The scopes of lines are what is finished when all of them are read. -/
theorem value_assembleScopes_eq_readAll (lines : List String) :
    (assembleScopes lines).value = (Scan.readAll Scan.start lines).finish.value.finished := by
  have hscan : (Logged.fold Scan.readLine Scan.start (lines.map Text.withoutLineEnd)).value =
      Scan.readAll Scan.start lines := Logged.value_fold _ _ _
  unfold assembleScopes
  rw [Logged.value_bind, Logged.value_bind, Logged.value_pure, hscan]

/-- Declare what a record declares. -/
def Item.declareIn (a : Assembly) : Item → Assembly
  | .node r => Transcript.declare a r.node
  | .edge r => a.addEdge r.edge

open Scan (readAll readAll_cons readAll_append readAll_of_isFree)

/-- **The lines of a record declare it**, however it is written. -/
theorem Item.Written.readAll_eq {item : Item} {lines : List String} (h : item.Written lines)
    (a : Assembly) : readAll ⟨a, none⟩ lines = ⟨item.declareIn a, none⟩ := by
  cases h with
  | bare hinputs horder hline =>
    obtain ⟨hshows, hid, hnode⟩ := NodeRecord.of_isTag horder hline
    rw [readAll_cons, Transcript.readLine_node hshows hline.endsIn_eq hid, ← hinputs, hnode]
    rfl
  | @withInputs r _ _ inputs last between horder hline hinputs hbetween hlast =>
    obtain ⟨hshows, hid, hnode⟩ := NodeRecord.of_isTag horder hline
    have hread : Markup.attributes (Text.withoutLineEnd inputs) = r.inputs := by
      rw [hinputs.attributes_eq r.spellable]
      exact OrderedMap.ofList_eq r.inputs.nodup
    have hfree : ∀ other ∈ between ++ [last], IsFree other := by
      intro other hother
      rcases List.mem_append.mp hother with h | h
      · exact hbetween other h
      · rw [List.mem_singleton.mp h]
        exact Scan.isFree_of_nodeEnd hlast
    rw [readAll_cons, readAll_cons, Transcript.readLine_inputs hshows hline.endsIn_eq hid
      (hinputs.shows r.spellable), hread, hnode]
    exact readAll_of_isFree hfree
  | @edge r _ _ horder hline =>
    have hspellable := (Markup.spellable_given r.isKey_fields).perm horder
    rw [readAll_cons, Transcript.readLine_edge (hline.shows hspellable),
      hline.attributes_eq hspellable, EdgeRecord.ofAttributes_eq horder]
    rfl

/-- The lines of a scope's records declare them in order. -/
theorem WrittenItems.readAll_foldl {items : List Item} {lines : List String}
    (h : WrittenItems items lines) (a : Assembly) :
    readAll ⟨a, none⟩ lines = ⟨items.foldl Item.declareIn a, none⟩ := by
  induction h generalizing a with
  | nil => rfl
  | between hfree hrest ih =>
    rw [← List.singleton_append, readAll_append,
      readAll_of_isFree fun line hline => List.mem_singleton.mp hline ▸ hfree]
    exact ih a
  | cons hitem hrest ih =>
    rw [readAll_append, hitem.readAll_eq, List.foldl_cons]
    exact ih _

/-- Declaring records adds their nodes and edges behind those that are there. -/
theorem Item.foldl_declareIn (items : List Item) (a : Assembly) :
    items.foldl Item.declareIn a =
      ⟨a.entity, a.finished, a.nodes.insertAll (items.filterMap Item.declaration?),
        a.edges ++ items.filterMap Item.edge?⟩ := by
  induction items generalizing a with
  | nil =>
    rw [List.foldl_nil, List.filterMap_nil, List.filterMap_nil, List.append_nil]
    rfl
  | cons item items ih =>
    rw [List.foldl_cons, ih]
    cases item with
    | node r => rfl
    | edge r =>
      have hnodes : (edge r :: items).filterMap declaration? = items.filterMap declaration? := rfl
      have hedges : (edge r :: items).filterMap edge? = r.edge :: items.filterMap edge? := rfl
      rw [hnodes, hedges, List.append_cons]
      rfl

/-- Read where nothing is open, the records of a scope are what is open then. -/
theorem Content.readAll_eq {content : Content} {lines : List String}
    (h : WrittenItems content.items lines) {a : Assembly} (hnodes : a.nodes = .empty)
    (hedges : a.edges = []) :
    readAll ⟨a, none⟩ lines = ⟨⟨a.entity, a.finished, content.nodes, content.edges⟩, none⟩ := by
  have hfill : a.nodes.insertAll (content.items.filterMap Item.declaration?) = content.nodes := by
    rw [hnodes]
    exact OrderedMap.ofList_eq content.distinct
  rw [h.readAll_foldl, Item.foldl_declareIn, hfill, hedges, List.nil_append]
  rfl

/-- A closed scope is finished under its own entity. -/
theorem ClosedScope.readAll_eq {scope : ClosedScope} {first last : String} {lines : List String}
    (hfirst : IsTag .entity [("name", scope.entity)] false first)
    (hlines : WrittenItems scope.content.items lines)
    (hlast : Text.Holds last "</FlowGraph>".toList)
    {a : Assembly} (hnodes : a.nodes = .empty) (hedges : a.edges = []) :
    readAll ⟨a, none⟩ (first :: (lines ++ [last])) =
      ⟨⟨some scope.entity, a.finished ++ [scope.scope], .empty, []⟩, none⟩ := by
  have hspellable := scope.spellable_entity
  have hname : (Markup.attributes (Text.withoutLineEnd first)).get? "name" =
      some scope.entity.val := by
    rw [hfirst.attributes_eq hspellable]
    rfl
  rw [readAll_cons, Transcript.readLine_entity (hfirst.shows hspellable), hname, readAll_append,
    Content.readAll_eq (a := a.enterEntity (some scope.entity)) hlines hnodes hedges, readAll_cons,
    Transcript.readLine_close (Scan.shows_of_closing hlast) rfl scope.named]
  rfl

/-- Unless there is a later one, the entity of the first closed scope is the last. -/
theorem Source.lastEntity_cons (source : Source) (scope : ClosedScope) :
    Source.lastEntity ⟨scope :: source.closed, source.trailing⟩ =
      source.lastEntity.or (some scope.entity) := by
  unfold Source.lastEntity
  dsimp only
  rw [List.getLast?_cons]
  cases source.closed.getLast? <;> rfl

/-- Read where nothing is open, a source leaves its closed scopes finished and the rest open. -/
theorem Source.Written.readAll_eq {source : Source} {lines : List String}
    (h : source.Written lines) {a : Assembly} (hnodes : a.nodes = .empty) (hedges : a.edges = []) :
    readAll ⟨a, none⟩ lines =
      ⟨⟨source.lastEntity.or a.entity, a.finished ++ source.closed.map ClosedScope.scope,
        source.trailing.nodes, source.trailing.edges⟩, none⟩ := by
  induction h generalizing a with
  | @trailing content lines hlines =>
    rw [Content.readAll_eq hlines hnodes hedges]
    simp [Source.lastEntity]
  | @between source line rest hfree hrest ih =>
    rw [← List.singleton_append, readAll_append,
      readAll_of_isFree fun line hline => List.mem_singleton.mp hline ▸ hfree]
    exact ih hnodes hedges
  | @closed scope source first last lines rest hfirst hlines hlast hrest ih =>
    have hclosed := ClosedScope.readAll_eq hfirst hlines hlast hnodes hedges
    have hentity : source.lastEntity.or (some scope.entity.val) =
        (Source.lastEntity ⟨scope :: source.closed, source.trailing⟩).or a.entity := by
      rw [source.lastEntity_cons, Option.or_assoc]
      rfl
    rw [List.append_cons, ← List.cons_append, readAll_append, hclosed, ih rfl rfl, ← hentity,
      List.append_assoc]
    rfl

theorem Source.Written.value_assembleScopes {source : Source} {lines : List String}
    (h : source.Written lines) : (assembleScopes lines).value = source.scopes := by
  have hread : readAll Scan.start lines =
      ⟨⟨source.lastEntity, source.closed.map ClosedScope.scope, source.trailing.nodes,
        source.trailing.edges⟩, none⟩ := by
    rw [← Option.or_none (o := source.lastEntity)]
    exact h.readAll_eq rfl rfl
  rw [value_assembleScopes_eq_readAll, hread]
  rfl

/-- **Every source can be written, and is read back from all lines on which it is written.** -/
theorem Source.written_read_back (source : Source) :
    (∃ lines, source.Written lines) ∧
      ∀ lines, source.Written lines → (assembleScopes lines).value = source.scopes :=
  ⟨source.exists_written, fun _ h => h.value_assembleScopes⟩

/-! ## A source in mixed spelling -/

namespace MixedSpelling

def lamp : NodeRecord where
  id := ⟨"2", by decide⟩
  name := some ⟨"Lamp / left", by decide⟩
  kind := some ⟨"Comment", by decide⟩
  position := none
  inputs := .ofList [("value", "a/b, c"), ("key_a", "/")]
  spellable := by decide

def gate : NodeRecord where
  id := ⟨"1", by decide⟩
  name := none
  kind := some ⟨"Ark:EndGame", by decide⟩
  position := some ⟨"1,2.5", by decide⟩
  inputs := .empty
  spellable := by decide

def wire : EdgeRecord where
  source := some ⟨"1", by decide⟩
  target := some ⟨"2", by decide⟩
  sourcePort := some ⟨"out", by decide⟩
  targetPort := none

def stray : EdgeRecord := ⟨some ⟨"3", by decide⟩, none, none, none⟩

def door : ClosedScope where
  entity := ⟨"Front door", by decide⟩
  named := by decide
  content := ⟨[.node lamp, .edge wire, .node gate], by decide⟩

def rest : Content := ⟨[.edge stray], by decide⟩

def source : Source := ⟨[door], rest⟩

def lines : List String :=
  ["<?xml version=\"1.0\"?>\r\n",
    "<Entity NAME=\"Front door\">\r\n",
    "  <FlowGraph>\r\n",
    "\t<Node Class=\"Comment\" Id=\"2\"  name=\"Lamp / left\">\r\n",
    "\t  <Inputs value=\"a/b, c\" Key_A=\"/\"/>\r\n",
    "\t</Node>\r\n",
    "  <Edge PortOut=\"out\" NodeIn=\"2\" NodeOut=\"1\"/>",
    "",
    "<Node Pos=\"1,2.5\" Id=\"1\" CLASS=\"Ark:EndGame\"/>\n",
    "</FlowGraph>\n",
    " <Edge NODEOUT=\"3\"/>\n"]

theorem written_lamp : (Item.node lamp).Written
    ["\t<Node Class=\"Comment\" Id=\"2\"  name=\"Lamp / left\">\r\n",
      "\t  <Inputs value=\"a/b, c\" Key_A=\"/\"/>\r\n", "\t</Node>\r\n"] := by
  have hline : IsTag .node [("class", "Comment"), ("id", "2"), ("name", "Lamp / left")] false
      "\t<Node Class=\"Comment\" Id=\"2\"  name=\"Lamp / left\">\r\n" :=
    Scan.isTag_of_spellings "\t" "\r\n"
      [⟨"", "Class", "Comment"⟩, ⟨" ", "Id", "2"⟩, ⟨"  ", "name", "Lamp / left"⟩]
      (by decide) (by decide) (by decide) (by decide)
  have hinputs : IsTag .inputs lamp.inputs.entries true
      "\t  <Inputs value=\"a/b, c\" Key_A=\"/\"/>\r\n" :=
    Scan.isTag_of_spellings "\t  " "\r\n" [⟨"", "value", "a/b, c"⟩, ⟨" ", "Key_A", "/"⟩]
      (by decide) (by decide) (by decide) (by decide)
  exact Item.Written.withInputs (by decide) hline hinputs (List.forall_mem_nil _)
    ⟨"\t".toList, "\r\n".toList, by decide, by decide, by decide⟩

theorem written_wire :
    (Item.edge wire).Written ["  <Edge PortOut=\"out\" NodeIn=\"2\" NodeOut=\"1\"/>"] :=
  .edge (by decide) (Scan.isTag_of_spellings "  " ""
    [⟨"", "PortOut", "out"⟩, ⟨" ", "NodeIn", "2"⟩, ⟨" ", "NodeOut", "1"⟩]
    (by decide) (by decide) (by decide) (by decide))

theorem written_gate :
    (Item.node gate).Written ["<Node Pos=\"1,2.5\" Id=\"1\" CLASS=\"Ark:EndGame\"/>\n"] :=
  .bare rfl (by decide) (Scan.isTag_of_spellings "" "\n"
    [⟨"", "Pos", "1,2.5"⟩, ⟨" ", "Id", "1"⟩, ⟨" ", "CLASS", "Ark:EndGame"⟩]
    (by decide) (by decide) (by decide) (by decide))

theorem written_stray : (Item.edge stray).Written [" <Edge NODEOUT=\"3\"/>\n"] :=
  .edge (by decide) (Scan.isTag_of_spellings " " "\n" [⟨"", "NODEOUT", "3"⟩]
    (by decide) (by decide) (by decide) (by decide))

theorem written : source.Written lines := by
  have hfirst : IsTag .entity [("name", door.entity)] false "<Entity NAME=\"Front door\">\r\n" :=
    Scan.isTag_of_spellings "" "\r\n" [⟨"", "NAME", "Front door"⟩]
      (by decide) (by decide) (by decide) (by decide)
  have hgate : WrittenItems [.node gate] ("" :: (_ ++ [])) :=
    .between (by decide) (.cons written_gate .nil)
  have hdoor : WrittenItems door.content.items ("  <FlowGraph>\r\n" :: (_ ++ (_ ++ _))) :=
    .between (by decide) (.cons written_lamp (.cons written_wire hgate))
  have hlast : Text.Holds "</FlowGraph>\n" "</FlowGraph>".toList :=
    ⟨[], "\n".toList, by decide, by decide, by decide⟩
  have hrest : Source.Written ⟨[], rest⟩ (_ ++ []) := .trailing (.cons written_stray .nil)
  have hsource := Source.Written.closed hfirst hdoor hlast hrest
  exact .between (by decide) hsource

end MixedSpelling

open MixedSpelling in
theorem mixedSpelling_written_read_back :
    source.Written lines ∧ (assembleScopes lines).value = source.scopes :=
  ⟨written, (Source.written_read_back source).2 lines written⟩

end FlowAtlas
