import FlowAtlas.Proofs.Markup.Spelled
import FlowAtlas.Proofs.Scan.Scopes
import FlowAtlas.Proofs.Text.Occurrence

/-!
# Lines that hold one record

A line that holds one tag or closing mark, behind indentation and before a line end, is recognized
by its mark and by no other: a `<` stands nowhere else in it.  So every such line makes the scanner
take one known step, and a line without marks makes it take none.

Main facts: `IsTag.shows`, `IsTag.attributes_eq` and, for the steps, `readLine_of_isFree`,
`readLine_entity`, `readLine_node`, `readLine_inputs`, `readLine_edge` and `readLine_close`.
-/

namespace FlowAtlas

/-! ## Line ends -/

namespace Text

/-- Whether characters are all those of line ends. -/
def IsEnding (text : List Char) : Prop := ∀ c ∈ text, isLineEnd c = true

instance (text : List Char) : Decidable (IsEnding text) :=
  decidable_of_iff (text.all isLineEnd = true) List.all_eq_true

/-- A line holds characters behind indentation and before the characters of a line end. -/
def Holds (line : String) (text : List Char) : Prop :=
  ∃ indentation ending, IsBlank indentation ∧ IsEnding ending ∧
    line.toList = indentation ++ text ++ ending

theorem Holds.withoutLineEnd_eq {line : String} {text : List Char} (h : Holds line text)
    (hlast : text.getLast? = some '>') :
    ∃ indentation, IsBlank indentation ∧
      withoutLineEnd line = String.ofList (indentation ++ text) := by
  obtain ⟨indentation, ending, hblank, hending, hline⟩ := h
  have hlast' : (indentation ++ text).getLast? = some '>' := by
    rw [List.getLast?_append, hlast]
    rfl
  refine ⟨indentation, hblank, ?_⟩
  unfold withoutLineEnd
  rw [hline, dropEnd_append hending hlast' (by decide)]

/-- A line has no more words than it had with its end. -/
theorem hasWord_withoutLineEnd {line word : String} (h : hasWord line word = false) :
    hasWord (withoutLineEnd line) word = false := by
  rw [Bool.eq_false_iff, ne_eq, hasWord_iff] at h ⊢
  intro hword
  apply h
  unfold withoutLineEnd dropEnd at hword
  rw [String.toList_ofList] at hword
  refine hword.trans (List.IsPrefix.isInfix ?_)
  rw [← List.reverse_suffix, List.reverse_reverse]
  exact List.dropWhile_suffix _

/-- A word that starts where its first character stands alone. -/
theorem occursIn_append_cons {front back word : List Char} {c : Char} (hfront : c ∉ front)
    (hback : c ∉ back) :
    occursIn (c :: word) (front ++ c :: back) = word.isPrefixOf back := by
  rw [Bool.eq_iff_iff, occursIn_iff, List.isPrefixOf_iff_prefix]
  constructor
  · rintro ⟨before, after, heq⟩
    rw [List.append_assoc, List.cons_append] at heq
    obtain ⟨-, -, hrest⟩ := (List.append_cons_inj_of_notMem hfront hback).mp heq.symm
    exact ⟨after, hrest.symm⟩
  · rintro ⟨after, rfl⟩
    exact ⟨front, after, by simp⟩

end Text

namespace Scan

open Text (IsBlank Holds)
open Markup (Spells Spellable Spelling)

/-! ## Marks -/

/-- The texts by which lines are told apart. -/
inductive Mark
  | entity
  | node
  | inputs
  | edge
  | close
deriving DecidableEq

/-- The text of a mark. -/
def Mark.text : Mark → String
  | .entity => entityMarker
  | .node => nodeMarker
  | .inputs => inputsMarker
  | .edge => edgeMarker
  | .close => closeMarker

/-- The characters with which a record of the mark begins, behind the `<`. -/
def Mark.opening : Mark → List Char
  | .entity => "Entity ".toList
  | .node => "Node ".toList
  | .inputs => "Inputs ".toList
  | .edge => "Edge ".toList
  | .close => "/FlowGraph>".toList

/-- A line without marks. -/
def IsFree (line : String) : Prop := ∀ mark : Mark, Text.hasWord line mark.text = false

theorem isFree_iff {line : String} :
    IsFree line ↔ ∀ mark ∈ [Mark.entity, .node, .inputs, .edge, .close],
      Text.hasWord line mark.text = false :=
  ⟨fun h mark _ => h mark, fun h mark => h mark (by cases mark <;> decide)⟩

instance (line : String) : Decidable (IsFree line) := decidable_of_iff _ isFree_iff.symm

/-- A line has the given mark and no other. -/
def Shows (mark : Mark) (line : String) : Prop :=
  ∀ other : Mark, Text.hasWord line other.text = decide (other = mark)

/-- No mark begins as another does. -/
theorem Mark.isPrefixOf_opening (mark other : Mark) (rest : List Char) :
    other.text.toList.tail.isPrefixOf (mark.opening ++ rest) = decide (other = mark) := by
  cases mark <;> cases other <;> rfl

theorem Mark.toList_text (mark : Mark) : mark.text.toList = '<' :: mark.text.toList.tail := by
  cases mark <;> decide

/-- An opening ends where neither a key nor the end of a tag can have begun. -/
theorem Mark.exists_opening (mark : Mark) :
    ∃ front c, mark.opening = front ++ [c] ∧ Markup.isKeyChar c = false ∧ c ≠ '/' := by
  refine ⟨mark.opening.dropLast, mark.opening.getLast (by cases mark <;> decide), ?_⟩
  cases mark <;> decide

theorem shows_of_opening {mark : Mark} {indentation rest : List Char}
    (hblank : IsBlank indentation) (hrest : '<' ∉ rest) :
    Shows mark (String.ofList (indentation ++ '<' :: (mark.opening ++ rest))) := by
  intro other
  have hopening : '<' ∉ mark.opening := by
    cases mark <;> decide
  unfold Text.hasWord
  rw [String.toList_ofList, other.toList_text, Text.occursIn_append_cons
    (hblank.not_mem (by decide)) (by simp [hopening, hrest])]
  exact mark.isPrefixOf_opening other rest

/-- The line that ends a flow graph shows its mark. -/
theorem shows_of_closing {line : String} (h : Holds line "</FlowGraph>".toList) :
    Shows .close (Text.withoutLineEnd line) := by
  obtain ⟨indentation, hblank, hline⟩ := h.withoutLineEnd_eq (by decide)
  rw [hline]
  exact shows_of_opening hblank List.not_mem_nil

/-- The line that ends a node has no mark. -/
theorem isFree_of_nodeEnd {line : String} (h : Holds line "</Node>".toList) : IsFree line := by
  obtain ⟨indentation, ending, hblank, hending, hline⟩ := h
  intro mark
  have hendless : '<' ∉ "/Node>".toList ++ ending := by
    rw [List.mem_append, not_or]
    exact ⟨by decide, fun hmem => absurd (hending _ hmem) (by decide)⟩
  have hindentless : '<' ∉ indentation := hblank.not_mem (by decide)
  have hshape : line.toList = indentation ++ '<' :: ("/Node>".toList ++ ending) := by
    rw [hline, List.append_assoc]
    rfl
  unfold Text.hasWord
  rw [hshape, mark.toList_text, Text.occursIn_append_cons hindentless hendless]
  -- the closing mark begins with a slash as well, but goes on in another way
  cases mark <;> rfl

/-! ## Tags -/

/-- How a tag ends, with a slash if nothing is inside it. -/
def tagEnd (isEmpty : Bool) : List Char := if isEmpty then "/>".toList else ">".toList

/-- A line holds a tag with the given attributes. -/
def IsTag (mark : Mark) (attributes : List (String × String)) (isEmpty : Bool) (line : String) :
    Prop :=
  ∃ text, Spells attributes text ∧ Holds line ('<' :: (mark.opening ++ (text ++ tagEnd isEmpty)))

section Tags

variable {mark : Mark} {attributes : List (String × String)} {isEmpty : Bool} {line : String}

/-- What is left of a tag's line without its line end. -/
theorem IsTag.withoutLineEnd_eq (h : IsTag mark attributes isEmpty line) :
    ∃ indentation text, IsBlank indentation ∧ Spells attributes text ∧
      Text.withoutLineEnd line =
        String.ofList (indentation ++ '<' :: (mark.opening ++ (text ++ tagEnd isEmpty))) := by
  obtain ⟨text, hspells, hholds⟩ := h
  have hlast : ('<' :: (mark.opening ++ (text ++ tagEnd isEmpty))).getLast? = some '>' := by
    cases isEmpty <;> simp [tagEnd, List.getLast?_cons, List.getLast?_append]
  obtain ⟨indentation, hblank, hline⟩ := hholds.withoutLineEnd_eq hlast
  exact ⟨indentation, text, hblank, hspells, hline⟩

theorem IsTag.shows (h : IsTag mark attributes isEmpty line) (hspellable : Spellable attributes) :
    Shows mark (Text.withoutLineEnd line) := by
  obtain ⟨indentation, text, hblank, hspells, hline⟩ := h.withoutLineEnd_eq
  have hend : '<' ∉ tagEnd isEmpty := by
    cases isEmpty <;> decide
  rw [hline]
  exact shows_of_opening hblank (by simp [hspells.lt_not_mem hspellable, hend])

/-- **A tag yields the attributes that it spells.** -/
theorem IsTag.attributes_eq (h : IsTag mark attributes isEmpty line)
    (hspellable : Spellable attributes) :
    Markup.attributes (Text.withoutLineEnd line) = .ofList attributes := by
  obtain ⟨indentation, text, hblank, hspells, hline⟩ := h.withoutLineEnd_eq
  have hopening : '=' ∉ '<' :: mark.opening := by
    cases mark <;> decide
  have hfront : '=' ∉ indentation ++ '<' :: mark.opening := by
    rw [List.mem_append, not_or]
    exact ⟨hblank.not_mem (by decide), hopening⟩
  have hlast : ∀ c ∈ (indentation ++ '<' :: mark.opening).getLast?, Markup.isKeyChar c = false := by
    obtain ⟨front, c, hc, hkey, -⟩ := mark.exists_opening
    simp [hc, List.getLast?_append, List.getLast?_cons, hkey]
  have hend : '=' ∉ tagEnd isEmpty := by
    cases isEmpty <;> decide
  rw [hline, ← hspells.attributes_eq hspellable hfront hlast hend]
  simp

/-- Nothing but its end decides how a tag ends. -/
theorem IsTag.endsIn_eq (h : IsTag mark attributes isEmpty line) :
    Text.endsIn (Text.withoutLineEnd line) selfClosing = isEmpty := by
  obtain ⟨indentation, text, hblank, hspells, hline⟩ := h.withoutLineEnd_eq
  unfold Text.endsIn
  rw [hline, String.toList_ofList]
  cases isEmpty with
  | true =>
    rw [List.isSuffixOf_iff_suffix]
    exact ⟨indentation ++ '<' :: (mark.opening ++ text), by simp [selfClosing, tagEnd]⟩
  | false =>
    rw [Bool.eq_false_iff, ne_eq, List.isSuffixOf_iff_suffix]
    rintro ⟨front, hfront⟩
    have hends : front ++ ['/'] ++ ['>'] =
        indentation ++ '<' :: (mark.opening ++ text) ++ ['>'] := by
      simpa [selfClosing, tagEnd] using hfront
    have hinner := List.append_cancel_right hends
    -- a slash before the end would be the last character of an attribute or of the opening
    obtain ⟨start, c, hc, -, hne⟩ := mark.exists_opening
    have hlast := congrArg List.getLast? hinner
    rw [hc] at hlast
    rcases List.eq_nil_or_concat text with rfl | ⟨text, last, rfl⟩
    · have hslash : '/' = c := by simpa [List.getLast?_append, List.getLast?_cons] using hlast
      exact hne hslash.symm
    · have hslash : '/' = last := by simpa [List.getLast?_append, List.getLast?_cons] using hlast
      exact hspells.getLast?_ne (by simp [← hslash])

end Tags

/-- The line of a tag, behind indentation and before a line end. -/
def tagLine (indentation : String) (mark : Mark) (spellings : List Spelling) (isEmpty : Bool)
    (ending : String) : String :=
  indentation ++
    String.ofList ('<' :: (mark.opening ++ (Spelling.text spellings ++ tagEnd isEmpty))) ++ ending

theorem isTag_of_spellings (indentation ending : String) (spellings : List Spelling) {mark : Mark}
    {isEmpty : Bool} {line : String} (hindentation : IsBlank indentation.toList)
    (hspellings : ∀ s ∈ spellings, IsBlank s.blanks.toList)
    (hending : Text.IsEnding ending.toList)
    (hline : line = tagLine indentation mark spellings isEmpty ending) :
    IsTag mark (spellings.map Spelling.attribute) isEmpty line := by
  refine ⟨Spelling.text spellings, Markup.spells_text hspellings, indentation.toList,
    ending.toList, hindentation, hending, ?_⟩
  rw [hline]
  unfold tagLine
  rw [String.toList_append, String.toList_append, String.toList_ofList]

/-- All attributes that can be spelled have a tag. -/
theorem exists_isTag {attributes : List (String × String)} (h : Spellable attributes) (mark : Mark)
    (isEmpty : Bool) : ∃ line, IsTag mark attributes isEmpty line := by
  let spellings := attributes.map fun a => Spelling.mk " " a.1 a.2
  have hattributes : spellings.map Spelling.attribute = attributes := by
    unfold spellings
    rw [List.map_map]
    refine (List.map_congr_left fun a ha => ?_).trans (List.map_id _)
    show (String.ofList (a.1.toList.map Char.toLower), a.2) = a
    rw [(h a ha).1.map_toLower, String.ofList_toList]
  have hblank : ∀ s ∈ spellings, IsBlank s.blanks.toList := by
    intro s hs
    obtain ⟨a, -, rfl⟩ := List.mem_map.mp hs
    exact (by decide : IsBlank " ".toList)
  rw [← hattributes]
  exact ⟨_, isTag_of_spellings "" "" spellings (by decide) hblank (by decide) rfl⟩

end Scan

/-! ## One step -/

namespace Transcript

open Scan

section Steps

variable {a : Assembly} {line : String}

theorem readLine_of_isFree (h : IsFree line) : readLine ⟨a, none⟩ line = ⟨a, none⟩ := by
  have hentity : Text.hasWord line entityMarker = false := h .entity
  have hnode : Text.hasWord line nodeMarker = false := h .node
  have hedge : Text.hasWord line edgeMarker = false := h .edge
  have hclose : Text.hasWord line closeMarker = false := h .close
  simp [readLine, Scan.readLine, enter, hentity, hnode, hedge, hclose]

theorem readLine_entity (h : Shows .entity line) :
    readLine ⟨a, none⟩ line =
      ⟨a.enterEntity ((Markup.attributes line).get? "name"), none⟩ := by
  have hentity : Text.hasWord line entityMarker = true := h .entity
  have hnode : Text.hasWord line nodeMarker = false := h .node
  have hedge : Text.hasWord line edgeMarker = false := h .edge
  have hclose : Text.hasWord line closeMarker = false := h .close
  simp [readLine, Scan.readLine, enter, hentity, hnode, hedge, hclose]

theorem readLine_edge (h : Shows .edge line) :
    readLine ⟨a, none⟩ line =
      ⟨a.addEdge (.ofAttributes (Markup.attributes line)), none⟩ := by
  have hentity : Text.hasWord line entityMarker = false := h .entity
  have hnode : Text.hasWord line nodeMarker = false := h .node
  have hedge : Text.hasWord line edgeMarker = true := h .edge
  simp [readLine, Scan.readLine, enter, hentity, hnode, hedge]

/-- A closing mark finishes the open scope under the current entity. -/
theorem readLine_close (h : Shows .close line) {name : String} (hname : a.entity = some name)
    (hne : name ≠ "") :
    readLine ⟨a, none⟩ line = ⟨a.conclude ⟨some name, a.nodes, a.edges, false⟩, none⟩ := by
  have hentity : Text.hasWord line entityMarker = false := h .entity
  have hnode : Text.hasWord line nodeMarker = false := h .node
  have hedge : Text.hasWord line edgeMarker = false := h .edge
  have hclose : Text.hasWord line closeMarker = true := h .close
  simp [readLine, Scan.readLine, enter, hentity, hnode, hedge, hclose, value_closeScope, hname,
    isNamed, hne]

/-- Declare a node in the open scope. -/
def declare (a : Assembly) (node : Node) : Assembly :=
  { a with nodes := a.nodes.insert node.id node }

theorem value_recordNode_of_id {inputs : Attributes}
    (hid : (Markup.attributes line).get? "id" ≠ none) :
    (recordNode a line inputs).value =
      declare a (Node.ofAttributes (Markup.attributes line) inputs).value := by
  rw [value_recordNode, if_neg hid]
  rfl

/-- A node record that ends in a slash declares a node without inputs. -/
theorem readLine_node (h : Shows .node line) (hend : Text.endsIn line selfClosing = true)
    (hid : (Markup.attributes line).get? "id" ≠ none) :
    readLine ⟨a, none⟩ line =
      ⟨declare a (Node.ofAttributes (Markup.attributes line) .empty).value, none⟩ := by
  have hentity : Text.hasWord line entityMarker = false := h .entity
  have hnode : Text.hasWord line nodeMarker = true := h .node
  simp [readLine, Scan.readLine, enter, hentity, hnode, hend, value_recordNode_of_id hid]

/-- A node record with an inputs record behind it declares a node with these inputs. -/
theorem readLine_inputs (h : Shows .node line) (hend : Text.endsIn line selfClosing = false)
    (hid : (Markup.attributes line).get? "id" ≠ none) {next : String}
    (hnext : Shows .inputs next) :
    readLine (readLine ⟨a, none⟩ line) next =
      ⟨declare a (Node.ofAttributes (Markup.attributes line) (Markup.attributes next)).value,
        none⟩ := by
  have hentity : Text.hasWord line entityMarker = false := h .entity
  have hnode : Text.hasWord line nodeMarker = true := h .node
  have hinputs : Text.hasWord next inputsMarker = true := hnext .inputs
  simp [readLine, Scan.readLine, enter, hentity, hnode, hend, value_recordNode_of_id hid,
    inputsOf, hinputs]

end Steps

end Transcript

end FlowAtlas
