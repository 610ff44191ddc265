import FlowAtlas.Label.Labeller
import FlowAtlas.Proofs.Scan.Scopes
import FlowAtlas.Proofs.Tables.Ids
import FlowAtlas.Proofs.Text.Occurrence

/-!
# Texts that cannot hold the mark

The mark of what is missing begins with `<`.  No attribute has this character in its key or its
value, so neither a node of a source nor a loaded table has it anywhere, and no text that is put
together from such texts has the mark.

Main facts: `Node.unmarked_of_mem` (nodes of a source) and `Tables.unmarked_of_gives_load`.
-/

namespace FlowAtlas

/-! ## Unmarked texts -/

namespace Text

/-- The text does not have the character that the mark begins with. -/
def Unmarked (text : String) : Prop := '<' ∉ text.toList

instance (text : String) : Decidable (Unmarked text) := inferInstanceAs (Decidable (_ ∉ _))

theorem Unmarked.hasWord {text : String} (h : Unmarked text) :
    hasWord text missingMark = false :=
  hasWord_eq_false (c := '<') (by decide) h

@[simp] theorem unmarked_append {s t : String} :
    Unmarked (s ++ t) ↔ Unmarked s ∧ Unmarked t := by
  unfold Unmarked
  rw [String.toList_append, List.mem_append, not_or]

theorem unmarked_intercalate {separator : String} (hs : Unmarked separator) {texts : List String}
    (h : ∀ text ∈ texts, Unmarked text) : Unmarked (separator.intercalate texts) := by
  induction texts with
  | nil => simp [Unmarked]
  | cons text texts ih =>
    have hrest := ih fun t ht => h t (List.mem_cons_of_mem _ ht)
    have hfirst := h text (List.mem_cons_self ..)
    cases texts with
    | nil => simpa using hfirst
    | cons => simp [hfirst, hs, hrest]

theorem unmarked_decimal (n : Nat) : Unmarked (decimal n) := by
  unfold Unmarked decimal
  rw [String.toList_ofList]
  intro hmem
  have hdigit : ('<').isDigit = true := Nat.isDigit_of_mem_toDigits (by omega) (by omega) hmem
  revert hdigit
  decide

end Text

open Text

theorem unmarked_unsigned64 {text : String} (h : Unmarked text) : Unmarked (unsigned64 text) := by
  unfold unsigned64
  split
  · split
    · exact unmarked_decimal _
    · exact h
  · exact h

theorem IdForm.unmarked_of (form : IdForm) {id : String} (h : Unmarked id) :
    Unmarked (form.of id) := by
  cases form with
  | plain => exact h
  | unsigned => exact unmarked_unsigned64 h

/-! ## Attributes -/

/-- The keys and values of inputs are unmarked. -/
def Attributes.Unmarked (inputs : Attributes) : Prop :=
  ∀ key value, inputs.get? key = some value → Text.Unmarked key ∧ Text.Unmarked value

theorem unmarked_formatInputs {inputs : Attributes} (h : inputs.Unmarked) :
    Unmarked (formatInputs inputs) := by
  unfold formatInputs
  dsimp only
  have hbraces : Unmarked "\x7b" ∧ Unmarked "\x7d" := by decide
  rw [unmarked_append, unmarked_append]
  refine ⟨⟨hbraces.1, unmarked_intercalate (by decide) fun text htext => ?_⟩, hbraces.2⟩
  obtain ⟨input, hinput, rfl⟩ := List.mem_map.mp htext
  have hmem : input ∈ inputs.entries := (perm_sortByText Prod.fst inputs.entries).mem_iff.mp hinput
  obtain ⟨hkey, hvalue⟩ := h input.1 input.2 (OrderedMap.get?_of_mem hmem)
  simp only [unmarked_append]
  exact ⟨⟨hkey, by decide⟩, hvalue⟩

/-- What is written of a node without a rule. -/
theorem unmarked_fallbackLabel {kind : Option String} {inputs : Attributes}
    (hkind : ∀ text, kind = some text → Unmarked text) (h : inputs.Unmarked) :
    Unmarked (fallbackLabel kind inputs) := by
  unfold fallbackLabel
  have horNone : Unmarked (Text.orNone kind) := by
    cases kind with
    | none => decide
    | some text => exact hkind text rfl
  simp only [unmarked_append]
  exact ⟨⟨horNone, by decide⟩, unmarked_formatInputs h⟩

namespace Markup

theorem IsValue.unmarked {text : String} (h : IsValue text) : Unmarked text :=
  h.not_mem (by decide)

theorem unmarked_attributes (line : String) : (attributes line).Unmarked := by
  intro key value h
  refine ⟨fun hmem => ?_, (isValue_of_get? h).unmarked⟩
  have hkey : isKeyChar '<' = true := isKeyChar_of_get? h '<' hmem
  revert hkey
  decide

end Markup

/-! ## Nodes -/

/-- No text of the node has the character that the mark begins with. -/
structure Node.Unmarked (node : Node) : Prop where
  id : ∀ id, node.id = some id → Text.Unmarked id
  name : ∀ name, node.name = some name → Text.Unmarked name
  kind : ∀ kind, node.kind = some kind → Text.Unmarked kind
  inputs : node.inputs.Unmarked

namespace Transcript

theorem Entry.unmarked_inputs (e : Entry) : e.inputs.Unmarked := by
  have hempty : Attributes.Unmarked .empty := by
    intro key value h
    cases h
  unfold Entry.inputs
  split
  · split
    · exact Markup.unmarked_attributes _
    · exact hempty
  · exact hempty

end Transcript

open Transcript in
/-- **No node of a source can be taken for one that lacks a value.** -/
theorem Node.unmarked_of_get? {lines : List String} {scope : Scope}
    (h : scope ∈ (assembleScopes lines).value) {id : Option String} {node : Node}
    (hnode : scope.nodes.get? id = some node) : node.Unmarked := by
  obtain ⟨e, -, rfl⟩ := exists_entry_of_get? h hnode
  exact ⟨fun _ hid => (Markup.isValue_of_get? hid).unmarked,
    fun _ hname => (Markup.isValue_of_get? hname).unmarked,
    fun _ hkind => (Markup.isValue_of_get? hkind).unmarked, e.unmarked_inputs⟩

/-! ## Tables -/

namespace Tables

/-- No id and no name in the tables has the character that the mark begins with. -/
structure Unmarked (tables : Tables) : Prop where
  ids : ∀ kind id, some id ∈ (tables.table kind).keys → Text.Unmarked id
  names : ∀ kind id name, (tables.table kind).get? id = some (some name) → Text.Unmarked name

variable {tree : FileTree} {settings : Settings} {tables : Tables}

/-- **No loaded table has the mark anywhere.** -/
theorem unmarked_of_gives_load (h : Loading.Gives (load tree settings) tables) :
    tables.Unmarked where
  ids kind _ hid := (idsAreValues_of_gives_load h kind _ hid _ rfl).unmarked
  names _ _ _ hname := (isValue_of_gives_load h hname).unmarked

end Tables

end FlowAtlas
