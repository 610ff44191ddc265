import FlowAtlas.Proofs.Label.Reads
import FlowAtlas.Proofs.Scan.WellFormed
import FlowAtlas.Proofs.Text.Pieces

/-!
# What a label of kind and inputs tells

A node without a rule is labelled by its kind and inputs, and a label that lacks a value has them
behind it.  A value may have commas and spaces, the very characters that stand between two inputs,
and keys and values may be empty.  Still the text can be read back: no key or value has an equals
sign, so each equals sign stands behind a key, and as no key has a space, the key begins behind the
last space in front of it.

Main facts: `append_inputsBehind_inj` (a value and what follows it can be told apart, by induction
on the inputs that follow), `fallbackLabel_inj` and `fallbackLabel_eq_iff_of_delivered`.
-/

namespace FlowAtlas

open Markup

/-! ## Inputs in braces -/

/-- The characters of an input as it is printed. -/
def inputChars (input : String × String) : List Char := input.1.toList ++ '=' :: input.2.toList

/-- The characters of inputs, each behind a comma and a space. -/
def inputsBehind (inputs : List (String × String)) : List Char :=
  inputs.flatMap fun input => ',' :: ' ' :: inputChars input

theorem inputsBehind_nil : inputsBehind [] = [] := rfl

/-- The equals sign of the next input, seen from a value in front of it. -/
theorem append_inputsBehind_cons (value : List Char) (input : String × String)
    (inputs : List (String × String)) :
    value ++ inputsBehind (input :: inputs) =
      ((value ++ [',']) ++ ' ' :: input.1.toList) ++
        '=' :: (input.2.toList ++ inputsBehind inputs) := by
  simp [inputsBehind, inputChars]

/-- No equals sign stands between a value and the end of the next key. -/
theorem equals_not_mem_key {value : List Char} (hvalue : '=' ∉ value) {key : String}
    (hkey : IsKey key) : '=' ∉ (value ++ [',']) ++ ' ' :: key.toList := by
  have hmem : '=' ∉ key.toList := hkey.not_mem (by decide) (by decide)
  simp [hvalue, hmem]

/-- **A value and the inputs behind it can be told apart**, whatever commas and spaces it has. -/
theorem append_inputsBehind_inj {inputs inputs' : List (String × String)} (h : Spellable inputs)
    (h' : Spellable inputs') {value value' : List Char} (hvalue : '=' ∉ value)
    (hvalue' : '=' ∉ value') (heq : value ++ inputsBehind inputs = value' ++ inputsBehind inputs') :
    value = value' ∧ inputs = inputs' := by
  -- the value of the next input takes the place of the value
  induction inputs generalizing inputs' value value' with
  | nil =>
    cases inputs' with
    | nil => exact ⟨by simpa [inputsBehind] using heq, rfl⟩
    | cons input' inputs' =>
      rw [append_inputsBehind_cons, inputsBehind_nil, List.append_nil] at heq
      exact absurd (heq ▸ List.mem_append_right _ List.mem_cons_self) hvalue
  | cons input inputs ih =>
    cases inputs' with
    | nil =>
      rw [append_inputsBehind_cons, inputsBehind_nil, List.append_nil] at heq
      exact absurd (heq ▸ List.mem_append_right _ List.mem_cons_self) hvalue'
    | cons input' inputs' =>
      obtain ⟨hkey, hown⟩ := h input List.mem_cons_self
      obtain ⟨hkey', hown'⟩ := h' input' List.mem_cons_self
      rw [append_inputsBehind_cons, append_inputsBehind_cons] at heq
      obtain ⟨hfront, hback⟩ := Text.append_cons_inj_first (equals_not_mem_key hvalue hkey)
        (equals_not_mem_key hvalue' hkey') heq
      obtain ⟨hcomma, hkeys⟩ := Text.append_cons_inj_last
        (hkey.not_mem (by decide) (by decide)) (hkey'.not_mem (by decide) (by decide)) hfront
      obtain ⟨hvalues, rfl⟩ := ih (fun a ha => h a (List.mem_cons_of_mem _ ha))
        (fun a ha => h' a (List.mem_cons_of_mem _ ha)) (hown.not_mem (by decide))
        (hown'.not_mem (by decide)) hback
      have hinput : input = input' :=
        Prod.ext (String.toList_inj.mp hkeys) (String.toList_inj.mp hvalues)
      exact ⟨List.append_cancel_right hcomma, by rw [hinput]⟩

/-- The characters of inputs with commas between them. -/
def inputsChars (inputs : List (String × String)) : List Char :=
  [',', ' '].intercalate (inputs.map inputChars)

theorem behind_inputsChars (input : String × String) (inputs : List (String × String)) :
    ',' :: ' ' :: inputsChars (input :: inputs) = inputsBehind (input :: inputs) := by
  induction inputs generalizing input with
  | nil => simp [inputsChars, inputsBehind, List.intercalate]
  | cons next inputs ih =>
    have hbehind : inputsBehind (input :: next :: inputs) =
        ',' :: ' ' :: inputChars input ++ inputsBehind (next :: inputs) := rfl
    rw [hbehind, ← ih]
    simp [inputsChars, List.intercalate_cons_cons]

theorem inputsChars_inj {inputs inputs' : List (String × String)} (h : Spellable inputs)
    (h' : Spellable inputs') (heq : inputsChars inputs = inputsChars inputs') :
    inputs = inputs' := by
  have hne : ∀ input inputs, inputsChars (input :: inputs) ≠ [] := by
    intro input inputs hnil
    have hbehind := behind_inputsChars input inputs
    rw [hnil] at hbehind
    have hmem : '=' ∈ inputsBehind (input :: inputs) := by simp [inputsBehind, inputChars]
    rw [← hbehind] at hmem
    revert hmem
    decide
  cases inputs with
  | nil =>
    cases inputs' with
    | nil => rfl
    | cons input' inputs' => exact absurd heq.symm (hne _ _)
  | cons input inputs =>
    cases inputs' with
    | nil => exact absurd heq (hne _ _)
    | cons input' inputs' =>
      have hbehind : [] ++ inputsBehind (input :: inputs) =
          [] ++ inputsBehind (input' :: inputs') := by
        rw [← behind_inputsChars, ← behind_inputsChars, heq]
      exact (append_inputsBehind_inj h h' List.not_mem_nil List.not_mem_nil hbehind).2

theorem toList_formatInputs (inputs : Attributes) :
    (formatInputs inputs).toList =
      '\x7b' :: (inputsChars (sortByText Prod.fst inputs.entries) ++ ['\x7d']) := by
  have hinput : String.toList ∘ (fun p : String × String => p.1 ++ "=" ++ p.2) = inputChars := by
    funext p
    simp [inputChars]
  unfold formatInputs inputsChars
  simp only [String.toList_append, String.toList_intercalate, List.map_map, hinput]
  rfl

/-! ## Kind and inputs -/

theorem toList_fallbackLabel (kind : String) (inputs : Attributes) :
    (fallbackLabel (some kind) inputs).toList = (kind.toList ++ [' ']) ++
      '\x7b' :: (inputsChars (sortByText Prod.fst inputs.entries) ++ ['\x7d']) := by
  unfold fallbackLabel
  rw [String.toList_append, String.toList_append, toList_formatInputs]
  rfl

theorem get?_eq_of_sorted {inputs inputs' : Attributes}
    (h : sortByText Prod.fst inputs.entries = sortByText Prod.fst inputs'.entries) :
    ∀ key, inputs.get? key = inputs'.get? key := by
  have hperm : inputs.entries.Perm (sortByText Prod.fst inputs'.entries) :=
    h ▸ (perm_sortByText Prod.fst inputs.entries).symm
  exact OrderedMap.entries_perm_iff.mp (hperm.trans (perm_sortByText _ _))

/-- **Kind and inputs are read back from the label without a rule.** -/
theorem fallbackLabel_inj {kind kind' : String} {inputs inputs' : Attributes}
    (hkind : IsValue kind) (hkind' : IsValue kind') (hinputs : Spellable inputs.entries)
    (hinputs' : Spellable inputs'.entries)
    (heq : fallbackLabel (some kind) inputs = fallbackLabel (some kind') inputs') :
    kind = kind' ∧ ∀ key, inputs.get? key = inputs'.get? key := by
  have hbrace : ∀ {kind : String}, IsValue kind → '\x7b' ∉ kind.toList ++ [' '] := by
    intro kind hkind
    have hmem : '\x7b' ∉ kind.toList := hkind.not_mem (by decide)
    simp [hmem]
  have htexts := congrArg String.toList heq
  rw [toList_fallbackLabel, toList_fallbackLabel] at htexts
  obtain ⟨hfront, hback⟩ := Text.append_cons_inj_first (hbrace hkind) (hbrace hkind') htexts
  have hsorted := inputsChars_inj (hinputs.perm (perm_sortByText Prod.fst _))
    (hinputs'.perm (perm_sortByText Prod.fst _)) (List.append_cancel_right hback)
  exact ⟨String.toList_inj.mp (List.append_cancel_right hfront), get?_eq_of_sorted hsorted⟩

/-- The label without a rule is one line. -/
theorem newline_not_mem_fallbackLabel {kind : String} {inputs : Attributes} (hkind : IsValue kind)
    (hinputs : Spellable inputs.entries) : '\n' ∉ (fallbackLabel (some kind) inputs).toList := by
  have hline : '\n' ∉ inputsChars (sortByText Prod.fst inputs.entries) := by
    cases hsorted : sortByText Prod.fst inputs.entries with
    | nil => exact List.not_mem_nil
    | cons first rest =>
      intro hmem
      have hbehind : '\n' ∈ inputsBehind (first :: rest) := by
        rw [← behind_inputsChars]
        exact List.mem_cons_of_mem _ (List.mem_cons_of_mem _ hmem)
      obtain ⟨input, hinput, hchar⟩ := List.mem_flatMap.mp hbehind
      rw [← hsorted, (perm_sortByText _ _).mem_iff] at hinput
      obtain ⟨hkey, hvalue⟩ := hinputs input hinput
      have hkeyLine : '\n' ∉ input.1.toList := hkey.not_mem (by decide) (by decide)
      have hvalueLine : '\n' ∉ input.2.toList := hvalue.not_mem (by decide)
      simp [inputChars, hkeyLine, hvalueLine] at hchar
  have hkindLine : '\n' ∉ kind.toList := hkind.not_mem (by decide)
  rw [toList_fallbackLabel]
  simp [hline, hkindLine]

/-- What is put behind a label that lacks a value can be told from the label. -/
theorem fallbackLabel_eq_of_reported {kind kind' : String} {inputs inputs' : Attributes}
    (hkind : IsValue kind) (hkind' : IsValue kind') (hinputs : Spellable inputs.entries)
    (hinputs' : Spellable inputs'.entries) {draft draft' : String}
    (heq : draft ++ "\n" ++ fallbackLabel (some kind) inputs ++ "(was missing)" =
      draft' ++ "\n" ++ fallbackLabel (some kind') inputs' ++ "(was missing)") :
    fallbackLabel (some kind) inputs = fallbackLabel (some kind') inputs' := by
  have hchars : ∀ text text' : String, (text ++ "\n" ++ text' ++ "(was missing)").toList =
      (text.toList ++ '\n' :: text'.toList) ++ "(was missing)".toList := by
    intro text text'
    simp
  have htexts := congrArg String.toList heq
  rw [hchars, hchars] at htexts
  exact String.toList_inj.mp (Text.append_cons_inj_last
    (newline_not_mem_fallbackLabel hkind hinputs) (newline_not_mem_fallbackLabel hkind' hinputs')
    (List.append_cancel_right htexts)).2

section Delivered

variable {lines lines' : List String} {scope scope' : Scope} {node node' : Node}

/-- Nodes of scopes are well-formed. -/
theorem Node.wellFormed_of_delivered (hscope : scope ∈ (assembleScopes lines).value)
    (hnode : node ∈ scope.nodes.values) : node.WellFormed := by
  obtain ⟨entry, hentry, rfl⟩ := List.mem_map.mp hnode
  exact (wellFormed_of_mem_assembleScopes hscope).nodes entry hentry

/-- **The label of kind and inputs loses nothing.**  Take two nodes with a kind, as any lines give
them.  Their labels without a rule are the same exactly if they have the same kind and the same
inputs, in whichever order these were given.  So it is for labels that lack a value, before they are
cut: whatever they say first, if they are the same then kind and inputs are. -/
theorem fallbackLabel_eq_iff_of_delivered (hscope : scope ∈ (assembleScopes lines).value)
    (hnode : node ∈ scope.nodes.values) (hkind : node.kind ≠ none)
    (hscope' : scope' ∈ (assembleScopes lines').value) (hnode' : node' ∈ scope'.nodes.values)
    (hkind' : node'.kind ≠ none) :
    (fallbackLabel node.kind node.inputs = fallbackLabel node'.kind node'.inputs ↔
      node.kind = node'.kind ∧ ∀ key, node.inputs.get? key = node'.inputs.get? key) ∧
    ∀ draft draft',
      draft ++ "\n" ++ fallbackLabel node.kind node.inputs ++ "(was missing)" =
          draft' ++ "\n" ++ fallbackLabel node'.kind node'.inputs ++ "(was missing)" →
        node.kind = node'.kind ∧ ∀ key, node.inputs.get? key = node'.inputs.get? key := by
  have hwell := Node.wellFormed_of_delivered hscope hnode
  have hwell' := Node.wellFormed_of_delivered hscope' hnode'
  obtain ⟨kind, hkind⟩ := Option.ne_none_iff_exists'.mp hkind
  obtain ⟨kind', hkind'⟩ := Option.ne_none_iff_exists'.mp hkind'
  have hvalue := hwell.kind kind hkind
  have hvalue' := hwell'.kind kind' hkind'
  have hinj : fallbackLabel node.kind node.inputs = fallbackLabel node'.kind node'.inputs →
      node.kind = node'.kind ∧ ∀ key, node.inputs.get? key = node'.inputs.get? key := by
    intro heq
    rw [hkind, hkind'] at heq ⊢
    obtain ⟨rfl, hinputs⟩ := fallbackLabel_inj hvalue hvalue' hwell.inputs hwell'.inputs heq
    exact ⟨rfl, hinputs⟩
  refine ⟨⟨hinj, ?_⟩, fun draft draft' heq => hinj ?_⟩
  · rintro ⟨hkinds, hinputs⟩
    unfold fallbackLabel
    rw [hkinds, formatInputs_congr hinputs]
  · rw [hkind, hkind'] at heq ⊢
    exact fallbackLabel_eq_of_reported hvalue hvalue' hwell.inputs hwell'.inputs heq

end Delivered

/-! ## Inputs with commas -/

namespace Commas

/-- A node with an input without a key and values that look like what stands between inputs. -/
def lines : List String :=
  ["<Node Id=\"1\" Class=\"Ark:Door\">", "<Inputs =\"x, y\" b=\", \"/>"]

/-- The same inputs the other way round, in a scope with a name. -/
def otherLines : List String :=
  ["<Entity Name=\"Door\">", "<Node Id=\"7\" Name=\"n\" Class=\"Ark:Door\">",
    "<Inputs B=\", \" =\"x, y\"/>", "</FlowGraph>"]

def node : Node :=
  ⟨some "1", none, some "Ark:Door", .origin, .ofList [("", "x, y"), ("b", ", ")]⟩

def otherNode : Node :=
  ⟨some "7", some "n", some "Ark:Door", .origin, .ofList [("b", ", "), ("", "x, y")]⟩

def scope : Scope := ⟨none, .ofList [(some "1", node)], [], true⟩

def otherScope : Scope := ⟨some "Door", .ofList [(some "7", otherNode)], [], false⟩

theorem get?_eq (key : String) : node.inputs.get? key = otherNode.inputs.get? key :=
  OrderedMap.entries_perm_iff.mp (by decide) key

end Commas

open Commas in
theorem commas_fallbackLabel_eq_iff_of_delivered :
    scope ∈ (assembleScopes lines).value ∧ node ∈ scope.nodes.values ∧
      otherScope ∈ (assembleScopes otherLines).value ∧ otherNode ∈ otherScope.nodes.values ∧
      fallbackLabel node.kind node.inputs = fallbackLabel otherNode.kind otherNode.inputs := by
  have hscope : scope ∈ (assembleScopes lines).value := by decide +kernel
  have hother : otherScope ∈ (assembleScopes otherLines).value := by decide +kernel
  have hnode : node ∈ scope.nodes.values := by decide
  have hotherNode : otherNode ∈ otherScope.nodes.values := by decide
  obtain ⟨hiff, -⟩ := fallbackLabel_eq_iff_of_delivered hscope hnode (by decide) hother hotherNode
    (by decide)
  exact ⟨hscope, hnode, hother, hotherNode, hiff.mpr ⟨rfl, get?_eq⟩⟩

end FlowAtlas
