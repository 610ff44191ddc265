import FlowAtlas.Proofs.Label.Missing
import FlowAtlas.Proofs.Number.Unsigned

/-!
# Labels and the two forms of an id

Objectives, tasks, descriptions and clues are looked up by the unsigned form of their ids.  A rule
that reads such an id reads it in no other way, so its label does not depend on the form in which a
node has it, whether or not a table knows the id.

Main facts: `LabelRule.render_congr`, `labelledAlike_of_unsigned64`.
-/

namespace FlowAtlas

/-- The tables whose ids are looked up in the unsigned form. -/
def TableKind.ofObjectives : List TableKind := [.objectives, .tasks, .descriptions, .clues]

/-- Two lists of inputs that differ at most in the form of one id. -/
structure Attributes.SameButForm (key : String) (inputs inputs' : Attributes) : Prop where
  others : ∀ other, other ≠ key → inputs.get? other = inputs'.get? other
  id : (inputs.get? key).map unsigned64 = (inputs'.get? key).map unsigned64

/-! ## What a piece reads -/

namespace Piece

/-- The input that the piece reads. -/
def key? : Piece → Option String
  | .input key => some key
  | .lookup _ _ key => some key
  | .onlyIf key _ _ => some key
  | .entry _ key => some key
  | .entryVia _ _ key => some key
  | _ => none

/-- The piece looks an id up in its unsigned form. -/
def isUnsigned : Piece → Bool
  | .lookup _ .unsigned _ => true
  | _ => false

variable {tables : Tables} {name : Option String} {key : String} {inputs inputs' : Attributes}

/-- A piece does not tell forms of an id apart that it reads unsigned or not at all. -/
theorem eval_congr (h : inputs.SameButForm key inputs') {piece : Piece}
    (hpiece : piece.key? = some key → piece.isUnsigned = true) :
    piece.eval tables name inputs = piece.eval tables name inputs' := by
  have hother : ∀ other, piece.key? = some other → piece.isUnsigned = false →
      inputs.get? other = inputs'.get? other := by
    intro other hkey hform
    refine h.others other fun heq => ?_
    rw [hpiece (heq ▸ hkey)] at hform
    cases hform
  cases piece with
  | text words => rfl
  | nodeName => rfl
  | nothing => rfl
  | input other => exact hother other rfl rfl
  | onlyIf other value words =>
    show some (if inputs.get? other = some value then words else "") = _
    rw [hother other rfl rfl]
    rfl
  | entry kind other =>
    show tables.nameUnder kind (inputs.get? other) = _
    rw [hother other rfl rfl]
    rfl
  | entryVia first second other =>
    show tables.nameUnder second (tables.nameUnder first (inputs.get? other)) = _
    rw [hother other rfl rfl]
    rfl
  | lookup kind form other =>
    cases form with
    | plain =>
      show (inputs.get? other).bind _ = _
      rw [hother other rfl rfl]
      rfl
    | unsigned =>
      have hforms : (inputs.get? other).map unsigned64 = (inputs'.get? other).map unsigned64 := by
        by_cases heq : other = key
        · rw [heq, h.id]
        · rw [h.others other heq]
      calc
        ((inputs.get? other).bind fun id => tables.nameOf kind (unsigned64 id))
        _ = ((inputs.get? other).map unsigned64).bind (tables.nameOf kind) := by
          rw [Option.bind_map]; rfl
        _ = ((inputs'.get? other).map unsigned64).bind (tables.nameOf kind) := by rw [hforms]
        _ = (inputs'.get? other).bind fun id => tables.nameOf kind (unsigned64 id) := by
          rw [Option.bind_map]; rfl

end Piece

theorem LabelRule.render_congr {tables : Tables} {name : Option String} {key : String}
    {inputs inputs' : Attributes} (h : inputs.SameButForm key inputs') {rule : LabelRule}
    (hrule : ∀ piece ∈ rule.pieces, piece.key? = some key → piece.isUnsigned = true) :
    rule.render tables name inputs = rule.render tables name inputs' := by
  unfold render
  congr 1
  refine List.map_congr_left fun piece hpiece => ?_
  rw [Piece.eval_congr h (hrule piece hpiece)]

/-- What a standard rule looks up in these tables it reads in the unsigned form alone. -/
theorem Rulebook.isUnsigned_of_ofObjectives :
    ∀ r ∈ standardRules, ∀ piece ∈ r.2,
      (∃ table ∈ piece.kinds, table ∈ TableKind.ofObjectives) →
        ∀ other ∈ r.2, other.key? = piece.key? → other.isUnsigned = true := by
  decide

/-! ## Labels -/

/-- The labels are the same up to the check.  Complete ones stay the same, and of incomplete ones
both are reported, each with its own inputs. -/
structure LabelledAlike (book : Rulebook) (tables : Tables) (kind name : Option String)
    (inputs inputs' : Attributes) : Prop where
  draft : draftLabel book tables kind name inputs = draftLabel book tables kind name inputs'
  complete : isIncomplete (draftLabel book tables kind name inputs) = false → ∀ maxLength,
    resolveLabel book tables maxLength kind name inputs =
      resolveLabel book tables maxLength kind name inputs'
  incomplete : isIncomplete (draftLabel book tables kind name inputs) = true → ∀ maxLength,
    Reported book tables maxLength kind name inputs ∧
      Reported book tables maxLength kind name inputs'

section Alike

variable {tables : Tables} {name : Option String} {key : String} {inputs inputs' : Attributes}

theorem LabelledAlike.of_draft {book : Rulebook} {kind : Option String}
    (h : draftLabel book tables kind name inputs = draftLabel book tables kind name inputs') :
    LabelledAlike book tables kind name inputs inputs' where
  draft := h
  complete hcomplete maxLength := by
    rw [resolveLabel_of_complete maxLength hcomplete, h,
      resolveLabel_of_complete maxLength (h ▸ hcomplete)]
  incomplete hincomplete maxLength :=
    ⟨reported_of_isIncomplete maxLength hincomplete,
      reported_of_isIncomplete maxLength (h ▸ hincomplete)⟩

theorem labelledAlike_of_sameButForm {kind : String} {rule : LabelRule} {piece : Piece}
    (hrule : Rulebook.standard.get? kind = some rule) (hpiece : piece ∈ rule.pieces)
    (htable : ∃ table ∈ piece.kinds, table ∈ TableKind.ofObjectives)
    (hkey : piece.key? = some key) (h : inputs.SameButForm key inputs') :
    LabelledAlike .standard tables (some kind) name inputs inputs' := by
  obtain ⟨r, hr, hpieces⟩ := Rulebook.exists_standardRule hrule
  rw [hpieces] at hpiece
  refine .of_draft ?_
  rw [draftLabel_of_get? hrule, draftLabel_of_get? hrule]
  refine LabelRule.render_congr h fun other hother hsame => ?_
  rw [hpieces] at hother
  exact Rulebook.isUnsigned_of_ofObjectives r hr piece hpiece htable other hother
    (hsame.trans hkey.symm)

theorem sameButForm_insert {id id' : String} (h : unsigned64 id = unsigned64 id') :
    Attributes.SameButForm key (inputs.insert key id) (inputs.insert key id') where
  others other hother := by
    rw [OrderedMap.get?_insert, OrderedMap.get?_insert, if_neg hother, if_neg hother]
  id := by
    rw [OrderedMap.get?_insert, OrderedMap.get?_insert, if_pos rfl, if_pos rfl]
    exact congrArg some h

theorem sameButForm_insert_unsigned64 {id : String} (h : inputs.get? key = some id) :
    inputs.SameButForm key (inputs.insert key (unsigned64 id)) where
  others other hother := by
    rw [OrderedMap.get?_insert, if_neg hother]
  id := by
    rw [OrderedMap.get?_insert, if_pos rfl, h]
    exact congrArg some (unsigned64_unsigned64 id).symm

end Alike

/-- **The form of an objective's, task's, description's or clue's id does not matter for a label**:
an id may be replaced by its unsigned form, and the signed and the unsigned form of the same 64 bits
give the same label, be there a name for them or not. -/
theorem labelledAlike_of_unsigned64 {kind : String} {rule : LabelRule} {piece : Piece}
    {key : String} (hrule : Rulebook.standard.get? kind = some rule) (hpiece : piece ∈ rule.pieces)
    (htable : ∃ table ∈ piece.kinds, table ∈ TableKind.ofObjectives)
    (hkey : piece.key? = some key) (tables : Tables) (name : Option String) (inputs : Attributes) :
    (∀ id, inputs.get? key = some id →
      LabelledAlike .standard tables (some kind) name inputs
        (inputs.insert key (unsigned64 id))) ∧
    (∀ bits : BitVec 64,
      LabelledAlike .standard tables (some kind) name
        (inputs.insert key (Text.signedDecimal bits.toInt))
        (inputs.insert key (Text.decimal bits.toNat))) := by
  constructor
  · intro id hid
    exact labelledAlike_of_sameButForm hrule hpiece htable hkey (sameButForm_insert_unsigned64 hid)
  · intro bits
    refine labelledAlike_of_sameButForm hrule hpiece htable hkey (sameButForm_insert ?_)
    rw [unsigned64_bits, unsigned64_decimal]

/-! ## A task under both forms of its id -/

namespace VaultTask

def kind : String := "Ark:Objectives:SetTaskLocation"

def rule : LabelRule :=
  ⟨[.text "SET TASK LOCATION\n", Rulebook.task, .text "=", Rulebook.location]⟩

/-- One task is known, by the unsigned form of its id. -/
def tables : Tables :=
  ⟨fun table => if table = .tasks then
    .ofList [(some "18446744073709551611", some "Open the vault")] else .empty⟩

def inputs : Attributes := .ofList [("task_task", "-5"), ("location_location", "7")]

end VaultTask

open VaultTask in
theorem vaultTask_labelledAlike :
    Rulebook.standard.get? kind = some rule ∧ Rulebook.task ∈ rule.pieces ∧
      LabelledAlike .standard tables (some kind) none inputs
        (inputs.insert "task_task" "18446744073709551611") ∧
      (resolveLabel .standard tables defaultMaxLength (some kind) none inputs).value =
        "SET TASK LOCATION\nOpen the vault=7" := by
  have hrule : Rulebook.standard.get? kind = some rule := by decide
  have hpiece : Rulebook.task ∈ rule.pieces := by decide
  have hforms := labelledAlike_of_unsigned64 hrule hpiece (by decide) rfl tables none inputs
  exact ⟨hrule, hpiece, hforms.1 "-5" (by decide), by decide⟩

end FlowAtlas
