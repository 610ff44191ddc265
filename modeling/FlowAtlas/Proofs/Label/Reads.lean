import FlowAtlas.Proofs.Label.Absent
import FlowAtlas.Proofs.Label.UnsignedIds

/-!
# What a label depends on

A rule reads the inputs that its pieces name and the table entries that it looks up under them; the
rule for comments reads the name of the node.  A label depends on nothing else, whether it is
complete or not: not on other inputs, not on where the node stands, not on the rest of the tables.
A kind without a rule is labelled by its inputs, and their order does not matter.

Main facts: `Piece.eval_eq_of_reads` (a piece reads nothing else), `formatInputs_congr` (inputs are
printed as a mapping) and `label_of_reads`.
-/

namespace FlowAtlas

/-! ## What a rule reads -/

/-- The table entries that the piece looks up for a node with the given inputs, each a table and the
id in it.  A station's entry is looked up under the absent id if the node has no input for it, and
an airlock's location under what the first table says. -/
def Piece.lookups (tables : Tables) (inputs : Attributes) :
    Piece → List (TableKind × Option String)
  | .lookup kind form key => (inputs.get? key).toList.map fun id => (kind, some (form.of id))
  | .entry kind key => [(kind, inputs.get? key)]
  | .entryVia first second key =>
    [(first, inputs.get? key), (second, tables.nameUnder first (inputs.get? key))]
  | _ => []

namespace LabelRule

/-- The inputs that the rule names. -/
def keys (rule : LabelRule) : List String := rule.pieces.filterMap Piece.key?

/-- The table entries that the rule looks up for a node with the given inputs. -/
def lookups (tables : Tables) (inputs : Attributes) (rule : LabelRule) :
    List (TableKind × Option String) :=
  rule.pieces.flatMap (Piece.lookups tables inputs)

/-- Two nodes, each with its tables, agree on all that the rule reads. -/
structure ReadsSame (rule : LabelRule) (tables tables' : Tables) (node node' : Node) : Prop where
  name : .nodeName ∈ rule.pieces → node.name = node'.name
  inputs : ∀ key ∈ rule.keys, node.inputs.get? key = node'.inputs.get? key
  entries : ∀ place ∈ rule.lookups tables node.inputs,
    (tables.table place.1).get? place.2 = (tables'.table place.1).get? place.2

end LabelRule

/-! ## Pieces and rules -/

section Reads

variable {tables tables' : Tables}

theorem Tables.nameOf_congr {kind : TableKind} {id : String}
    (h : (tables.table kind).get? (some id) = (tables'.table kind).get? (some id)) :
    tables.nameOf kind id = tables'.nameOf kind id := by
  unfold nameOf
  rw [h]

theorem Tables.nameUnder_congr {kind : TableKind} {id : Option String}
    (h : (tables.table kind).get? id = (tables'.table kind).get? id) :
    tables.nameUnder kind id = tables'.nameUnder kind id := by
  unfold nameUnder
  rw [h]

/-- **A piece says the same of two nodes that agree on what it reads.** -/
theorem Piece.eval_eq_of_reads {name name' : Option String} {inputs inputs' : Attributes}
    {piece : Piece} (hname : piece = .nodeName → name = name')
    (hinputs : ∀ key, piece.key? = some key → inputs.get? key = inputs'.get? key)
    (hentries : ∀ place ∈ piece.lookups tables inputs,
      (tables.table place.1).get? place.2 = (tables'.table place.1).get? place.2) :
    piece.eval tables name inputs = piece.eval tables' name' inputs' := by
  cases piece with
  | text words => rfl
  | nothing => rfl
  | nodeName => exact hname rfl
  | input key => exact hinputs key rfl
  | onlyIf key value words =>
    show some (if inputs.get? key = some value then words else "") = _
    rw [hinputs key rfl]
    rfl
  | lookup kind form key =>
    show (inputs.get? key).bind _ = (inputs'.get? key).bind _
    rw [← hinputs key rfl]
    cases hid : inputs.get? key with
    | none => rfl
    | some id =>
      refine Tables.nameOf_congr (hentries (kind, some (form.of id)) ?_)
      show _ ∈ (inputs.get? key).toList.map fun id => (kind, some (form.of id))
      rw [hid]
      exact List.mem_singleton_self _
  | entry kind key =>
    show tables.nameUnder kind (inputs.get? key) = tables'.nameUnder kind (inputs'.get? key)
    rw [← hinputs key rfl]
    exact Tables.nameUnder_congr (hentries _ (List.mem_singleton_self _))
  | entryVia first second key =>
    have hfirst := Tables.nameUnder_congr (hentries (first, inputs.get? key) List.mem_cons_self)
    have hsecond := Tables.nameUnder_congr
      (hentries (second, tables.nameUnder first (inputs.get? key))
        (List.mem_cons_of_mem _ (List.mem_singleton_self _)))
    show tables.nameUnder second (tables.nameUnder first (inputs.get? key)) =
      tables'.nameUnder second (tables'.nameUnder first (inputs'.get? key))
    rw [← hinputs key rfl, ← hfirst, hsecond]

theorem LabelRule.ReadsSame.render_eq {rule : LabelRule} {node node' : Node}
    (h : rule.ReadsSame tables tables' node node') :
    rule.render tables node.name node.inputs = rule.render tables' node'.name node'.inputs := by
  unfold render
  congr 1
  refine List.map_congr_left fun piece hpiece => ?_
  have heval : piece.eval tables node.name node.inputs =
      piece.eval tables' node'.name node'.inputs := by
    refine Piece.eval_eq_of_reads (fun hname => h.name (hname ▸ hpiece)) (fun key hkey => ?_)
      (fun place hplace => ?_)
    · exact h.inputs key (List.mem_filterMap.mpr ⟨piece, hpiece, hkey⟩)
    · exact h.entries place (List.mem_flatMap.mpr ⟨piece, hpiece, hplace⟩)
  rw [heval]

end Reads

/-- Of the standard rules only the one for comments reads the name of a node. -/
theorem Rulebook.nodeName_mem_iff {kind : String} {rule : LabelRule}
    (hrule : standard.get? kind = some rule) :
    .nodeName ∈ rule.pieces ↔ kind = "_comment" ∨ kind = "_commentbox" := by
  constructor
  · intro hname
    obtain ⟨r, hr, hkind, hpieces⟩ := exists_standardRule_of_kind hrule
    rw [kinds_of_nodeName r hr (hpieces ▸ hname)] at hkind
    simpa using hkind
  · intro hkind
    rw [get?_comment hkind, Option.some.injEq] at hrule
    rw [← hrule]
    decide

/-! ## Labels -/

/-- The labels of two nodes, each with its tables, agree.  Either both are complete, and then they
are the same however they are cut; or both are reported, and they are the same up to the kind and
inputs that are put behind each. -/
structure LabelsAgree (tables tables' : Tables) (node node' : Node) : Prop where
  draft : draftLabel .standard tables node.kind node.name node.inputs =
    draftLabel .standard tables' node'.kind node'.name node'.inputs
  complete : isIncomplete (draftLabel .standard tables node.kind node.name node.inputs) = false →
    ∀ maxLength, resolveLabel .standard tables maxLength node.kind node.name node.inputs =
      resolveLabel .standard tables' maxLength node'.kind node'.name node'.inputs
  incomplete : isIncomplete (draftLabel .standard tables node.kind node.name node.inputs) = true →
    ∀ maxLength, Reported .standard tables maxLength node.kind node.name node.inputs ∧
      Reported .standard tables' maxLength node'.kind node'.name node'.inputs

theorem LabelsAgree.of_draft {tables tables' : Tables} {node node' : Node}
    (h : draftLabel .standard tables node.kind node.name node.inputs =
      draftLabel .standard tables' node'.kind node'.name node'.inputs) :
    LabelsAgree tables tables' node node' where
  draft := h
  complete hcomplete maxLength := by
    rw [resolveLabel_of_complete maxLength hcomplete, h,
      resolveLabel_of_complete maxLength (h ▸ hcomplete)]
  incomplete hincomplete maxLength :=
    ⟨reported_of_isIncomplete maxLength hincomplete,
      reported_of_isIncomplete maxLength (h ▸ hincomplete)⟩

section Inputs

variable {inputs inputs' : Attributes}

/-- Inputs are printed by their keys, in whichever order they were given. -/
theorem formatInputs_congr (h : ∀ key, inputs.get? key = inputs'.get? key) :
    formatInputs inputs = formatInputs inputs' := by
  have hperm := OrderedMap.entries_perm_iff.mpr h
  have hsame : sortByText Prod.fst inputs.entries = sortByText Prod.fst inputs'.entries := by
    refine List.Perm.eq_of_pairwise ?_ (pairwise_sortByText _ _) (pairwise_sortByText _ _)
      ((perm_sortByText _ _).trans (hperm.trans (perm_sortByText _ _).symm))
    rintro ⟨key, value⟩ ⟨key', value'⟩ hmem hmem' hle hge
    have hkey : key = key' := String.le_antisymm hle hge
    subst hkey
    rw [(perm_sortByText _ _).mem_iff, OrderedMap.mem_entries_iff] at hmem hmem'
    rw [h, hmem', Option.some.injEq] at hmem
    rw [hmem]
  unfold formatInputs
  rw [hsame]

theorem draftLabel_of_not_handles {kind : Option String}
    (hkind : Rulebook.standard.handles kind = false) (tables : Tables) (name : Option String) :
    draftLabel .standard tables kind name inputs = fallbackLabel kind inputs := by
  unfold draftLabel draftBy
  cases hrule : Rulebook.standard.ruleFor? kind with
  | none => rfl
  | some rule =>
    obtain ⟨known, rfl, hget⟩ := Option.bind_eq_some_iff.mp hrule
    have hcontains : (Rulebook.standard.get? known).isSome = false := hkind
    rw [hget] at hcontains
    cases hcontains

/-- Without a rule the label is made of the kind and the inputs. -/
theorem resolveLabel_of_not_handles {kind : Option String}
    (hkind : Rulebook.standard.handles kind = false)
    (h : ∀ key, inputs.get? key = inputs'.get? key) (tables tables' : Tables)
    (name name' : Option String) (maxLength : Int) :
    resolveLabel .standard tables maxLength kind name inputs =
      resolveLabel .standard tables' maxLength kind name' inputs' := by
  have hfallback : fallbackLabel kind inputs = fallbackLabel kind inputs' := by
    unfold fallbackLabel
    rw [formatInputs_congr h]
  rw [resolveLabel_eq, resolveLabel_eq, draftLabel_of_not_handles hkind,
    draftLabel_of_not_handles hkind]
  unfold finishLabel
  rw [hfallback]

end Inputs

/-- **A label depends on what its rule reads, and on nothing else.**  Two nodes of a kind with a
rule may have any other inputs, in any order, any ids and positions, and any other tables: if they
agree on the inputs that the rule names and on the entries that it looks up under them, and on the
name if they are comments, then their labels agree.  Nodes of a kind without a rule have the same
label if they have the same inputs, in whichever order. -/
theorem label_of_reads :
    (∀ (kind : String) (rule : LabelRule), Rulebook.standard.get? kind = some rule →
      (.nodeName ∈ rule.pieces ↔ kind = "_comment" ∨ kind = "_commentbox") ∧
      ∀ (tables tables' : Tables) (node node' : Node), node.kind = some kind →
        node'.kind = some kind → rule.ReadsSame tables tables' node node' →
          LabelsAgree tables tables' node node') ∧
    ∀ (tables tables' : Tables) (node node' : Node),
      Rulebook.standard.handles node.kind = false → node.kind = node'.kind →
        (∀ key, node.inputs.get? key = node'.inputs.get? key) → ∀ maxLength,
          resolveLabel .standard tables maxLength node.kind node.name node.inputs =
            resolveLabel .standard tables' maxLength node'.kind node'.name node'.inputs := by
  refine ⟨fun kind rule hrule => ⟨Rulebook.nodeName_mem_iff hrule, ?_⟩, ?_⟩
  · intro tables tables' node node' hkind hkind' hreads
    refine .of_draft ?_
    rw [hkind, hkind', draftLabel_of_get? hrule, draftLabel_of_get? hrule]
    exact hreads.render_eq
  · intro tables tables' node node' hhandles hkind hinputs maxLength
    rw [← hkind]
    exact resolveLabel_of_not_handles hhandles hinputs tables tables' _ _ maxLength

/-! ## An airlock in two sets of game data -/

namespace TwinAirlocks

def kind : String := "Ark:PDA:SetStationAirlockState"

def rule : LabelRule :=
  ⟨[.text "Airlock to ", .entryVia .connectivity .locations "stationairlock_airlock"]⟩

/-- One airlock and the location that it leads to. -/
def tables : Tables :=
  ⟨fun table =>
    match table with
    | .connectivity => .ofList [(some "900", some "1001")]
    | .locations => .ofList [(some "1001", some "Arboretum")]
    | _ => .empty⟩

/-- The same and more, also under the absent id. -/
def richTables : Tables :=
  ⟨fun table =>
    match table with
    | .connectivity => .ofList [(none, some "1000"), (some "900", some "1001")]
    | .locations => .ofList [(some "1000", some "Lobby"), (some "1001", some "Arboretum")]
    | _ => .ofList [(some "900", none)]⟩

def node : Node where
  id := some "1"
  name := none
  kind := some kind
  position := .origin
  inputs := .ofList [("stationairlock_airlock", "900"), ("state", "1")]

/-- A node with another id, another name and other inputs in front of the airlock. -/
def twin : Node where
  id := some "2"
  name := some "door"
  kind := some kind
  position := .origin
  inputs := .ofList [("open", "yes"), ("stationairlock_airlock", "900")]

/-- A kind without a rule. -/
def strayKind : String := "Ark:Door"

def strayInputs : List (String × String) := [("open", "yes"), ("locked", "no")]

def stray (inputs : List (String × String)) : Node :=
  { node with kind := some strayKind, inputs := .ofList inputs }

theorem readsSame : rule.ReadsSame tables richTables node twin where
  name := by decide
  inputs := by decide
  entries := by decide

theorem get?_strayInputs (key : String) :
    (stray strayInputs).inputs.get? key = (stray strayInputs.reverse).inputs.get? key :=
  OrderedMap.entries_perm_iff.mp (by decide) key

end TwinAirlocks

open TwinAirlocks in
theorem twinAirlocks_label_of_reads :
    Rulebook.standard.get? kind = some rule ∧ rule.ReadsSame tables richTables node twin ∧
      LabelsAgree tables richTables node twin ∧
      isIncomplete (draftLabel .standard tables node.kind node.name node.inputs) = false ∧
      Rulebook.standard.handles (some strayKind) = false ∧
      resolveLabel .standard tables defaultMaxLength (some strayKind) none
          (stray strayInputs).inputs =
        resolveLabel .standard richTables defaultMaxLength (some strayKind) none
          (stray strayInputs.reverse).inputs := by
  have hrule : Rulebook.standard.get? kind = some rule := by decide
  have hstray : Rulebook.standard.handles (some strayKind) = false := by decide
  obtain ⟨hruled, hunruled⟩ := label_of_reads
  obtain ⟨-, hagree⟩ := hruled kind rule hrule
  exact ⟨hrule, readsSame, hagree tables richTables node twin rfl rfl readsSame, by decide, hstray,
    hunruled tables richTables (stray strayInputs) (stray strayInputs.reverse) hstray rfl
      get?_strayInputs defaultMaxLength⟩

end FlowAtlas
