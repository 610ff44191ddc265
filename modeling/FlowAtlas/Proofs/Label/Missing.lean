import FlowAtlas.Label.Labeller
import FlowAtlas.Proofs.Tables.Loaded
import FlowAtlas.Proofs.Text.Occurrence

/-!
# Labels that lack an id

A label is reported as incomplete if a piece of its rule meets an absent value.  A piece that looks
an id up says nothing if the node does not have it.  The two pieces for stations go on with the
absent id instead, so they say what a line without an id filed, if one did; such a label is not
reported.

Main facts: `isIncomplete_render_iff` (which labels are incomplete), `eval_of_lacksId` (what a piece
says without its id) and `label_of_lacksId`.
-/

namespace FlowAtlas

/-! ## Incomplete labels -/

namespace LabelRule

variable {tables : Tables} {name : Option String} {inputs : Attributes} {rule : LabelRule}

/-- What the pieces before and behind a piece say stands around what it says. -/
theorem render_of_append {front back : List Piece} {piece : Piece}
    (h : rule.pieces = front ++ piece :: back) :
    rule.render tables name inputs = render tables name inputs ⟨front⟩ ++
      (piece.eval tables name inputs).getD missingMark ++ render tables name inputs ⟨back⟩ := by
  unfold render
  rw [h, List.map_append, List.map_cons, String.join_append, String.join_cons, String.append_assoc]

/-- **A label is incomplete exactly if a piece meets an absent value**, as long as no value holds
the character that the mark begins with. -/
theorem isIncomplete_render_iff
    (h : ∀ piece ∈ rule.pieces, ∀ text, piece.eval tables name inputs = some text →
      '<' ∉ text.toList) :
    isIncomplete (rule.render tables name inputs) = true ↔
      ∃ piece ∈ rule.pieces, piece.eval tables name inputs = none := by
  constructor
  · intro hincomplete
    by_contra hall
    have hnone : '<' ∉ (rule.render tables name inputs).toList := by
      unfold render
      rw [String.toList_join, List.mem_flatMap]
      rintro ⟨said, hsaid, hmem⟩
      obtain ⟨piece, hpiece, rfl⟩ := List.mem_map.mp hsaid
      cases heval : piece.eval tables name inputs with
      | none => exact hall ⟨piece, hpiece, heval⟩
      | some text =>
        rw [heval] at hmem
        exact h piece hpiece text heval hmem
    have hword : Text.hasWord (rule.render tables name inputs) missingMark = false :=
      Text.hasWord_eq_false (by decide) hnone
    unfold isIncomplete at hincomplete
    rw [hword] at hincomplete
    cases hincomplete
  · rintro ⟨piece, hpiece, heval⟩
    obtain ⟨front, back, hpieces⟩ := List.append_of_mem hpiece
    rw [render_of_append hpieces, heval]
    exact Text.hasWord_append _ missingMark _

end LabelRule

/-! ## Pieces without their id -/

namespace Piece

/-- The piece looks up an id that the node does not have; an id that leads to a second table counts
as missing, too, if the first table does not know it. -/
def LacksId (tables : Tables) (inputs : Attributes) : Piece → Prop
  | .lookup _ _ key => inputs.get? key = none
  | .entry _ key => inputs.get? key = none
  | .entryVia first _ key => ∀ id, inputs.get? key = some id →
      (tables.table first).get? (some id) = none
  | _ => False

/-- The name that the piece reads under the absent id. -/
def strayName (tables : Tables) (inputs : Attributes) : Piece → Option String
  | .entry kind _ => tables.nameUnder kind none
  | .entryVia first second key =>
    tables.nameUnder second
      (if (inputs.get? key).isNone then tables.nameUnder first none else none)
  | _ => none

/-- Without its id a piece says what stands under the absent id. -/
theorem eval_of_lacksId {tables : Tables} {name : Option String} {inputs : Attributes}
    {piece : Piece} (h : piece.LacksId tables inputs) :
    piece.eval tables name inputs = piece.strayName tables inputs := by
  cases piece with
  | lookup kind form key =>
    have hkey : inputs.get? key = none := h
    show (inputs.get? key).bind _ = none
    rw [hkey]
    rfl
  | entry kind key =>
    have hkey : inputs.get? key = none := h
    show tables.nameUnder kind (inputs.get? key) = tables.nameUnder kind none
    rw [hkey]
  | entryVia first second key =>
    show tables.nameUnder second (tables.nameUnder first (inputs.get? key)) =
      tables.nameUnder second _
    cases hkey : inputs.get? key with
    | none => rfl
    | some id =>
      have hfirst : (tables.table first).get? (some id) = none := h id hkey
      have hunder : tables.nameUnder first (some id) = none := by
        unfold Tables.nameUnder
        rw [hfirst]
        rfl
      rw [hunder]
      rfl
  | _ => exact absurd h id

/-- A stray name stands in a table, under an id or none. -/
theorem exists_entry_of_strayName {tables : Tables} {inputs : Attributes} {piece : Piece}
    {stray : String} (h : piece.strayName tables inputs = some stray) :
    ∃ kind id, (tables.table kind).get? id = some (some stray) := by
  cases piece with
  | entry kind key => exact ⟨kind, none, Option.join_eq_some_iff.mp h⟩
  | entryVia first second key => exact ⟨second, _, Option.join_eq_some_iff.mp h⟩
  | _ => cases h

/-- The piece reads a table without minding whether there is an id. -/
def isDirect : Piece → Bool
  | .entry _ _ => true
  | .entryVia _ _ _ => true
  | _ => false

/-- The piece is a text that cannot be taken for the mark. -/
def isPlainText : Piece → Bool
  | .text words => !words.toList.contains '<'
  | _ => false

/-- The tables that the piece goes by. -/
def kinds : Piece → List TableKind
  | .lookup kind _ _ => [kind]
  | .entry kind _ => [kind]
  | .entryVia first second _ => [first, second]
  | _ => []

theorem isDirect_of_strayName {tables : Tables} {inputs : Attributes} {piece : Piece}
    {stray : String} (h : piece.strayName tables inputs = some stray) : piece.isDirect = true := by
  cases piece with
  | entry kind key => rfl
  | entryVia first second key => rfl
  | _ => cases h

/-- There is no stray name where nothing is filed under the absent id. -/
theorem strayName_eq_none {tables : Tables} {inputs : Attributes} {piece : Piece}
    (h : ∀ kind ∈ piece.kinds, (tables.table kind).get? none = none) :
    piece.strayName tables inputs = none := by
  have hunder : ∀ kind ∈ piece.kinds, tables.nameUnder kind none = none := by
    intro kind hkind
    unfold Tables.nameUnder
    rw [h kind hkind]
    rfl
  cases piece with
  | entry kind key => exact hunder kind (List.mem_singleton_self kind)
  | entryVia first second key =>
    show tables.nameUnder second _ = none
    have hsecond : tables.nameUnder second none = none := hunder second (by simp [kinds])
    have hfirst : tables.nameUnder first none = none := hunder first (by simp [kinds])
    rw [hfirst, ite_self, hsecond]
  | _ => rfl

end Piece

/-! ## The standard rules -/

namespace Rulebook

/-- A direct piece of a standard rule stands alone or behind a plain text, and goes by the tables of
the stations and locations. -/
theorem standardRules_direct :
    ∀ r ∈ standardRules, ∀ piece ∈ r.2, piece.isDirect = true →
      (∀ other ∈ r.2, other = piece ∨ other.isPlainText = true) ∧
        ∀ kind ∈ piece.kinds, kind = .connectivity ∨ kind = .locations := by
  decide

/-- The rule for a kind stands among the standard rules, as one of this kind. -/
theorem exists_standardRule_of_kind {kind : String} {rule : LabelRule}
    (h : standard.get? kind = some rule) :
    ∃ r ∈ standardRules, kind ∈ r.1 ∧ rule.pieces = r.2 := by
  unfold standard at h
  rw [OrderedMap.ofList_eq_latest, OrderedMap.get?_latest] at h
  have hmem := OrderedMap.mem_valuesOf.mp (List.mem_of_getLast? h)
  obtain ⟨r, hr, hentry⟩ := List.mem_flatMap.mp hmem
  obtain ⟨kind', hkind, hpair⟩ := List.mem_map.mp hentry
  cases hpair
  exact ⟨r, hr, hkind, rfl⟩

theorem exists_standardRule {kind : String} {rule : LabelRule}
    (h : standard.get? kind = some rule) : ∃ r ∈ standardRules, rule.pieces = r.2 := by
  obtain ⟨r, hr, -, hpieces⟩ := exists_standardRule_of_kind h
  exact ⟨r, hr, hpieces⟩

end Rulebook

/-! ## Resolved labels -/

section Resolved

variable {book : Rulebook} {tables : Tables} {kind : String} {rule : LabelRule}
  {name : Option String} {inputs : Attributes}

/-- The label is reported as incomplete: the mark stands in its draft, kind and inputs are put
behind this before it is cut, and there is one warning. -/
structure Reported (book : Rulebook) (tables : Tables) (maxLength : Int) (kind name : Option String)
    (inputs : Attributes) : Prop where
  mark : Text.hasWord (draftLabel book tables kind name inputs) missingMark = true
  value : (resolveLabel book tables maxLength kind name inputs).value =
    Text.cut maxLength (draftLabel book tables kind name inputs ++ "\n" ++
      fallbackLabel kind inputs ++ "(was missing)")
  log : (resolveLabel book tables maxLength kind name inputs).log =
    [⟨.warning, "Incomplete label data for " ++ fallbackLabel kind inputs⟩]

theorem draftLabel_of_get? (h : book.get? kind = some rule) :
    draftLabel book tables (some kind) name inputs = rule.render tables name inputs := by
  have hrule : book.ruleFor? (some kind) = some rule := h
  unfold draftLabel draftBy
  rw [hrule]
  rfl

/-- A complete label is cut and nothing else, and nothing is logged. -/
theorem resolveLabel_of_complete {kind : Option String} (maxLength : Int)
    (h : isIncomplete (draftLabel book tables kind name inputs) = false) :
    resolveLabel book tables maxLength kind name inputs =
      ⟨Text.cut maxLength (draftLabel book tables kind name inputs), []⟩ := by
  rw [resolveLabel_eq, finishLabel, h]
  rfl

theorem reported_of_isIncomplete {kind : Option String} (maxLength : Int)
    (h : isIncomplete (draftLabel book tables kind name inputs) = true) :
    Reported book tables maxLength kind name inputs := by
  refine ⟨h, ?_, ?_⟩
  · rw [resolveLabel_eq, finishLabel, if_pos h]
    rfl
  · rw [resolveLabel_eq, finishLabel, if_pos h]
    rfl

/-- Words of a label are kept by a cut that comes behind them. -/
theorem hasWord_resolveLabel {kind : Option String} {front word back : String}
    (h : draftLabel book tables kind name inputs = front ++ word ++ back) {maxLength : Int}
    (hlength : (front.length + word.length : Nat) ≤ maxLength) :
    Text.hasWord (resolveLabel book tables maxLength kind name inputs).value word = true := by
  rw [resolveLabel_eq, finishLabel]
  split
  · show Text.hasWord (Text.cut maxLength (draftLabel book tables kind name inputs ++ "\n" ++
      fallbackLabel kind inputs ++ "(was missing)")) word = true
    rw [h]
    simp only [String.append_assoc]
    rw [← String.append_assoc]
    exact Text.hasWord_cut _ hlength
  · show Text.hasWord (Text.cut maxLength (draftLabel book tables kind name inputs)) word = true
    rw [h]
    exact Text.hasWord_cut _ hlength

/-- A name taken from a loaded table does not have the mark. -/
theorem hasWord_eq_false_of_isValue {text : String} (h : Markup.IsValue text) :
    Text.hasWord text missingMark = false := by
  have hmark : '<' ∈ missingMark.toList := by decide
  exact Text.hasWord_eq_false hmark (h.not_mem (by decide))

/-- A direct piece that says something leaves a standard rule complete. -/
theorem not_isIncomplete_of_direct (hrule : Rulebook.standard.get? kind = some rule) {piece : Piece}
    (hpiece : piece ∈ rule.pieces) (hdirect : piece.isDirect = true) {said : String}
    (heval : piece.eval tables name inputs = some said) (hsaid : Markup.IsValue said) :
    isIncomplete (rule.render tables name inputs) = false := by
  obtain ⟨r, hr, hpieces⟩ := Rulebook.exists_standardRule hrule
  rw [hpieces] at hpiece
  have hothers := (Rulebook.standardRules_direct r hr piece hpiece hdirect).1
  have hplain : ∀ other ∈ rule.pieces, ∃ text, other.eval tables name inputs = some text ∧
      '<' ∉ text.toList := by
    intro other hother
    rw [hpieces] at hother
    rcases hothers other hother with rfl | htext
    · exact ⟨said, heval, hsaid.not_mem (by decide)⟩
    · cases other with
      | text words => exact ⟨words, rfl, by simpa [Piece.isPlainText] using htext⟩
      | _ => cases htext
  rw [Bool.eq_false_iff, ne_eq, LabelRule.isIncomplete_render_iff]
  · rintro ⟨other, hother, hnone⟩
    obtain ⟨text, htext, -⟩ := hplain other hother
    rw [hnone] at htext
    cases htext
  · intro other hother text htext
    obtain ⟨text', htext', hfree⟩ := hplain other hother
    rw [htext] at htext'
    cases htext'
    exact hfree

end Resolved

/-! ## Labels without the id of a piece -/

section LacksId

variable {tables : Tables} {kind : String} {rule : LabelRule} {piece : Piece}
  {front back : List Piece} {inputs : Attributes}

theorem draftLabel_of_lacksId (hrule : Rulebook.standard.get? kind = some rule)
    (hpieces : rule.pieces = front ++ piece :: back) (hlacks : piece.LacksId tables inputs)
    (name : Option String) :
    draftLabel .standard tables (some kind) name inputs =
      LabelRule.render tables name inputs ⟨front⟩ ++
        (piece.strayName tables inputs).getD missingMark ++
          LabelRule.render tables name inputs ⟨back⟩ := by
  have heval : piece.eval tables name inputs = piece.strayName tables inputs :=
    Piece.eval_of_lacksId hlacks
  rw [draftLabel_of_get? hrule, LabelRule.render_of_append hpieces, heval]

/-- Where no name stands under the absent id, the label is reported. -/
theorem reported_of_lacksId (hrule : Rulebook.standard.get? kind = some rule)
    (hpieces : rule.pieces = front ++ piece :: back) (hlacks : piece.LacksId tables inputs)
    (hnone : piece.strayName tables inputs = none) (maxLength : Int) (name : Option String) :
    Reported .standard tables maxLength (some kind) name inputs := by
  refine reported_of_isIncomplete maxLength ?_
  rw [draftLabel_of_lacksId hrule hpieces hlacks, hnone]
  exact Text.hasWord_append _ missingMark _

/-- The mark stands behind what the earlier pieces say, and a cut behind it keeps it. -/
theorem hasWord_resolveLabel_of_lacksId (hrule : Rulebook.standard.get? kind = some rule)
    (hpieces : rule.pieces = front ++ piece :: back) (hlacks : piece.LacksId tables inputs)
    (hnone : piece.strayName tables inputs = none) {maxLength : Int} {name : Option String}
    (hlength : ((LabelRule.render tables name inputs ⟨front⟩).length + missingMark.length : Nat) ≤
      maxLength) :
    Text.hasWord (resolveLabel .standard tables maxLength (some kind) name inputs).value
      missingMark = true := by
  have hdraft := draftLabel_of_lacksId hrule hpieces hlacks name
  rw [hnone, Option.getD_none] at hdraft
  exact hasWord_resolveLabel hdraft hlength

/-- A stray name stands in the label as if it were the node's, and nothing is logged. -/
theorem resolveLabel_of_strayName {tree : FileTree} {settings : Settings}
    (hload : Loading.Gives (Tables.load tree settings) tables)
    (hrule : Rulebook.standard.get? kind = some rule)
    (hpieces : rule.pieces = front ++ piece :: back) (hlacks : piece.LacksId tables inputs)
    {stray : String} (hstray : piece.strayName tables inputs = some stray) (maxLength : Int)
    (name : Option String) :
    resolveLabel .standard tables maxLength (some kind) name inputs =
      ⟨Text.cut maxLength (LabelRule.render tables name inputs ⟨front⟩ ++ stray ++
        LabelRule.render tables name inputs ⟨back⟩), []⟩ := by
  obtain ⟨other, id, hid⟩ := Piece.exists_entry_of_strayName hstray
  have hpiece : piece ∈ rule.pieces := by
    rw [hpieces]
    exact List.mem_append_right _ (List.mem_cons_self ..)
  have hcomplete : isIncomplete (draftLabel .standard tables (some kind) name inputs) = false := by
    rw [draftLabel_of_get? hrule]
    exact not_isIncomplete_of_direct hrule hpiece (Piece.isDirect_of_strayName hstray)
      ((Piece.eval_of_lacksId hlacks).trans hstray) (Tables.isValue_of_gives_load hload hid)
  rw [resolveLabel_of_complete maxLength hcomplete, draftLabel_of_lacksId hrule hpieces hlacks,
    hstray]
  rfl

/-- Only a direct piece can read a stray name, and only from a line without an id. -/
theorem strayName_eq_none_of_identified {tree : FileTree} {settings : Settings}
    (hload : Loading.Gives (Tables.load tree settings) tables)
    (hrule : Rulebook.standard.get? kind = some rule) (hpiece : piece ∈ rule.pieces)
    (hids : piece.isDirect = true → Tables.Identified tree settings .connectivity ∧
      Tables.Identified tree settings .locations) :
    piece.strayName tables inputs = none := by
  cases hdirect : piece.isDirect with
  | false =>
    cases hstray : piece.strayName tables inputs with
    | none => rfl
    | some stray =>
      rw [Piece.isDirect_of_strayName hstray] at hdirect
      cases hdirect
  | true =>
    obtain ⟨hconnectivity, hlocations⟩ := hids hdirect
    obtain ⟨r, hr, hpieces⟩ := Rulebook.exists_standardRule hrule
    rw [hpieces] at hpiece
    have hkinds := (Rulebook.standardRules_direct r hr piece hpiece hdirect).2
    refine Piece.strayName_eq_none fun kind hkind => ?_
    rcases hkinds kind hkind with rfl | rfl
    · exact Tables.get?_none_of_identified hload rfl hconnectivity
    · exact Tables.get?_none_of_identified hload rfl hlocations

end LacksId

/-- **A node without the id that a piece of its rule looks up gets a label that is reported, unless
the piece reads a name under the absent id.**  A reported label has the mark, if it is not cut
before it, and then is no name from a table.  A stray name stands in the label instead of the mark,
and nothing is logged.  Only the pieces for stations can read one, and only if a line of the
connectivity or the locations has no id. -/
theorem label_of_lacksId {tree : FileTree} {settings : Settings} {tables : Tables}
    (hload : Loading.Gives (Tables.load tree settings) tables) {kind : String} {rule : LabelRule}
    (hrule : Rulebook.standard.get? kind = some rule) {piece : Piece} (hpiece : piece ∈ rule.pieces)
    {inputs : Attributes} (hlacks : piece.LacksId tables inputs) (maxLength : Int)
    (name : Option String) :
    ∃ front back, rule.pieces = front ++ piece :: back ∧
      (piece.strayName tables inputs = none →
        Reported .standard tables maxLength (some kind) name inputs ∧
          (((LabelRule.render tables name inputs ⟨front⟩).length + missingMark.length : Nat) ≤
              maxLength →
            Text.hasWord (resolveLabel .standard tables maxLength (some kind) name inputs).value
                missingMark = true ∧
              ∀ other id, (tables.table other).get? id ≠
                some (some (resolveLabel .standard tables maxLength (some kind) name
                  inputs).value))) ∧
      (∀ stray, piece.strayName tables inputs = some stray →
        (∃ other id, (tables.table other).get? id = some (some stray)) ∧
          resolveLabel .standard tables maxLength (some kind) name inputs =
            ⟨Text.cut maxLength (LabelRule.render tables name inputs ⟨front⟩ ++ stray ++
              LabelRule.render tables name inputs ⟨back⟩), []⟩) ∧
      ((piece.isDirect = true → Tables.Identified tree settings .connectivity ∧
          Tables.Identified tree settings .locations) →
        piece.strayName tables inputs = none) := by
  obtain ⟨front, back, hpieces⟩ := List.append_of_mem hpiece
  refine ⟨front, back, hpieces, ?_, ?_, ?_⟩
  · intro hnone
    refine ⟨reported_of_lacksId hrule hpieces hlacks hnone maxLength name, fun hlength => ?_⟩
    have hmark := hasWord_resolveLabel_of_lacksId hrule hpieces hlacks hnone hlength
    refine ⟨hmark, fun other id hid => ?_⟩
    rw [hasWord_eq_false_of_isValue (Tables.isValue_of_gives_load hload hid)] at hmark
    cases hmark
  · intro stray hstray
    exact ⟨Piece.exists_entry_of_strayName hstray,
      resolveLabel_of_strayName hload hrule hpieces hlacks hstray maxLength name⟩
  · intro hids
    exact strayName_eq_none_of_identified hload hrule hpiece hids

/-! ## A path without an id -/

namespace LostCorridor

/-- Game data of one station path, which has a name and no id. -/
def tree : FileTree :=
  (FileTree.bare ["work"]).plant ["work", "Ark", "Campaign", "StationAccessLibrary.xml"]
    (.file (Text.Utf8.encode "<ArkStationPath Name=\"Lost corridor\"/>\n".toList))

def kind : String := "Ark:PDA:SetStationAccessState"

def piece : Piece := .entry .connectivity "stationaccess_access"

/-- The name that the piece reads without its id, and the label. -/
def seen (tables : Tables) : Option String × String :=
  (piece.strayName tables .empty,
    (resolveLabel .standard tables defaultMaxLength (some kind) none .empty).value)

theorem get?_kind : Rulebook.standard.get? kind = some ⟨[piece]⟩ := by decide

theorem exists_gives_load :
    ∃ tables, Loading.Gives (Tables.load tree .standard) tables ∧
      seen tables = (some "Lost corridor", "Lost corridor") :=
  Loading.exists_gives_of_map (by decide +kernel)

end LostCorridor

theorem lostCorridor_label_of_lacksId :
    ∃ tables, Loading.Gives (Tables.load LostCorridor.tree .standard) tables ∧
      Rulebook.standard.get? LostCorridor.kind = some ⟨[LostCorridor.piece]⟩ ∧
      LostCorridor.piece.LacksId tables .empty ∧
      (∃ other id, (tables.table other).get? id = some (some "Lost corridor")) ∧
      (resolveLabel .standard tables defaultMaxLength (some LostCorridor.kind) none .empty).log =
        [] := by
  obtain ⟨tables, hload, hseen⟩ := LostCorridor.exists_gives_load
  have hlacks : LostCorridor.piece.LacksId tables .empty := rfl
  obtain ⟨front, back, -, -, hstray, -⟩ := label_of_lacksId hload LostCorridor.get?_kind
    (List.mem_singleton_self LostCorridor.piece) hlacks defaultMaxLength none
  obtain ⟨hentry, hlabel⟩ := hstray "Lost corridor" (Prod.mk.inj hseen).1
  exact ⟨tables, hload, LostCorridor.get?_kind, hlacks, hentry, by rw [hlabel]⟩

/-- A label without its id can be a name from a table. -/
theorem not_forall_label_of_lacksId :
    ¬ ∀ (tree : FileTree) (settings : Settings) (tables : Tables) (kind : String)
        (rule : LabelRule) (piece : Piece) (inputs : Attributes) (name : Option String),
      Loading.Gives (Tables.load tree settings) tables →
        Rulebook.standard.get? kind = some rule → piece ∈ rule.pieces →
          piece.LacksId tables inputs →
            Text.hasWord
              (resolveLabel .standard tables defaultMaxLength (some kind) name inputs).value
                missingMark = true := by
  intro hall
  obtain ⟨tables, hload, hseen⟩ := LostCorridor.exists_gives_load
  have hlabel : (resolveLabel .standard tables defaultMaxLength (some LostCorridor.kind) none
      .empty).value = "Lost corridor" := (Prod.mk.inj hseen).2
  have hmark := hall LostCorridor.tree .standard tables LostCorridor.kind _ LostCorridor.piece
    .empty none hload LostCorridor.get?_kind (List.mem_singleton_self _) rfl
  rw [hlabel] at hmark
  revert hmark
  decide

end FlowAtlas
