import FlowAtlas.Proofs.Label.Missing
import FlowAtlas.Proofs.Label.Unmarked

/-!
# Which labels lack a value

A label is checked by searching it for the mark, after all its pieces have been put together.  As
long as nothing that a rule can print has the character that the mark begins with, this search finds
exactly the labels of which a piece met an absent value.

Main facts: `lacksValue_of_eval` (what a piece has met that says nothing),
`isIncomplete_draftLabel_iff` (what the search finds) and `reported_iff_lacksValue`.
-/

namespace FlowAtlas

open Text

/-- The rule of a kind meets an absent value in a node with the given name and inputs. -/
inductive LacksValue (tables : Tables) (name : Option String) (inputs : Attributes) :
    Option String → Prop
  /-- An input that the rule prints. -/
  | input {kind : String} {rule : LabelRule} {key : String}
      (hrule : Rulebook.standard.get? kind = some rule) (hprints : .input key ∈ rule.pieces)
      (habsent : inputs.get? key = none) : LacksValue tables name inputs (some kind)
  /-- An input whose value the rule looks up. -/
  | id {kind : String} {rule : LabelRule} {table : TableKind} {form : IdForm} {key : String}
      (hrule : Rulebook.standard.get? kind = some rule)
      (hlooks : .lookup table form key ∈ rule.pieces) (habsent : inputs.get? key = none) :
      LacksValue tables name inputs (some kind)
  /-- The name of an id that the rule looks up and the table knows. -/
  | unnamed {kind : String} {rule : LabelRule} {table : TableKind} {form : IdForm}
      {key id : String} (hrule : Rulebook.standard.get? kind = some rule)
      (hlooks : .lookup table form key ∈ rule.pieces) (hid : inputs.get? key = some id)
      (hunnamed : (tables.table table).get? (some (form.of id)) = some none) :
      LacksValue tables name inputs (some kind)
  /-- The name of a comment. -/
  | comment {kind : String} (hkind : kind = "_comment" ∨ kind = "_commentbox")
      (habsent : name = none) : LacksValue tables name inputs (some kind)
  /-- The name of a station, which is looked up even without an id. -/
  | station
      (habsent : tables.nameUnder .connectivity (inputs.get? "stationaccess_access") = none) :
      LacksValue tables name inputs (some "Ark:PDA:SetStationAccessState")
  /-- The name of the location that an airlock leads to. -/
  | airlock
      (habsent : tables.nameUnder .locations
        (tables.nameUnder .connectivity (inputs.get? "stationairlock_airlock")) = none) :
      LacksValue tables name inputs (some "Ark:PDA:SetStationAirlockState")

/-! ## Pieces that say nothing -/

namespace Piece

/-- The fixed words that the piece may print. -/
def words : Piece → List String
  | .text words => [words]
  | .onlyIf _ _ words => [words]
  | _ => []

/-- Whatever an unmarked node and unmarked tables make a piece say is unmarked, if its words are. -/
theorem unmarked_of_eval {piece : Piece} {tables : Tables} {name : Option String}
    {inputs : Attributes} (htables : tables.Unmarked)
    (hname : ∀ text, name = some text → Unmarked text) (hinputs : inputs.Unmarked)
    (hwords : ∀ words ∈ piece.words, Unmarked words) {said : String}
    (h : piece.eval tables name inputs = some said) : Unmarked said := by
  have hunder : ∀ kind id, tables.nameUnder kind id = some said → Unmarked said :=
    fun kind id hsaid => htables.names kind id said (Option.join_eq_some_iff.mp hsaid)
  cases piece with
  | text words => exact Option.some.inj h ▸ hwords words (List.mem_singleton_self words)
  | input key => exact (hinputs key said h).2
  | nodeName => exact hname said h
  | lookup kind form key =>
    obtain ⟨id, hid, hsaid⟩ := Option.bind_eq_some_iff.mp h
    unfold Tables.nameOf at hsaid
    split at hsaid
    · exact Option.some.inj hsaid ▸ form.unmarked_of (hinputs key id hid).2
    · rename_i known hknown
      exact htables.names kind _ said (hsaid ▸ hknown)
  | onlyIf key value words =>
    rw [← Option.some.inj h]
    split_ifs
    · exact hwords words (List.mem_singleton_self words)
    · decide
  | entry kind key => exact hunder kind _ h
  | entryVia first second key => exact hunder second _ h
  | nothing => cases h

end Piece

namespace Rulebook

/-- The words of the standard rules are unmarked. -/
theorem unmarked_words : ∀ r ∈ standardRules, ∀ piece ∈ r.2, ∀ words ∈ piece.words,
    Unmarked words := by
  decide

/-- Only comments are labelled by their names. -/
theorem kinds_of_nodeName : ∀ r ∈ standardRules, .nodeName ∈ r.2 →
    r.1 = ["_comment", "_commentbox"] := by
  decide

/-- The pieces that read a table without minding whether there is an id. -/
theorem kinds_of_isDirect : ∀ r ∈ standardRules, ∀ piece ∈ r.2, piece.isDirect = true →
    (r.1 = ["Ark:PDA:SetStationAccessState"] ∧
      piece = .entry .connectivity "stationaccess_access") ∨
    (r.1 = ["Ark:PDA:SetStationAirlockState"] ∧
      piece = .entryVia .connectivity .locations "stationairlock_airlock") := by
  decide

theorem nothing_not_mem : ∀ r ∈ standardRules, Piece.nothing ∉ r.2 := by decide

theorem get?_comment {kind : String} (h : kind = "_comment" ∨ kind = "_commentbox") :
    standard.get? kind = some ⟨[.text "[[", .nodeName, .text "]]"]⟩ := by
  rcases h with rfl | rfl
  · decide
  · decide

theorem get?_station : standard.get? "Ark:PDA:SetStationAccessState" =
    some ⟨[.entry .connectivity "stationaccess_access"]⟩ := by
  decide

theorem get?_airlock : standard.get? "Ark:PDA:SetStationAirlockState" =
    some ⟨[.text "Airlock to ",
      .entryVia .connectivity .locations "stationairlock_airlock"]⟩ := by
  decide

end Rulebook

section Lacks

variable {tables : Tables} {name : Option String} {inputs : Attributes} {kind : Option String}

/-- A piece of a standard rule that says nothing has met an absent value. -/
theorem lacksValue_of_eval {kind : String} {rule : LabelRule} {piece : Piece}
    (hrule : Rulebook.standard.get? kind = some rule) (hpiece : piece ∈ rule.pieces)
    (h : piece.eval tables name inputs = none) : LacksValue tables name inputs (some kind) := by
  obtain ⟨r, hr, hkind, hpieces⟩ := Rulebook.exists_standardRule_of_kind hrule
  have hmem : piece ∈ r.2 := hpieces ▸ hpiece
  have hdirect := Rulebook.kinds_of_isDirect r hr piece hmem
  cases piece with
  | text words => cases h
  | input key => exact .input hrule hpiece h
  | nodeName =>
    rw [Rulebook.kinds_of_nodeName r hr hmem] at hkind
    exact .comment (by simpa using hkind) h
  | lookup table form key =>
    cases hid : inputs.get? key with
    | none => exact .id hrule hpiece hid
    | some id =>
      have hnone : tables.nameOf table (form.of id) = none := by
        change (inputs.get? key).bind _ = none at h
        rw [hid] at h
        exact h
      unfold Tables.nameOf at hnone
      split at hnone
      · cases hnone
      · rename_i known hknown
        exact .unnamed hrule hpiece hid (hnone ▸ hknown)
  | onlyIf key value words => cases h
  | entry table key =>
    rcases hdirect rfl with ⟨hkinds, hentry⟩ | ⟨-, hentry⟩
    · cases hentry
      rw [hkinds, List.mem_singleton] at hkind
      exact hkind ▸ .station h
    · cases hentry
  | entryVia first second key =>
    rcases hdirect rfl with ⟨-, hentry⟩ | ⟨hkinds, hentry⟩
    · cases hentry
    · cases hentry
      rw [hkinds, List.mem_singleton] at hkind
      exact hkind ▸ .airlock h
  | nothing => exact absurd hmem (Rulebook.nothing_not_mem r hr)

/-- Where a value is absent, a piece of the rule says nothing. -/
theorem LacksValue.exists_eval (h : LacksValue tables name inputs kind) :
    ∃ k rule piece, kind = some k ∧ Rulebook.standard.get? k = some rule ∧ piece ∈ rule.pieces ∧
      piece.eval tables name inputs = none := by
  cases h with
  | input hrule hprints habsent => exact ⟨_, _, _, rfl, hrule, hprints, habsent⟩
  | @id k rule table form key hrule hlooks habsent =>
    refine ⟨k, rule, _, rfl, hrule, hlooks, ?_⟩
    show (inputs.get? key).bind _ = none
    rw [habsent]
    rfl
  | @unnamed k rule table form key id hrule hlooks hid hunnamed =>
    refine ⟨k, rule, _, rfl, hrule, hlooks, ?_⟩
    show (inputs.get? key).bind (fun id => tables.nameOf table (form.of id)) = none
    rw [hid, Option.bind_some, Tables.nameOf, hunnamed]
  | comment hkind habsent =>
    exact ⟨_, _, .nodeName, rfl, Rulebook.get?_comment hkind, by simp, habsent⟩
  | station habsent =>
    exact ⟨_, _, .entry _ _, rfl, Rulebook.get?_station, List.mem_singleton_self _, habsent⟩
  | airlock habsent =>
    exact ⟨_, _, .entryVia _ _ _, rfl, Rulebook.get?_airlock,
      List.mem_cons_of_mem _ (List.mem_singleton_self _), habsent⟩

/-- A kind without a rule lacks nothing. -/
theorem LacksValue.handles (h : LacksValue tables name inputs kind) :
    Rulebook.standard.handles kind = true := by
  obtain ⟨k, rule, -, rfl, hrule, -, -⟩ := h.exists_eval
  show (Rulebook.standard.get? k).isSome = true
  rw [hrule]
  rfl

end Lacks

/-! ## The search for the mark -/

/-- The search finds the mark exactly if the rule met an absent value. -/
theorem isIncomplete_draftLabel_iff {tables : Tables} (htables : tables.Unmarked) {node : Node}
    (hnode : node.Unmarked) :
    isIncomplete (draftLabel .standard tables node.kind node.name node.inputs) = true ↔
      LacksValue tables node.name node.inputs node.kind := by
  cases hrule : Rulebook.standard.ruleFor? node.kind with
  | none =>
    have hdraft : draftLabel .standard tables node.kind node.name node.inputs =
        fallbackLabel node.kind node.inputs := by
      unfold draftLabel draftBy
      rw [hrule]
    have hunmarked := (unmarked_fallbackLabel hnode.kind hnode.inputs).hasWord
    rw [hdraft, isIncomplete, hunmarked]
    refine ⟨fun h => absurd h (by simp), fun h => ?_⟩
    obtain ⟨k, rule, -, hkind, hget, -, -⟩ := h.exists_eval
    rw [hkind] at hrule
    cases hrule.symm.trans hget
  | some rule =>
    obtain ⟨kind, hkind, hget⟩ := Option.bind_eq_some_iff.mp hrule
    obtain ⟨r, hr, hpieces⟩ := Rulebook.exists_standardRule hget
    rw [hkind, draftLabel_of_get? hget, LabelRule.isIncomplete_render_iff]
    · constructor
      · rintro ⟨piece, hpiece, heval⟩
        exact lacksValue_of_eval hget hpiece heval
      · intro h
        obtain ⟨k, rule', piece, hk, hget', hpiece, heval⟩ := h.exists_eval
        cases hk
        cases hget.symm.trans hget'
        exact ⟨piece, hpiece, heval⟩
    · intro piece hpiece said hsaid
      exact Piece.unmarked_of_eval htables hnode.name hnode.inputs
        (Rulebook.unmarked_words r hr piece (hpieces ▸ hpiece)) hsaid

/-- **A label is reported exactly if its rule met an absent value**, of any node and any tables
without the character that the mark begins with; every other label is only cut, and nothing is
logged.  A kind without a rule is never reported.  The nodes of every source and all tables that are
loaded are of this sort, so no scraped text is taken for the mark. -/
theorem reported_iff_lacksValue :
    (∀ (tables : Tables) (node : Node) (maxLength : Int), tables.Unmarked → node.Unmarked →
      (Reported .standard tables maxLength node.kind node.name node.inputs ↔
        LacksValue tables node.name node.inputs node.kind) ∧
      (¬ LacksValue tables node.name node.inputs node.kind →
        resolveLabel .standard tables maxLength node.kind node.name node.inputs =
          ⟨Text.cut maxLength (draftLabel .standard tables node.kind node.name node.inputs),
            []⟩) ∧
      (Rulebook.standard.handles node.kind = false →
        ¬ LacksValue tables node.name node.inputs node.kind)) ∧
    (∀ lines, ∀ scope ∈ (assembleScopes lines).value, ∀ id node,
      scope.nodes.get? id = some node → node.Unmarked) ∧
    ∀ tree settings tables, Loading.Gives (Tables.load tree settings) tables →
      tables.Unmarked := by
  refine ⟨fun tables node maxLength htables hnode => ?_,
    fun _ _ hscope _ _ hnode => Node.unmarked_of_get? hscope hnode,
    fun _ _ _ hload => Tables.unmarked_of_gives_load hload⟩
  have hiff := isIncomplete_draftLabel_iff htables hnode
  refine ⟨⟨fun h => hiff.mp h.mark, fun h => reported_of_isIncomplete maxLength (hiff.mpr h)⟩,
    fun h => ?_, fun hhandles h => ?_⟩
  · exact resolveLabel_of_complete maxLength (Bool.eq_false_iff.mpr (mt hiff.mp h))
  · rw [h.handles] at hhandles
    cases hhandles

/-! ## A token without a name -/

namespace NamelessToken

/-- Game data of one token, which has no name. -/
def tree : FileTree :=
  (FileTree.bare ["work"]).plant ["work", "Libs", "GameTokens", "GT_Global.xml"]
    (.file (Text.Utf8.encode "<GameToken Id=\"7\"/>\n".toList))

/-- A node that sets the token to a value much like the mark. -/
def lines : List String :=
  ["<Node Id=\"1\" Class=\"Mission:GameTokenSet\">",
    "<Inputs gametokenid_token=\"7\" value=\"missing\"/>", "</Node>"]

def node : Node where
  id := some "1"
  name := none
  kind := some "Mission:GameTokenSet"
  position := .origin
  inputs := .ofList [("gametokenid_token", "7"), ("value", "missing")]

def scope : Scope := ⟨none, .ofList [(some "1", node)], [], true⟩

def rule : LabelRule :=
  ⟨[.text "SET TOKEN ", Rulebook.token, .text "=\"", .input "value", .text "\""]⟩

theorem scope_mem : scope ∈ (assembleScopes lines).value := by decide +kernel

theorem get?_rule : Rulebook.standard.get? "Mission:GameTokenSet" = some rule := by
  decide

theorem exists_gives_load :
    ∃ tables, Loading.Gives (Tables.load tree .standard) tables ∧
      (tables.table .gameTokens).get? (some "7") = some none :=
  Loading.exists_gives_of_map (by decide +kernel)

theorem lacksValue {tables : Tables} (h : (tables.table .gameTokens).get? (some "7") = some none) :
    LacksValue tables node.name node.inputs node.kind := by
  have hlooks : Piece.lookup .gameTokens .plain "gametokenid_token" ∈ rule.pieces := by decide
  have hid : node.inputs.get? "gametokenid_token" = some "7" := by decide
  exact .unnamed get?_rule hlooks hid h

end NamelessToken

open NamelessToken in
theorem namelessToken_reported :
    scope ∈ (assembleScopes lines).value ∧
      ∃ tables, Loading.Gives (Tables.load tree .standard) tables ∧ tables.Unmarked ∧
        node.Unmarked ∧ LacksValue tables node.name node.inputs node.kind ∧
        Reported .standard tables defaultMaxLength node.kind node.name node.inputs := by
  obtain ⟨tables, hload, htoken⟩ := exists_gives_load
  obtain ⟨hall, hnodes, htables⟩ := reported_iff_lacksValue
  have hnode : node.Unmarked := hnodes lines scope scope_mem (some "1") node (by decide)
  have hunmarked : tables.Unmarked := htables tree .standard tables hload
  refine ⟨scope_mem, tables, hload, hunmarked, hnode, lacksValue htoken, ?_⟩
  exact (hall tables node defaultMaxLength hunmarked hnode).1.mpr (lacksValue htoken)

end FlowAtlas
