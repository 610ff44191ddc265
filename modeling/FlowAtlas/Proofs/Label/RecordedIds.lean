import FlowAtlas.Proofs.Label.UnsignedIds
import FlowAtlas.Proofs.Tables.OwnFiles

/-!
# Labels of recorded ids

Tasks, descriptions and clues are filed under the ids that their records have, and are looked up by
the unsigned form of the id that a node has.  So a record is found from either form of its id if it
has the unsigned form itself, and from neither form if it has the signed one.

Main facts: `get?_of_gives_load` (what is filed under an id), `RecordedAlone.nameOf` (what is found
for it) and `label_of_recorded`.
-/

namespace FlowAtlas

open OrderedMap (valuesOf)
open ObjectiveTables (recordsOf)

/-! ## What records file -/

/-- What a record files in a table, beside the names of objectives. -/
def ObjectiveRecord.filing? : TableKind → ObjectiveRecord → Option Filing
  | .tasks => task?
  | .descriptions => description?
  | .clues => clue?
  | _ => fun _ => none

namespace Tables

/-- What the records of all objectives files file in a table. -/
def filings (tree : FileTree) (settings : Settings) (table : TableKind) : List Filing :=
  ((tree.sourcesIn (settings.sourceRoot.join settings.layout.objectives)).map
    recordsOf).flatten.filterMap (ObjectiveRecord.filing? table)

/-- The tables in which records file their own names. -/
def ofRecords : List TableKind := [.tasks, .descriptions, .clues]

theorem mem_ofRecords {tree : FileTree} {settings : Settings} {table : TableKind} {filing : Filing}
    (h : filing ∈ filings tree settings table) : table ∈ ofRecords := by
  obtain ⟨record, -, hrecord⟩ := List.mem_filterMap.mp h
  cases table with
  | tasks => decide
  | descriptions => decide
  | clues => decide
  | _ => cases hrecord

/-- **Under an id stands the last name that a record with this very id has.** -/
theorem get?_of_gives_load {tree : FileTree} {settings : Settings} {tables : Tables}
    (hload : Loading.Gives (load tree settings) tables) {table : TableKind}
    (htable : table ∈ ofRecords) (id : Option String) :
    (tables.table table).get? id = (valuesOf id (filings tree settings table)).getLast? := by
  obtain ⟨⟨fromObjectives, hobjectives, -, htasks, hdescriptions, hclues⟩, -⟩ := gives_load hload
  have htold := (ObjectiveTables.gives_load_iff.mp hobjectives).2
  have htells := ObjectiveTables.tells_told ((tree.sourcesIn
    (settings.sourceRoot.join settings.layout.objectives)).map recordsOf)
  rw [← htold] at htells
  have hcases : table = .tasks ∨ table = .descriptions ∨ table = .clues := by
    simpa [ofRecords] using htable
  rcases hcases with rfl | rfl | rfl
  · rw [htasks]
    exact htells.tasks id
  · rw [hdescriptions]
    exact htells.descriptions id
  · rw [hclues]
    exact htells.clues id

end Tables

/-! ## One record for some bits -/

/-- The text is the decimal of the bits, as a signed or as an unsigned number. -/
def IsFormOf (bits : BitVec 64) (text : String) : Prop :=
  text = Text.signedDecimal bits.toInt ∨ text = Text.decimal bits.toNat

theorem IsFormOf.unsigned64 {bits : BitVec 64} {text : String} (h : IsFormOf bits text) :
    unsigned64 text = Text.decimal bits.toNat := by
  rcases h with rfl | rfl
  · exact unsigned64_bits bits
  · exact unsigned64_decimal bits.toNat

/-- A name is filed under one form of the bits, and nothing else under either form. -/
structure RecordedAlone (filings : List Filing) (bits : BitVec 64) (id name : String) : Prop where
  form : IsFormOf bits id
  filed : (some id, some name) ∈ filings
  alone : ∀ other otherName, IsFormOf bits other → (some other, otherName) ∈ filings →
    other = id ∧ otherName = some name

section Recorded

variable {filings : List Filing} {bits : BitVec 64} {id name : String}

theorem RecordedAlone.getLast?_valuesOf (h : RecordedAlone filings bits id name) {form : String}
    (hform : IsFormOf bits form) :
    (valuesOf (some form) filings).getLast? = if form = id then some (some name) else none := by
  split
  · rename_i heq
    subst heq
    have hne : valuesOf (some form) filings ≠ [] := fun hnil =>
      List.not_mem_nil (hnil ▸ OrderedMap.mem_valuesOf.mpr h.filed)
    have hlast := OrderedMap.mem_valuesOf.mp (List.getLast_mem hne)
    rw [List.getLast?_eq_some_getLast hne, (h.alone form _ hform hlast).2]
  · rename_i hne
    rw [List.getLast?_eq_none_iff, OrderedMap.valuesOf_eq_nil_iff]
    intro hmem
    obtain ⟨filing, hfiling, hid⟩ := List.mem_map.mp hmem
    obtain ⟨other, otherName⟩ := filing
    cases hid
    exact hne (h.alone form otherName hform hfiling).1

variable {tree : FileTree} {settings : Settings} {tables : Tables} {table : TableKind}

/-- The name is found from either form if it is filed under the unsigned one, else from neither. -/
theorem RecordedAlone.nameOf (hload : Loading.Gives (Tables.load tree settings) tables)
    (h : RecordedAlone (Tables.filings tree settings table) bits id name) {form : String}
    (hform : IsFormOf bits form) :
    tables.nameOf table (unsigned64 form) =
      some (if id = Text.decimal bits.toNat then name else Text.decimal bits.toNat) := by
  -- Whichever form the node has, the unsigned one is asked for.
  have hget := Tables.get?_of_gives_load hload (Tables.mem_ofRecords h.filed)
    (some (Text.decimal bits.toNat))
  rw [h.getLast?_valuesOf (Or.inr rfl)] at hget
  rw [hform.unsigned64]
  unfold Tables.nameOf
  rw [hget]
  by_cases heq : id = Text.decimal bits.toNat
  · rw [if_pos heq, if_pos heq.symm]
  · rw [if_neg heq, if_neg fun hsymm => heq hsymm.symm]

end Recorded

/-! ## Labels -/

section Label

variable {tree : FileTree} {settings : Settings} {tables : Tables} {table : TableKind}
  {bits : BitVec 64} {id name kind : String} {rule : LabelRule} {form : IdForm} {key : String}
  {inputs : Attributes} {nodeId : String}

/-- A standard rule looks recorded ids up in their unsigned form. -/
theorem form_of_recorded
    (hrecord : RecordedAlone (Tables.filings tree settings table) bits id name)
    (hrule : Rulebook.standard.get? kind = some rule)
    (hpiece : .lookup table form key ∈ rule.pieces) : form = .unsigned := by
  obtain ⟨r, hr, hpieces⟩ := Rulebook.exists_standardRule hrule
  have hrecorded : table ∈ Tables.ofRecords := Tables.mem_ofRecords hrecord.filed
  have hofObjectives : ∀ table ∈ Tables.ofRecords, table ∈ TableKind.ofObjectives := by decide
  have hunsigned : (Piece.lookup table form key).isUnsigned = true :=
    Rulebook.isUnsigned_of_ofObjectives r hr (.lookup table form key) (hpieces ▸ hpiece)
      ⟨table, List.mem_singleton_self table, hofObjectives table hrecorded⟩ _ (hpieces ▸ hpiece) rfl
  cases form with
  | plain => cases hunsigned
  | unsigned => rfl

theorem eval_of_recorded (hload : Loading.Gives (Tables.load tree settings) tables)
    (hrecord : RecordedAlone (Tables.filings tree settings table) bits id name)
    (hrule : Rulebook.standard.get? kind = some rule)
    (hpiece : .lookup table form key ∈ rule.pieces) (hid : inputs.get? key = some nodeId)
    (hnodeId : IsFormOf bits nodeId) (nodeName : Option String) :
    Piece.eval tables nodeName inputs (.lookup table form key) =
      some (if id = Text.decimal bits.toNat then name else Text.decimal bits.toNat) := by
  show ((inputs.get? key).bind fun id => tables.nameOf table (form.of id)) = _
  rw [hid, form_of_recorded hrecord hrule hpiece]
  exact hrecord.nameOf hload hnodeId

/-- **A recorded task, description or clue is found from either form of its id exactly if its record
has the unsigned form.**  Then its name stands in the label, if this is not cut before it; otherwise
the unsigned form stands there. -/
theorem label_of_recorded (hload : Loading.Gives (Tables.load tree settings) tables)
    (hrecord : RecordedAlone (Tables.filings tree settings table) bits id name)
    (hrule : Rulebook.standard.get? kind = some rule)
    (hpiece : .lookup table form key ∈ rule.pieces) (hid : inputs.get? key = some nodeId)
    (hnodeId : IsFormOf bits nodeId) (nodeName : Option String) :
    (Piece.eval tables nodeName inputs (.lookup table form key) = some name ↔
      id = Text.decimal bits.toNat ∨ name = Text.decimal bits.toNat) ∧
    ∃ front back, rule.pieces = front ++ .lookup table form key :: back ∧
      draftLabel .standard tables (some kind) nodeName inputs =
        LabelRule.render tables nodeName inputs ⟨front⟩ ++
          (if id = Text.decimal bits.toNat then name else Text.decimal bits.toNat) ++
            LabelRule.render tables nodeName inputs ⟨back⟩ ∧
      (id = Text.decimal bits.toNat → ∀ maxLength : Int,
        ((LabelRule.render tables nodeName inputs ⟨front⟩).length + name.length : Nat) ≤
            maxLength →
          Text.hasWord (resolveLabel .standard tables maxLength (some kind) nodeName inputs).value
            name = true) := by
  have heval := eval_of_recorded hload hrecord hrule hpiece hid hnodeId nodeName
  obtain ⟨front, back, hsplit⟩ := List.append_of_mem hpiece
  have hdraft : draftLabel .standard tables (some kind) nodeName inputs =
      LabelRule.render tables nodeName inputs ⟨front⟩ ++
        (if id = Text.decimal bits.toNat then name else Text.decimal bits.toNat) ++
          LabelRule.render tables nodeName inputs ⟨back⟩ := by
    rw [draftLabel_of_get? hrule, LabelRule.render_of_append hsplit, heval, Option.getD_some]
  refine ⟨?_, front, back, hsplit, hdraft, fun heq maxLength hlength => ?_⟩
  · rw [heval, Option.some.injEq]
    split
    · rename_i heq
      exact ⟨fun _ => Or.inl heq, fun _ => rfl⟩
    · rename_i hne
      exact ⟨fun hsame => Or.inr hsame.symm, fun hsame => (hsame.resolve_left hne).symm⟩
  · rw [if_pos heq] at hdraft
    exact hasWord_resolveLabel hdraft hlength

end Label

/-! ## A record with either form of its id -/

namespace RecordedVault

/-- One task, with the given id. -/
def content (id : String) : List UInt8 := Text.Utf8.encode
  ("<Task Id=\"" ++ id ++ "\" DisplayName=\"Open the vault\"/>\n").toList

/-- Game data of this task alone. -/
def tree (id : String) : FileTree :=
  (FileTree.bare ["work"]).plant ["work", "Ark", "Campaign", "Objectives", "vault.xml"]
    (.file (content id))

def directory : Path := Settings.standard.sourceRoot.join Settings.standard.layout.objectives

def bits : BitVec 64 := BitVec.ofInt 64 (-5)

def kind : String := "Ark:Objectives:TaskState"

def rule : LabelRule := ⟨[.text "TASK ", Rulebook.task]⟩

/-- A node that has the signed form. -/
def inputs : Attributes := .ofList [("task_task", "-5")]

theorem get?_kind : Rulebook.standard.get? kind = some rule := by decide

theorem looks : Piece.lookup .tasks .unsigned "task_task" ∈ rule.pieces := by decide

theorem get?_inputs : inputs.get? "task_task" = some "-5" := by decide

theorem isFormOf_signed : IsFormOf bits "-5" := Or.inl (by decide)

theorem isFormOf_unsigned : IsFormOf bits "18446744073709551611" := Or.inr (by decide)

theorem recordsOf_signed : recordsOf (content "-5") =
    [.task (some "-5") (some "Open the vault")] := by
  decide +kernel

theorem recordsOf_unsigned : recordsOf (content "18446744073709551611") =
    [.task (some "18446744073709551611") (some "Open the vault")] := by
  decide +kernel

section Tree

variable (id : String)

theorem isDirectory : (tree id).isDirectory directory = .ok true := rfl

theorem list_directory : (tree id).list directory = ["vault.xml"] := by
  show sortByText (fun name => name) ["vault.xml"] = ["vault.xml"]
  exact List.mergeSort_of_pairwise (by decide)

theorem regularFiles_directory : (tree id).regularFiles directory = .ok [content id] := by
  unfold FileTree.regularFiles
  rw [list_directory]
  rfl

theorem loadable : Tables.Loadable (tree id) .standard where
  objectives := ⟨FileTree.exists_isDirectory_iff.mp ⟨true, isDirectory id⟩,
    fun _ => FileTree.exists_regularFiles_iff.mp ⟨[content id], regularFiles_directory id⟩⟩
  files := Tables.hasNul_standard

variable {id}

theorem recordedAlone (hform : IsFormOf bits id)
    (h : recordsOf (content id) = [.task (some id) (some "Open the vault")]) :
    RecordedAlone (Tables.filings (tree id) .standard .tasks) bits id "Open the vault" := by
  have hsources : (tree id).sourcesIn directory = [content id] := by
    unfold FileTree.sourcesIn
    rw [if_pos (isDirectory id), regularFiles_directory]
    rfl
  have hfilings : Tables.filings (tree id) .standard .tasks =
      [(some id, some "Open the vault")] := by
    show (((tree id).sourcesIn directory).map recordsOf).flatten.filterMap _ = _
    rw [hsources]
    show ([recordsOf (content id)].flatten).filterMap _ = _
    rw [h]
    rfl
  refine ⟨hform, hfilings ▸ List.mem_singleton_self _, fun other otherName _ hother => ?_⟩
  rw [hfilings, List.mem_singleton] at hother
  cases hother
  exact ⟨rfl, rfl⟩

end Tree

end RecordedVault

open RecordedVault in
theorem recordedVault_label_of_recorded :
    RecordedAlone (Tables.filings (tree "18446744073709551611") .standard .tasks) bits
        "18446744073709551611" "Open the vault" ∧
      IsFormOf bits "-5" ∧
      ∃ tables, Loading.Gives (Tables.load (tree "18446744073709551611") .standard) tables ∧
        Text.hasWord (resolveLabel .standard tables defaultMaxLength (some kind) none inputs).value
          "Open the vault" = true := by
  obtain ⟨tables, hload⟩ :=
    Tables.exists_gives_load_iff.mpr (loadable "18446744073709551611")
  have hrecord := recordedAlone isFormOf_unsigned recordsOf_unsigned
  obtain ⟨-, front, back, hsplit, -, hword⟩ := label_of_recorded hload hrecord get?_kind looks
    get?_inputs isFormOf_signed none
  have hfront : front = [.text "TASK "] := by
    cases front with
    | nil => cases hsplit
    | cons first more =>
      cases more with
      | nil => exact congrArg (fun piece => [piece]) (List.cons.inj hsplit).1.symm
      | cons second more => simp [rule] at hsplit
  refine ⟨hrecord, isFormOf_signed, tables, hload, hword (by decide) defaultMaxLength ?_⟩
  rw [hfront]
  show ((String.join ["TASK "]).length + "Open the vault".length : Nat) ≤ defaultMaxLength
  decide

open RecordedVault in
/-- A record with the signed form of its id is not found, not even from this form, however long the
label may be. -/
theorem not_forall_label_of_recorded :
    ¬ ∀ (tree : FileTree) (settings : Settings) (tables : Tables) (table : TableKind)
        (bits : BitVec 64) (id name kind : String) (rule : LabelRule) (form : IdForm)
        (key : String) (inputs : Attributes) (nodeId : String) (nodeName : Option String),
      Loading.Gives (Tables.load tree settings) tables →
        RecordedAlone (Tables.filings tree settings table) bits id name →
          Rulebook.standard.get? kind = some rule → .lookup table form key ∈ rule.pieces →
            inputs.get? key = some nodeId → IsFormOf bits nodeId →
              ∃ maxLength, Text.hasWord
                (resolveLabel .standard tables maxLength (some kind) nodeName inputs).value
                name = true := by
  intro hall
  obtain ⟨tables, hload⟩ := Tables.exists_gives_load_iff.mpr (loadable "-5")
  have hrecord := recordedAlone isFormOf_signed recordsOf_signed
  obtain ⟨maxLength, hword⟩ := hall (tree "-5") .standard tables .tasks bits "-5" "Open the vault"
    kind rule .unsigned "task_task" inputs "-5" none hload hrecord get?_kind looks get?_inputs
    isFormOf_signed
  have heval : Piece.eval tables none inputs Rulebook.task = some "18446744073709551611" :=
    eval_of_recorded hload hrecord get?_kind looks get?_inputs isFormOf_signed none
  have hdraft : draftLabel .standard tables (some kind) none inputs =
      "TASK 18446744073709551611" := by
    rw [draftLabel_of_get? get?_kind]
    show String.join ["TASK ", (Piece.eval tables none inputs Rulebook.task).getD missingMark] = _
    rw [heval]
    rfl
  have hcomplete : isIncomplete (draftLabel .standard tables (some kind) none inputs) = false := by
    rw [hdraft]
    decide
  rw [resolveLabel_of_complete maxLength hcomplete, hdraft] at hword
  have hdraftWord := Text.hasWord_of_hasWord_cut hword
  revert hdraftWord
  decide

end FlowAtlas
