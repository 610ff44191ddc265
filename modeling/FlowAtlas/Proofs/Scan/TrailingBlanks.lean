import FlowAtlas.Proofs.Markup.Quotes
import FlowAtlas.Proofs.Scan.Boundary

/-!
# Blanks behind a node record

A node record without continuation ends in `/>`, and this is looked for at the very end of its
line.  Blanks behind it change neither the marks of the line nor its attributes, but the record no
longer ends there: it takes the next line, which is then read for inputs and for nothing else.

Main facts: `Scan.IsTail.readLine_append` (what stands behind a node record says only whether it
ends there), `Transcript.alike_readLine_iff` (when the next line makes no difference) and
`blanks_behind_node`.
-/

namespace FlowAtlas

/-! ## Tails of a node record -/

namespace Scan

/-- What can stand at the end of a node record: it begins with a character of the tag's end and has
no further mark and no quote. -/
structure IsTail (tail : String) : Prop where
  head : tail.toList.head? = some '/' ∨ tail.toList.head? = some '>'
  last : ∀ c ∈ tail.toList.getLast?, Text.isLineEnd c = false
  mark : '<' ∉ tail.toList
  quote : '"' ∉ tail.toList

/-- An assembly behind a node record with the given inputs. -/
def recorded (a : Assembly) (line : String) (inputs : Attributes) : Assembly :=
  (recordNode (enter a line) line inputs).value

namespace IsTail

variable {tail : String} (htail : IsTail tail) (stem : String)
include htail

theorem withoutLineEnd_append : Text.withoutLineEnd (stem ++ tail) = stem ++ tail := by
  apply Text.withoutLineEnd_eq_self
  intro c hc
  rw [String.toList_append, List.getLast?_append] at hc
  cases hlast : tail.toList.getLast? with
  | some last =>
    rw [hlast] at hc
    exact Option.some.inj hc ▸ htail.last last hlast
  | none =>
    have hhead := htail.head
    rw [List.getLast?_eq_none_iff.mp hlast] at hhead
    simp at hhead

theorem hasWord_append {word : String} (hmark : '<' ∈ word.toList) (hslash : '/' ∉ word.toList)
    (hend : '>' ∉ word.toList) : Text.hasWord (stem ++ tail) word = Text.hasWord stem word := by
  rcases htail.head with hhead | hhead
  · exact Text.hasWord_append_of_not_mem hhead hslash hmark htail.mark stem
  · exact Text.hasWord_append_of_not_mem hhead hend hmark htail.mark stem

theorem attributes_append : Markup.attributes (stem ++ tail) = Markup.attributes stem :=
  Markup.attributes_append_of_quote_not_mem htail.quote stem

theorem enter_append (a : Assembly) : enter a (stem ++ tail) = enter a stem := by
  unfold enter
  rw [htail.hasWord_append stem (by decide) (by decide) (by decide), htail.attributes_append]

theorem inputsOf_append : inputsOf (stem ++ tail) = inputsOf stem := by
  unfold inputsOf
  rw [htail.hasWord_append stem (by decide) (by decide) (by decide), htail.attributes_append]

theorem value_recordNode_append (a : Assembly) (inputs : Attributes) :
    (recordNode a (stem ++ tail) inputs).value = (recordNode a stem inputs).value := by
  rw [Transcript.value_recordNode, Transcript.value_recordNode, htail.attributes_append]

/-- **A tail says only whether the record ends in it.** -/
theorem readLine_append {stem : String} (hnode : Text.hasWord stem nodeMarker = true)
    (a : Assembly) :
    Transcript.readLine ⟨a, none⟩ (stem ++ tail) =
      if Text.endsIn (stem ++ tail) selfClosing then ⟨recorded a stem .empty, none⟩
      else ⟨enter a stem, some (stem ++ tail)⟩ := by
  have hword : Text.hasWord (stem ++ tail) nodeMarker = true := by
    rw [htail.hasWord_append stem (by decide) (by decide) (by decide), hnode]
  unfold Transcript.readLine Scan.readLine recorded
  rw [htail.enter_append]
  dsimp only
  rw [if_pos hword]
  split
  · rw [Logged.value_bind, htail.value_recordNode_append]
    rfl
  · rfl

/-- A continuation is read the same without its tail. -/
theorem readLine_continuation (a : Assembly) (record : String) :
    Transcript.readLine ⟨a, some record⟩ (stem ++ tail) =
      Transcript.readLine ⟨a, some record⟩ stem := by
  unfold Transcript.readLine Scan.readLine
  dsimp only
  rw [htail.inputsOf_append]

/-- A record that does not end in its tail is made with the next line. -/
theorem readLine_next (a : Assembly) (next : String) :
    Transcript.readLine ⟨enter a stem, some (stem ++ tail)⟩ next =
      ⟨recorded a stem (inputsOf next), none⟩ := by
  unfold Transcript.readLine Scan.readLine recorded
  dsimp only
  rw [Logged.value_bind, htail.value_recordNode_append]
  rfl

/-- At the end of the lines a record that does not end in its tail has no inputs. -/
theorem value_finish (a : Assembly) :
    (Scan.finish ⟨enter a stem, some (stem ++ tail)⟩).value = (recorded a stem .empty).finish := by
  unfold Scan.finish recorded
  dsimp only
  rw [Logged.value_bind, htail.value_recordNode_append]
  rfl

end IsTail

/-! ## Scans that no lines tell apart -/

/-- Whatever lines follow, two scans give the same scopes. -/
def Alike (s s' : Scan) : Prop :=
  ∀ lines, (s.readAll lines).finish.value.finished = (s'.readAll lines).finish.value.finished

theorem finish_inj {a b : Assembly} (h : a.finish.finished = b.finish.finished) : a = b := by
  obtain ⟨hfinished, hlast⟩ := List.append_inj' h rfl
  cases a
  cases b
  cases hfinished
  cases hlast
  rfl

theorem alike_iff {a b : Assembly} : Alike ⟨a, none⟩ ⟨b, none⟩ ↔ a = b := by
  constructor
  · intro h
    exact finish_inj (h [])
  · rintro rfl lines
    rfl

/-- An edge record without attributes. -/
def bareEdge : String := "<Edge />"

theorem shows_bareEdge : Shows .edge bareEdge := by
  intro mark
  cases mark <;> decide

/-- An open record shows at an edge, which it takes for its continuation. -/
theorem not_alike_open (a b : Assembly) (record : String) :
    ¬ Alike ⟨a, none⟩ ⟨b, some record⟩ := by
  intro h
  have hend : a = (recordNode b record .empty).value := finish_inj (h [])
  have hline : Text.withoutLineEnd bareEdge = bareEdge := by decide
  have hinputs : inputsOf bareEdge = .empty := if_neg (by decide)
  have hleft : readAll ⟨a, none⟩ [bareEdge] =
      ⟨a.addEdge (.ofAttributes (Markup.attributes bareEdge)), none⟩ := by
    rw [readAll_cons, hline, Transcript.readLine_edge shows_bareEdge]
    rfl
  have hright : readAll ⟨b, some record⟩ [bareEdge] = ⟨a, none⟩ := by
    rw [readAll_cons, hline, hend, ← hinputs]
    rfl
  have hedge := h [bareEdge]
  rw [hleft, hright] at hedge
  have hedges := congrArg (fun c => c.edges.length) (finish_inj hedge)
  simp [Assembly.addEdge] at hedges

/-! ## What the next line leaves -/

theorem get?_recorded {a : Assembly} {line : String} {inputs : Attributes} {id : String}
    (hid : (Markup.attributes line).get? "id" = some id) :
    (recorded a line inputs).nodes.get? (some id) =
      some (Node.ofAttributes (Markup.attributes line) inputs).value := by
  have hne : (Markup.attributes line).get? "id" ≠ none := by
    rw [hid]
    exact Option.some_ne_none id
  unfold recorded
  rw [Transcript.value_recordNode, if_neg hne, hid]
  simp

theorem recorded_of_noId {a : Assembly} {line : String}
    (hid : (Markup.attributes line).get? "id" = none) (inputs : Attributes) :
    recorded a line inputs = enter a line := by
  unfold recorded
  rw [Transcript.value_recordNode, if_pos hid]

end Scan

namespace Transcript

open Scan

theorem nodes_enter (a : Assembly) (line : String) : (enter a line).nodes = a.nodes := by
  unfold enter
  split <;> rfl

/-- A node that is open behind an entry was open before it or is the entry's own. -/
theorem inputs_of_get?_readEntry {a : Assembly} {e : Entry} {id : Option String} {node : Node}
    (h : (readEntry a e).nodes.get? id = some node) :
    a.nodes.get? id = some node ∨ node.inputs = e.inputs := by
  unfold readEntry at h
  dsimp only at h
  split at h
  · rw [value_recordNode, nodes_enter] at h
    split at h
    · rw [nodes_enter] at h
      exact Or.inl h
    · dsimp only at h
      rw [OrderedMap.get?_insert] at h
      split at h
      · cases h
        exact Or.inr rfl
      · exact Or.inl h
  · split at h
    · exact Or.inl (nodes_enter a e.line ▸ h)
    · split at h
      · rw [value_closeScope] at h
        split at h
        · exact absurd h (by simp [Assembly.conclude])
        · exact Or.inl (nodes_enter a e.line ▸ h)
      · exact Or.inl (nodes_enter a e.line ▸ h)

theorem recorded_of_givesNone {a : Assembly} {line : String} {inputs : Attributes}
    (h : (Markup.attributes line).get? "id" = none ∨ inputs = .empty) :
    recorded a line inputs = recorded a line .empty := by
  rcases h with hid | hinputs
  · rw [recorded_of_noId hid, recorded_of_noId hid]
  · rw [hinputs]

/-- **When the next line makes no difference.**  A node record without inputs and then the next line
leave what the record with the inputs of the next line leaves: the next line does nothing behind the
record, and it gives no inputs or no node is there to have them. -/
theorem alike_readLine_iff {a : Assembly} {line next : String} :
    Alike ⟨recorded a line (inputsOf next), none⟩ (readLine ⟨recorded a line .empty, none⟩ next) ↔
      Alike (readLine ⟨recorded a line .empty, none⟩ next) ⟨recorded a line .empty, none⟩ ∧
        ((Markup.attributes line).get? "id" = none ∨ inputsOf next = .empty) := by
  cases hnext : takesNext next with
  | true =>
    rw [readLine_of_takesNext hnext]
    refine ⟨fun h => absurd h (not_alike_open _ _ _), fun h => ?_⟩
    exact absurd (fun lines => (h.1 lines).symm) (not_alike_open _ _ _)
  | false =>
    rw [readLine_of_not_takesNext hnext, alike_iff, alike_iff]
    constructor
    · intro h
      have hlone : (Markup.attributes line).get? "id" = none ∨ inputsOf next = .empty := by
        cases hid : (Markup.attributes line).get? "id" with
        | none => exact Or.inl rfl
        | some id =>
          have hnode : (recorded a line (inputsOf next)).nodes.get? (some id) =
              some (Node.ofAttributes (Markup.attributes line) (inputsOf next)).value :=
            get?_recorded hid
          rw [h] at hnode
          rcases inputs_of_get?_readEntry hnode with hold | hinputs
          · rw [get?_recorded hid] at hold
            exact Or.inr (congrArg Node.inputs (Option.some.inj hold)).symm
          · exact Or.inr hinputs
      exact ⟨by rw [← h, recorded_of_givesNone hlone], hlone⟩
    · rintro ⟨hidle, hlone⟩
      rw [recorded_of_givesNone hlone, hidle]

end Transcript

/-! ## Node records with blanks behind them -/

namespace Scan

theorem isTail_selfClosing : IsTail selfClosing := by
  refine ⟨by decide, fun c hc => ?_, by decide, by decide⟩
  obtain rfl : '>' = c := Option.some.inj hc
  rfl

theorem isTail_open : IsTail ">" := by
  refine ⟨by decide, fun c hc => ?_, by decide, by decide⟩
  obtain rfl : '>' = c := Option.some.inj hc
  rfl

section Blanks

variable {blanks : String} (hblanks : ∀ c ∈ blanks.toList, c = ' ' ∨ c = '\t')
include hblanks

theorem isTail_blanks : IsTail (selfClosing ++ blanks) := by
  have hmem : ∀ c ∈ (selfClosing ++ blanks).toList, c = '/' ∨ c = '>' ∨ c = ' ' ∨ c = '\t' := by
    intro c hc
    rw [String.toList_append, List.mem_append] at hc
    rcases hc with hc | hc
    · have hend : c = '/' ∨ c = '>' := by simpa [selfClosing] using hc
      exact hend.elim Or.inl fun h => Or.inr (Or.inl h)
    · exact Or.inr (Or.inr (hblanks c hc))
  refine ⟨Or.inl (by rw [String.toList_append]; rfl), fun c hc => ?_, fun hc => ?_, fun hc => ?_⟩
  · rcases hmem c (List.mem_of_getLast? hc) with rfl | rfl | rfl | rfl <;> decide
  · exact absurd (hmem _ hc) (by decide)
  · exact absurd (hmem _ hc) (by decide)

/-- With blanks behind it, a record does not end in what ends it. -/
theorem endsIn_append_blanks (hne : blanks ≠ "") (stem : String) :
    Text.endsIn (stem ++ (selfClosing ++ blanks)) selfClosing = false := by
  obtain ⟨front, last, hlast⟩ :=
    (List.eq_nil_or_concat blanks.toList).resolve_left fun h => hne (String.toList_eq_nil_iff.mp h)
  have hblank := hblanks last (by simp [hlast])
  unfold Text.endsIn
  rw [Bool.eq_false_iff, ne_eq, List.isSuffixOf_iff_suffix]
  rintro ⟨before, hbefore⟩
  have hends : before ++ ['/'] ++ ['>'] =
      stem.toList ++ (selfClosing.toList ++ front) ++ [last] := by
    simpa [selfClosing, hlast] using hbefore
  have hsame : '>' = last := by simpa using (List.append_inj' hends rfl).2
  rw [← hsame] at hblank
  exact absurd hblank (by decide)

end Blanks

/-- The open form of a record ends in `/>` only if the record has one more slash. -/
theorem endsIn_open (stem : String) :
    Text.endsIn (stem ++ ">") selfClosing = Text.endsIn stem "/" := by
  unfold Text.endsIn
  rw [Bool.eq_iff_iff, List.isSuffixOf_iff_suffix, List.isSuffixOf_iff_suffix]
  constructor
  · rintro ⟨before, hbefore⟩
    have hends : before ++ ['/'] ++ ['>'] = stem.toList ++ ['>'] := by
      simpa [selfClosing] using hbefore
    exact ⟨before, List.append_cancel_right hends⟩
  · rintro ⟨before, hbefore⟩
    refine ⟨before, ?_⟩
    rw [String.toList_append, ← hbefore, List.append_assoc]
    rfl

end Scan

/-- The last of the lines is a node record that takes the next line. -/
def EndsOpen (lines : List String) : Prop :=
  (Scan.readAll Scan.start lines).open?.isSome = true

instance (lines : List String) : Decidable (EndsOpen lines) :=
  inferInstanceAs (Decidable (_ = true))

/-- A node record has no inputs from the next line: this gives none, or the record has no id. -/
def GivesNone (line next : String) : Prop :=
  (Markup.attributes line).get? "id" = none ∨ Scan.inputsOf (Text.withoutLineEnd next) = .empty

/-! ### Reading on behind a node record -/

namespace Scan

section Behind

variable {front : List String} {a : Assembly} (hfront : readAll start front = ⟨a, none⟩)
  {stem tail : String} (hnode : Text.hasWord stem nodeMarker = true) (htail : IsTail tail)
include hfront hnode htail

/-- A record that ends in its tail is made without inputs. -/
theorem value_behind_closed (hend : Text.endsIn (stem ++ tail) selfClosing = true)
    (back : List String) :
    (assembleScopes (front ++ (stem ++ tail) :: back)).value =
      (readAll ⟨recorded a stem .empty, none⟩ back).finish.value.finished := by
  rw [value_assembleScopes_eq_readAll, readAll_append, hfront, readAll_cons,
    htail.withoutLineEnd_append, htail.readLine_append hnode, if_pos hend]

section Open

variable (hend : Text.endsIn (stem ++ tail) selfClosing = false)
include hend

theorem value_behind_open (back : List String) :
    (assembleScopes (front ++ (stem ++ tail) :: back)).value =
      (readAll ⟨enter a stem, some (stem ++ tail)⟩ back).finish.value.finished := by
  rw [value_assembleScopes_eq_readAll, readAll_append, hfront, readAll_cons,
    htail.withoutLineEnd_append, htail.readLine_append hnode, hend, if_neg Bool.false_ne_true]

/-- A record that does not end in its tail is made with the next line, if there is one. -/
theorem value_behind_open_cons (next : String) (rest : List String) :
    (assembleScopes (front ++ (stem ++ tail) :: next :: rest)).value =
      (readAll ⟨recorded a stem (inputsOf (Text.withoutLineEnd next)), none⟩
        rest).finish.value.finished := by
  rw [value_behind_open hfront hnode htail hend, readAll_cons, htail.readLine_next]

theorem value_behind_open_nil :
    (assembleScopes (front ++ [stem ++ tail])).value =
      (recorded a stem .empty).finish.finished := by
  rw [value_behind_open hfront hnode htail hend]
  show (Scan.finish ⟨enter a stem, some (stem ++ tail)⟩).value.finished = _
  rw [htail.value_finish]

end Open

end Behind

/-- A continuation is read the same with every tail. -/
theorem value_behind_continuation {front : List String} {a : Assembly} {record : String}
    (hfront : readAll start front = ⟨a, some record⟩) {tail other : String} (htail : IsTail tail)
    (hother : IsTail other) (stem : String) (back : List String) :
    (assembleScopes (front ++ (stem ++ tail) :: back)).value =
      (assembleScopes (front ++ (stem ++ other) :: back)).value := by
  rw [value_assembleScopes_eq_readAll, value_assembleScopes_eq_readAll, readAll_append,
    readAll_append, hfront, readAll_cons, readAll_cons, htail.withoutLineEnd_append,
    hother.withoutLineEnd_append, htail.readLine_continuation, hother.readLine_continuation]

end Scan

/-- A node record is read as one that does not end in its line: the next line is gone, up to the
inputs that it may give. -/
structure ReadsOpen (front : List String) (line blanked : String) : Prop where
  /-- It is what the record is with another end. -/
  opened : ∀ stem, line = stem ++ "/>" → Text.endsIn stem "/" = false → ∀ back,
    (assembleScopes (front ++ blanked :: back)).value =
      (assembleScopes (front ++ (stem ++ ">") :: back)).value
  lost : ∀ next, GivesNone line next → ∀ rest,
    (assembleScopes (front ++ blanked :: next :: rest)).value =
      (assembleScopes (front ++ line :: rest)).value
  /-- That makes no difference exactly if the next line could as well be left out. -/
  same_iff : ∀ next,
    (∀ rest, (assembleScopes (front ++ blanked :: next :: rest)).value =
      (assembleScopes (front ++ line :: next :: rest)).value) ↔
    (∀ rest, (assembleScopes (front ++ line :: next :: rest)).value =
      (assembleScopes (front ++ line :: rest)).value) ∧ GivesNone line next

section Blanked

open Scan Transcript

variable {stem blanks : String} (hnode : Text.hasWord stem nodeMarker = true)
  (hblanks : ∀ c ∈ blanks.toList, c = ' ' ∨ c = '\t') (hne : blanks ≠ "")
include hnode hblanks hne

theorem readsOpen_of_readAll {front : List String} {a : Assembly}
    (hfront : readAll start front = ⟨a, none⟩) :
    ReadsOpen front (stem ++ selfClosing) (stem ++ (selfClosing ++ blanks)) := by
  have hclosed : Text.endsIn (stem ++ selfClosing) selfClosing = true := by
    unfold Text.endsIn
    rw [List.isSuffixOf_iff_suffix, String.toList_append]
    exact List.suffix_append _ _
  have hblanked := value_behind_open_cons hfront hnode (isTail_blanks hblanks)
    (endsIn_append_blanks hblanks hne stem)
  have hline := value_behind_closed hfront hnode isTail_selfClosing hclosed
  have hattributes : Markup.attributes (stem ++ selfClosing) = Markup.attributes stem :=
    isTail_selfClosing.attributes_append stem
  refine ⟨?_, ?_, ?_⟩
  · intro other hother hslash back
    have hsame : stem = other := by
      rw [← String.toList_inj, String.toList_append, String.toList_append] at hother
      exact String.toList_inj.mp (List.append_cancel_right hother)
    rw [← hsame] at hslash ⊢
    have hend : Text.endsIn (stem ++ ">") selfClosing = false := (endsIn_open stem).trans hslash
    cases back with
    | nil =>
      rw [value_behind_open_nil hfront hnode isTail_open hend,
        value_behind_open_nil hfront hnode (isTail_blanks hblanks)
          (endsIn_append_blanks hblanks hne stem)]
    | cons next rest =>
      rw [hblanked, value_behind_open_cons hfront hnode isTail_open hend]
  · intro next hgives rest
    unfold GivesNone at hgives
    rw [hattributes] at hgives
    rw [hblanked, hline, recorded_of_givesNone hgives]
  · intro next
    unfold GivesNone
    simp only [hblanked, hline, hattributes, readAll_cons]
    exact alike_readLine_iff

end Blanked

/-- **Blanks behind a self-closing node record open it.**  A line that has the mark of a node and
ends in `/>` takes no other line.  With spaces or tabs behind it, it is read as if the slash were
not there: the next line is its continuation.  So all that this line would have recorded is lost,
and what follows is read one line out of step, unless it could as well be left out.  Nothing changes
if no line follows, and if the line is itself a continuation. -/
theorem blanks_behind_node {line blanks : String} (hnode : Text.hasWord line "<Node " = true)
    (hend : Text.endsIn line "/>" = true) (hblanks : ∀ c ∈ blanks.toList, c = ' ' ∨ c = '\t')
    (hne : blanks ≠ "") (front : List String) :
    (¬ EndsOpen front → ReadsOpen front line (line ++ blanks)) ∧
      (EndsOpen front → ∀ back, (assembleScopes (front ++ (line ++ blanks) :: back)).value =
        (assembleScopes (front ++ line :: back)).value) ∧
      (assembleScopes (front ++ [line ++ blanks])).value =
        (assembleScopes (front ++ [line])).value := by
  obtain ⟨chars, hchars⟩ := List.isSuffixOf_iff_suffix.mp hend
  obtain ⟨stem, rfl⟩ : ∃ stem, line = stem ++ Scan.selfClosing := by
    refine ⟨String.ofList chars, ?_⟩
    rw [← String.toList_inj, String.toList_append, String.toList_ofList, ← hchars]
    rfl
  have hstem : Text.hasWord stem Scan.nodeMarker = true := by
    rw [← hnode]
    exact (Scan.isTail_selfClosing.hasWord_append stem (by decide) (by decide) (by decide)).symm
  have hblanked := Scan.isTail_blanks hblanks
  rw [String.append_assoc]
  cases hfront : Scan.readAll Scan.start front with
  | mk a pending =>
    cases pending with
    | none =>
      have hclosed : ¬ EndsOpen front := by simp [EndsOpen, hfront]
      refine ⟨fun _ => readsOpen_of_readAll hstem hblanks hne hfront,
        fun hopen => absurd hopen hclosed, ?_⟩
      rw [Scan.value_behind_open_nil hfront hstem hblanked
          (Scan.endsIn_append_blanks hblanks hne stem),
        Scan.value_behind_closed hfront hstem Scan.isTail_selfClosing hend]
      rfl
    | some record =>
      have hopen : EndsOpen front := by simp [EndsOpen, hfront]
      have hsame : ∀ back, (assembleScopes (front ++ (stem ++ (Scan.selfClosing ++ blanks)) ::
          back)).value = (assembleScopes (front ++ (stem ++ Scan.selfClosing) :: back)).value :=
        Scan.value_behind_continuation hfront hblanked Scan.isTail_selfClosing stem
      exact ⟨fun hclosed => absurd hopen hclosed, fun _ => hsame, hsame []⟩

/-! ## A blank that costs a node -/

namespace TrailingBlank

/-- A node record that ends in its line. -/
def line : String := "<Node Id=\"1\" Class=\"Ark:EndGame\"/>"

/-- A node record behind it. -/
def next : String := "<Node Id=\"2\" Class=\"Ark:EndGame\"/>"

theorem hasWord_line : Text.hasWord line "<Node " = true := by decide

theorem endsIn_line : Text.endsIn line "/>" = true := by decide

theorem isBlank : ∀ c ∈ " ".toList, c = ' ' ∨ c = '\t' :=
  fun _ hc => Or.inl (List.mem_singleton.mp hc)

theorem not_endsOpen : ¬ EndsOpen [] := by decide

theorem givesNone : GivesNone line next := Or.inr (if_neg (by decide))

/-- The identifiers of all nodes that lines declare. -/
def ids (lines : List String) : List (Option String) :=
  (assembleScopes lines).value.flatMap fun scope => scope.nodes.keys

theorem ids_line_next : ids [line, next] = [some "1", some "2"] := by decide +kernel

theorem ids_blanked_next : ids [line ++ " ", next] = [some "1"] := by decide +kernel

end TrailingBlank

open TrailingBlank in
theorem trailingBlank_blanks_behind_node :
    Text.hasWord line "<Node " = true ∧ Text.endsIn line "/>" = true ∧
      (∀ c ∈ " ".toList, c = ' ' ∨ c = '\t') ∧ " " ≠ "" ∧ ¬ EndsOpen [] ∧
      GivesNone line next ∧
      (assembleScopes [line ++ " ", next]).value = (assembleScopes [line]).value :=
  ⟨hasWord_line, endsIn_line, isBlank, by decide, not_endsOpen, givesNone,
    ((blanks_behind_node hasWord_line endsIn_line isBlank (by decide) []).1 not_endsOpen).lost
      next givesNone []⟩

open TrailingBlank in
/-- Blanks behind a self-closing node record are not always without effect. -/
theorem not_forall_blanks_behind_node :
    ¬ ∀ (front back : List String) (line blanks : String), Text.hasWord line "<Node " = true →
      Text.endsIn line "/>" = true → (∀ c ∈ blanks.toList, c = ' ' ∨ c = '\t') →
        (assembleScopes (front ++ (line ++ blanks) :: back)).value =
          (assembleScopes (front ++ line :: back)).value := by
  intro h
  have hsame := h [] [next] line " " hasWord_line endsIn_line isBlank
  have hids : ids [line ++ " ", next] = ids [line, next] := by
    unfold ids
    exact congrArg _ hsame
  rw [ids_line_next, ids_blanked_next] at hids
  cases hids

end FlowAtlas
