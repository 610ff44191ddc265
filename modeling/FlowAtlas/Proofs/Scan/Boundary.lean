import FlowAtlas.Proofs.Scan.EntityName
import FlowAtlas.Proofs.Scan.ReadBack
import FlowAtlas.Proofs.Scan.WellFormed

/-!
# What crosses the end of a scope

A closed scope stays what it is, whatever lines follow.  Right behind a line that closes a scope,
nothing is left of this scope but its entity, which is the current one.  So the lines that follow
give the scopes that they would give behind a line that does nothing but declare this entity.

Main facts: `Scan.steps_readLine` (a line closes one scope or none), `readAll_between` (what is read
between two scopes) and `closedScopes_append`.
-/

namespace FlowAtlas

open Scan (readAll readAll_append readAll_cons)

/-- The scopes that lines close. -/
def closedScopes (lines : List String) : List Scope :=
  (assembleScopes lines).value.filter fun scope => !scope.trailing

/-- A line closes a scope behind others if with it there are other closed scopes than before. -/
def Closes (front : List String) (line : String) : Prop :=
  closedScopes (front ++ [line]) ≠ closedScopes front

instance (front : List String) (line : String) : Decidable (Closes front line) :=
  inferInstanceAs (Decidable (closedScopes (front ++ [line]) ≠ closedScopes front))

/-- The line that declares an entity and does nothing else. -/
def entityLine (name : String) : String := "<Entity Name=\"" ++ name ++ "\">"

/-! ## One line -/

namespace Scan

/-- A scan between two scopes: nothing is open, and the current entity has a name. -/
def between (name : String) (finished : List Scope) : Scan :=
  ⟨⟨some name, finished, .empty, []⟩, none⟩

/-- What a line can do: keep the finished scopes, or finish one and leave only its entity. -/
inductive Steps (s s' : Scan) : Prop
  | keeps (hkeeps : s'.assembly.finished = s.assembly.finished)
  | closes {scope : Scope} {name : String} (hclosed : scope.IsClosed)
      (hname : scope.entity = some name)
      (hbetween : s' = between name (s.assembly.finished ++ [scope]))

theorem finished_enter (a : Assembly) (line : String) : (enter a line).finished = a.finished := by
  unfold enter
  split <;> rfl

theorem finished_recordNode (a : Assembly) (line : String) (inputs : Attributes) :
    (recordNode a line inputs).value.finished = a.finished := by
  rw [Transcript.value_recordNode]
  split <;> rfl

theorem steps_closeScope (a : Assembly) : Steps ⟨a, none⟩ ⟨(closeScope a).value, none⟩ := by
  rw [Transcript.value_closeScope]
  by_cases hnamed : Transcript.isNamed a.entity = true
  · obtain ⟨name, hentity, hne⟩ := Transcript.exists_name_of_isNamed hnamed
    have hclosed : Scope.IsClosed ⟨some name, a.nodes, a.edges, false⟩ := ⟨rfl, name, rfl, hne⟩
    rw [if_pos hnamed]
    refine .closes hclosed rfl ?_
    simp only [between, Assembly.conclude, hentity]
  · rw [if_neg hnamed]
    exact .keeps rfl

/-- **A line closes one scope or none**; closing one leaves nothing open. -/
theorem steps_readLine (s : Scan) (line : String) : Steps s (Transcript.readLine s line) := by
  obtain ⟨a, pending⟩ := s
  have henter := finished_enter a line
  cases pending with
  | some record => exact .keeps (finished_recordNode a record _)
  | none =>
    unfold Transcript.readLine Scan.readLine
    dsimp only
    split
    · split
      · exact .keeps ((finished_recordNode _ line _).trans henter)
      · exact .keeps henter
    · split
      · exact .keeps henter
      · split
        · cases steps_closeScope (enter a line) with
          | keeps hkeeps => exact .keeps (hkeeps.trans henter)
          | closes hclosed hname hbetween =>
            dsimp only at hbetween
            rw [henter] at hbetween
            exact .closes hclosed hname hbetween
        · exact .keeps henter

/-! ## All lines -/

theorem Steps.finished_isPrefix {s s' : Scan} (h : Steps s s') :
    s.assembly.finished <+: s'.assembly.finished := by
  cases h with
  | keeps hkeeps => exact hkeeps ▸ List.prefix_rfl
  | closes _ _ hbetween => exact hbetween ▸ List.prefix_append _ _

/-- What is finished stays finished, whatever lines follow. -/
theorem finished_readAll_isPrefix (s : Scan) (lines : List String) :
    s.assembly.finished <+: (s.readAll lines).assembly.finished := by
  induction lines generalizing s with
  | nil => exact List.prefix_rfl
  | cons line lines ih =>
    rw [readAll_cons]
    exact (steps_readLine s _).finished_isPrefix.trans (ih _)

/-- The end of the lines finishes one more scope, the trailing one. -/
theorem finished_finish (s : Scan) :
    ∃ last, s.finish.value.finished = s.assembly.finished ++ [last] ∧ last.trailing = true := by
  obtain ⟨a, pending⟩ := s
  cases pending with
  | none => exact ⟨_, rfl, rfl⟩
  | some record =>
    have hrecord := finished_recordNode a record .empty
    exact ⟨_, congrArg (· ++ [_]) hrecord, rfl⟩

/-- **Between two scopes, what is finished does not matter to what is read.** -/
theorem readAll_between (name : String) (finished : List Scope) (lines : List String) :
    ((between name finished).readAll lines).finish.value.finished =
      finished ++ ((between name []).readAll lines).finish.value.finished := by
  have hafter : (between name finished).assembly =
      Transcript.after finished (between name []).assembly := by
    simp [between, Transcript.after]
  have hshift : ∀ a : Assembly,
      (Transcript.after finished a).finish.finished = finished ++ a.finish.finished := by
    intro a
    simp [Transcript.after, Assembly.finish, Assembly.conclude]
  have hread : ∀ a : Assembly, (readAll ⟨a, none⟩ lines).finish.value =
      ((Transcript.entries (lines.map Text.withoutLineEnd)).foldl Transcript.readEntry a).finish :=
    fun a => Transcript.value_finish_foldl_readLine _ a
  show (readAll ⟨(between name finished).assembly, none⟩ lines).finish.value.finished = _
  rw [hafter, hread, Transcript.foldl_readEntry_after, hshift, ← hread]
  rfl

theorem isTag_entityLine (name : String) :
    IsTag .entity [("name", name)] false (entityLine name) := by
  have hopening : "<Entity Name=\"".toList =
      '<' :: ("Entity ".toList ++ ("Name".toList ++ ['=', '"'])) := by decide
  have hend : "\">".toList = '"' :: ">".toList := by decide
  have hkey : "Name".toList.map Char.toLower = "name".toList := by decide
  have hspells : Markup.Spells [("name", name)]
      ([] ++ ("Name".toList ++ '=' :: '"' :: (name.toList ++ '"' :: []))) :=
    .cons (List.forall_mem_nil _) hkey (.nil (List.forall_mem_nil _))
  refine ⟨_, hspells, [], [], List.forall_mem_nil _, List.forall_mem_nil _, ?_⟩
  unfold entityLine Mark.opening tagEnd
  rw [String.toList_append, String.toList_append, hopening, hend, if_neg Bool.false_ne_true]
  simp only [List.nil_append, List.append_nil, List.cons_append, List.append_assoc]

/-- The line of an entity leads between two scopes if none is finished. -/
theorem readLine_entityLine {name : String} (hname : Markup.IsValue name) :
    Transcript.readLine start (Text.withoutLineEnd (entityLine name)) = between name [] := by
  have hline := isTag_entityLine name
  have hspellable : Markup.Spellable [("name", name)] := by
    intro pair hpair
    rw [List.mem_singleton.mp hpair]
    exact ⟨(by decide : Markup.IsKey "name"), hname⟩
  unfold start
  rw [Transcript.readLine_entity (hline.shows hspellable), hline.attributes_eq hspellable]
  rfl

end Scan

/-! ## Closed scopes of more lines -/

/-- The closed scopes are what is finished before the lines end. -/
theorem closedScopes_eq (lines : List String) :
    closedScopes lines = (readAll Scan.start lines).assembly.finished := by
  obtain ⟨last, hfinish, hlast⟩ := Scan.finished_finish (readAll Scan.start lines)
  obtain ⟨closed, trailing, hscopes, hclosed, -⟩ := exists_closed_trailing lines
  have hboth := (value_assembleScopes_eq_readAll lines).symm.trans hscopes
  rw [hfinish] at hboth
  obtain ⟨hfinished, -⟩ := List.append_inj' hboth rfl
  have hkeep : ∀ scope ∈ closed, (!scope.trailing) = true :=
    fun scope hscope => by simp [(hclosed scope hscope).trailing]
  unfold closedScopes
  rw [value_assembleScopes_eq_readAll, hfinish, hfinished, List.filter_append,
    List.filter_eq_self.mpr hkeep]
  simp [hlast]

theorem closedScopes_isPrefix (front back : List String) :
    closedScopes front <+: closedScopes (front ++ back) := by
  rw [closedScopes_eq, closedScopes_eq, readAll_append]
  exact Scan.finished_readAll_isPrefix _ back

/-- A line that closes a scope leads between two scopes. -/
theorem Closes.readAll_eq {front : List String} {line : String} (h : Closes front line) :
    ∃ scope name, closedScopes (front ++ [line]) = closedScopes front ++ [scope] ∧
      scope.entity = some name ∧
      readAll Scan.start (front ++ [line]) = .between name (closedScopes (front ++ [line])) := by
  unfold Closes at h
  rw [closedScopes_eq, closedScopes_eq, readAll_append, readAll_cons] at h
  rw [closedScopes_eq, closedScopes_eq, readAll_append, readAll_cons]
  cases Scan.steps_readLine (readAll Scan.start front) (Text.withoutLineEnd line) with
  | keeps hkeeps => exact absurd hkeeps h
  | @closes scope name hclosed hname hbetween =>
    rw [hbetween]
    exact ⟨scope, name, rfl, hname, rfl⟩

/-- The scopes behind a line that closes one are those behind the line of its entity. -/
theorem value_assembleScopes_entityLine {name : String} (hname : Markup.IsValue name)
    (lines : List String) :
    (assembleScopes (entityLine name :: lines)).value =
      ((Scan.between name []).readAll lines).finish.value.finished := by
  rw [value_assembleScopes_eq_readAll, readAll_cons, Scan.readLine_entityLine hname]

/-- The entity of a closed scope is an attribute value. -/
theorem isValue_of_mem_closedScopes {lines : List String} {scope : Scope}
    (h : scope ∈ closedScopes lines) {name : String} (hname : scope.entity = some name) :
    Markup.IsValue name :=
  (wellFormed_of_mem_assembleScopes (List.mem_filter.mp h).1).entity name hname

/-- **Only the name of the entity crosses the end of a scope.**  Closed scopes stay what they are,
whatever lines follow.  If the last line closes a scope, then the lines that follow give, behind
the closed scopes, what they give behind a line that declares the entity of this scope. -/
theorem closedScopes_append (front back : List String) :
    closedScopes front <+: closedScopes (front ++ back) ∧
      ∀ init line, front = init ++ [line] → Closes init line →
        ∃ scope name, closedScopes front = closedScopes init ++ [scope] ∧
          scope.entity = some name ∧
          (assembleScopes (front ++ back)).value =
            closedScopes front ++ (assembleScopes (entityLine name :: back)).value := by
  refine ⟨closedScopes_isPrefix front back, ?_⟩
  rintro init line rfl hcloses
  obtain ⟨scope, name, hclosed, hname, hread⟩ := hcloses.readAll_eq
  have hmem : scope ∈ closedScopes (init ++ [line]) := by
    rw [hclosed]
    exact List.mem_append_right _ (List.mem_singleton_self scope)
  have hvalue : Markup.IsValue name := isValue_of_mem_closedScopes hmem hname
  refine ⟨scope, name, hclosed, hname, ?_⟩
  rw [value_assembleScopes_eq_readAll, readAll_append, hread, Scan.readAll_between,
    value_assembleScopes_entityLine hvalue]

/-! ## A closing mark that is swallowed -/

namespace Swallowed

/-- A node record that takes the first closing mark as its continuation. -/
def front : List String := ["<Entity Name=\"Door\">", "<Node Id=\"1\">", "</FlowGraph>"]

/-- A node of the next scope, which has no entity of its own. -/
def back : List String := ["<Node Id=\"2\"/>"]

theorem closes : Closes front "</FlowGraph>" := by decide +kernel

end Swallowed

open Swallowed in
theorem swallowed_closedScopes_append :
    Closes front "</FlowGraph>" ∧
      ∃ scope name, closedScopes (front ++ ["</FlowGraph>"]) = closedScopes front ++ [scope] ∧
        scope.entity = some name ∧
        (assembleScopes (front ++ ["</FlowGraph>"] ++ back)).value =
          closedScopes (front ++ ["</FlowGraph>"]) ++
            (assembleScopes (entityLine name :: back)).value :=
  ⟨closes, (closedScopes_append _ back).2 front "</FlowGraph>" rfl closes⟩

end FlowAtlas
