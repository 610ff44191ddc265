import FlowAtlas.Proofs.Scan.Scopes

/-!
# How long an entity keeps its name

The current entity is the one that was declared last, so a name lasts until an entity is declared
without one.  As long as it lasts, every line that ends a flow graph closes a scope, and nothing but
the name goes on behind that line.  Once it is lost, such a line leaves the open scope as it is, and
what stands on both of its sides comes to one scope.

Main facts: `isNamed_run` (the name is that of the last declaration), `readEntry_of_ends` (what a
line that ends a flow graph does) and `name_kept_iff`.
-/

namespace FlowAtlas

namespace Transcript

deriving instance DecidableEq for Entry

/-! ## Declarations and ends -/

/-- Whether a line declares an entity. -/
def Entry.declares (e : Entry) : Bool := Text.hasWord e.line "<Entity"

/-- Whether a line declares an entity that has a name. -/
def Entry.names (e : Entry) : Bool :=
  e.declares && isNamed ((Markup.attributes e.line).get? "name")

/-- Whether a line ends a flow graph: it has the mark for this and is neither a node record nor an
edge record. -/
def Entry.ends (e : Entry) : Bool :=
  Text.hasWord e.line "</FlowGraph>" && !Text.hasWord e.line "<Node " &&
    !Text.hasWord e.line "<Edge "

/-- The last declaration among some lines. -/
def lastDeclaration (es : List Entry) : Option Entry := (es.filter Entry.declares).getLast?

theorem lastDeclaration_concat (es : List Entry) (e : Entry) :
    lastDeclaration (es ++ [e]) = if e.declares then some e else lastDeclaration es := by
  unfold lastDeclaration
  rw [List.filter_append]
  cases h : e.declares <;> simp [h]

/-! ## Runs over lines that count -/

/-- What the lines that count have been assembled to. -/
def run (es : List Entry) : Assembly := es.foldl readEntry .start

theorem run_concat (es : List Entry) (e : Entry) : run (es ++ [e]) = readEntry (run es) e := by
  simp [run, List.foldl_append]

/-- Reading a line changes the current entity by its declaration and in no other way. -/
theorem entity_readEntry (a : Assembly) (e : Entry) :
    (readEntry a e).entity = e.entity a.entity := by
  rw [readEntry, enter_eq, value_recordNode, value_closeScope]
  split_ifs <;> rfl

theorem isNamed_entity (before : Option String) (e : Entry) :
    isNamed (e.entity before) = if e.declares then e.names else isNamed before := by
  unfold Entry.names Entry.entity Entry.declares
  cases h : Text.hasWord e.line "<Entity" <;> simp

/-- **The current entity has a name exactly if the last declaration has one.** -/
theorem isNamed_run (es : List Entry) :
    isNamed (run es).entity = (lastDeclaration es).any Entry.names := by
  induction es using List.reverseRecOn with
  | nil => rfl
  | append_singleton es e ih =>
    rw [run_concat, entity_readEntry, isNamed_entity, lastDeclaration_concat, ih]
    split <;> rfl

theorem isNamed_run_concat {c : Entry} (h : c.declares = true) (es : List Entry) :
    isNamed (run (es ++ [c])).entity = c.names := by
  rw [run_concat, entity_readEntry, isNamed_entity, if_pos h]

theorem declares_of_names {e : Entry} (h : e.names = true) : e.declares = true := by
  unfold Entry.names at h
  rw [Bool.and_eq_true] at h
  exact h.1

/-- Behind a declaration with a name the name is kept as long as no declaration lacks one. -/
theorem isNamed_run_append {front later : List Entry} {e : Entry} (he : e.names = true)
    (h : ∀ c ∈ later, c.declares = true → c.names = true) :
    isNamed (run (front ++ e :: later)).entity = true := by
  induction later using List.reverseRecOn with
  | nil =>
    rw [isNamed_run_concat (declares_of_names he)]
    exact he
  | append_singleton later c ih =>
    have hearlier : isNamed (run (front ++ e :: later)).entity = true :=
      ih fun d hd => h d (List.mem_append_left _ hd)
    have happend : front ++ e :: (later ++ [c]) = front ++ e :: later ++ [c] := by simp
    rw [happend]
    cases hdeclares : c.declares with
    | true =>
      rw [isNamed_run_concat hdeclares]
      exact h c (by simp) hdeclares
    | false =>
      rw [run_concat, entity_readEntry, isNamed_entity, hdeclares]
      exact hearlier

/-! ## Lines that end a flow graph -/

/-- A line that ends a flow graph finishes what is open under the current name, if there is one. -/
theorem readEntry_of_ends {e : Entry} (he : e.ends = true) (a : Assembly) :
    readEntry a e =
      if isNamed (e.entity a.entity) then
        ⟨e.entity a.entity, a.finished ++ [⟨e.entity a.entity, a.nodes, a.edges, false⟩],
          .empty, []⟩
      else ⟨e.entity a.entity, a.finished, a.nodes, a.edges⟩ := by
  unfold Entry.ends at he
  simp only [Bool.and_eq_true, Bool.not_eq_true'] at he
  obtain ⟨⟨hclose, hnode⟩, hedge⟩ := he
  rw [readEntry, enter_eq, value_closeScope, Scan.nodeMarker, Scan.edgeMarker, Scan.closeMarker,
    hclose, hnode, hedge]
  rfl

/-- The same assembly with more scopes finished before. -/
def after (finished : List Scope) (a : Assembly) : Assembly :=
  { a with finished := finished ++ a.finished }

/-- What was finished before does not matter to what is read. -/
theorem readEntry_after (finished : List Scope) (a : Assembly) (e : Entry) :
    readEntry (after finished a) e = after finished (readEntry a e) := by
  unfold after
  rw [readEntry, readEntry, enter_eq, enter_eq, value_recordNode, value_recordNode,
    value_closeScope, value_closeScope]
  split_ifs <;> simp [Assembly.conclude, Assembly.addEdge]

theorem foldl_readEntry_after (finished : List Scope) (es : List Entry) (a : Assembly) :
    es.foldl readEntry (after finished a) = after finished (es.foldl readEntry a) := by
  induction es generalizing a with
  | nil => rfl
  | cons e es ih => rw [List.foldl_cons, List.foldl_cons, readEntry_after, ih]

/-- The scopes of the lines that count if an entity is current before the first of them. -/
def scopesFrom (entity : Option String) (es : List Entry) : List Scope :=
  (es.foldl readEntry ⟨entity, [], .empty, []⟩).finish.finished

theorem finished_finish_run (es : List Entry) : (run es).finish.finished = scopesFrom none es := rfl

/-- A line that closes a scope parts the lines: what is open before it is finished under the
current name, and the lines behind give the scopes that they would give by themselves under this
name. -/
structure Parts (front : List Entry) (e : Entry) (rest : List Entry) : Prop where
  finished : (run (front ++ [e])).finished =
    (run front).finished ++
      [⟨(run (front ++ [e])).entity, (run front).nodes, (run front).edges, false⟩]
  nodes : (run (front ++ [e])).nodes = .empty
  edges : (run (front ++ [e])).edges = []
  scopes : scopesFrom none (front ++ e :: rest) =
    (run (front ++ [e])).finished ++ scopesFrom (run (front ++ [e])).entity rest

/-- A line that closes no scope leaves what is finished and what is open as it is. -/
structure LeavesOpen (front : List Entry) (e : Entry) : Prop where
  finished : (run (front ++ [e])).finished = (run front).finished
  nodes : (run (front ++ [e])).nodes = (run front).nodes
  edges : (run (front ++ [e])).edges = (run front).edges

theorem parts_of_isNamed {front : List Entry} {e : Entry} (he : e.ends = true)
    (hnamed : isNamed (run (front ++ [e])).entity = true) (rest : List Entry) :
    Parts front e rest := by
  have hrun := run_concat front e
  rw [run_concat, entity_readEntry] at hnamed
  rw [readEntry_of_ends he, if_pos hnamed] at hrun
  refine ⟨by rw [hrun], by rw [hrun], by rw [hrun], ?_⟩
  have hfront : front ++ e :: rest = (front ++ [e]) ++ rest := by simp
  rw [← finished_finish_run, run, hfront, List.foldl_append]
  change (rest.foldl readEntry (run (front ++ [e]))).finish.finished = _
  have hafter : run (front ++ [e]) =
      after (run (front ++ [e])).finished ⟨(run (front ++ [e])).entity, [], .empty, []⟩ := by
    rw [hrun]
    simp [after]
  rw [hafter, foldl_readEntry_after]
  simp [after, scopesFrom, Assembly.finish, Assembly.conclude]

theorem leavesOpen_of_not_isNamed {front : List Entry} {e : Entry} (he : e.ends = true)
    (hnamed : isNamed (run (front ++ [e])).entity = false) : LeavesOpen front e := by
  have hrun := run_concat front e
  rw [run_concat, entity_readEntry] at hnamed
  rw [readEntry_of_ends he, hnamed] at hrun
  exact ⟨by rw [hrun]; rfl, by rw [hrun]; rfl, by rw [hrun]; rfl⟩

theorem value_assembleScopes_eq_scopesFrom (lines : List String) :
    (assembleScopes lines).value = scopesFrom none (entries (lines.map Text.withoutLineEnd)) := by
  rw [value_assembleScopes, ofLines, ← finished_foldl_readEntry]
  rfl

end Transcript

open Transcript in
/-- **A name is kept until an entity is declared without one.**  Let a line that counts declare an
entity with a name.  The current entity has a name at every later line exactly if no later line
declares an entity without one; then every later line that ends a flow graph closes a scope, which
parts what stands before it from what stands behind.  In any case such a line closes a scope
exactly if the last declaration up to it has a name, and leaves the open scope as it is otherwise.
-/
theorem name_kept_iff {lines : List String} {front back : List Transcript.Entry}
    {e : Transcript.Entry}
    (hlines : entries (lines.map Text.withoutLineEnd) = front ++ e :: back) (he : e.names = true) :
    (assembleScopes lines).value = scopesFrom none (front ++ e :: back) ∧
      ((∀ later, later <+: back → isNamed (run (front ++ e :: later)).entity = true) ↔
        ∀ c ∈ back, c.declares = true → c.names = true) ∧
      ((∀ c ∈ back, c.declares = true → c.names = true) →
        ∀ between c rest, back = between ++ c :: rest → c.ends = true →
          Parts (front ++ e :: between) c rest) ∧
      ∀ between c rest, back = between ++ c :: rest → c.ends = true →
        if (lastDeclaration (front ++ e :: between ++ [c])).any Transcript.Entry.names then
          Parts (front ++ e :: between) c rest
        else LeavesOpen (front ++ e :: between) c := by
  have hexact : ∀ between c rest, back = between ++ c :: rest → c.ends = true →
      if (lastDeclaration (front ++ e :: between ++ [c])).any Transcript.Entry.names then
        Parts (front ++ e :: between) c rest
      else LeavesOpen (front ++ e :: between) c := by
    intro between c rest _ hends
    rw [← isNamed_run]
    split
    · rename_i hnamed
      exact parts_of_isNamed hends hnamed rest
    · rename_i hnamed
      exact leavesOpen_of_not_isNamed hends (by simpa using hnamed)
  refine ⟨?_, ⟨?_, ?_⟩, ?_, hexact⟩
  · rw [value_assembleScopes_eq_scopesFrom, hlines]
  · intro hkept c hc hdeclares
    obtain ⟨between, rest, rfl⟩ := List.append_of_mem hc
    have hnamed : isNamed (run (front ++ e :: (between ++ [c]))).entity = true :=
      hkept (between ++ [c]) ⟨rest, by simp⟩
    have happend : front ++ e :: (between ++ [c]) = front ++ e :: between ++ [c] := by simp
    rw [happend, isNamed_run_concat hdeclares] at hnamed
    exact hnamed
  · intro hall later hlater
    exact isNamed_run_append he fun c hc => hall c (hlater.subset hc)
  · intro hall between c rest hback hends
    have hlater : ∀ d ∈ between ++ [c], d.declares = true → d.names = true := by
      intro d hd
      refine hall d ?_
      have hfront : between ++ [c] <+: back := ⟨rest, by simp [hback]⟩
      exact hfront.subset hd
    have hnamed : isNamed (run (front ++ e :: (between ++ [c]))).entity = true :=
      isNamed_run_append he hlater
    have happend : front ++ e :: (between ++ [c]) = front ++ e :: between ++ [c] := by simp
    rw [happend] at hnamed
    exact parts_of_isNamed hends hnamed rest

/-! ## A name that is lost -/

namespace LostName

/-- Three flow graphs, of which the second belongs to an entity whose name is no attribute value. -/
def lines : List String :=
  ["<Entity Name=\"Door\">", "<Node Id=\"1\" Class=\"Ark:EndGame\"/>", "</FlowGraph>",
    "<Entity Name=\"Bob's desk\">", "<Node Id=\"1\" Class=\"Ark:GameMetric\"/>", "</FlowGraph>",
    "<Entity Name=\"Lamp\">", "<Node Id=\"1\" Class=\"Ark:RemoteEvent\"/>", "</FlowGraph>"]

/-- The declaration in the first line. -/
def door : Transcript.Entry := ⟨"<Entity Name=\"Door\">", none⟩

/-- The lines behind it; none of them takes the next one. -/
def rest : List Transcript.Entry := lines.tail.map fun line => ⟨line, none⟩

theorem entries_lines :
    Transcript.entries (lines.map Text.withoutLineEnd) = [] ++ door :: rest := by decide

theorem names_door : door.names = true := by decide +kernel

end LostName

open Transcript in
theorem lostName_name_kept_iff :
    entries (LostName.lines.map Text.withoutLineEnd) = [] ++ LostName.door :: LostName.rest ∧
      LostName.door.names = true ∧
      ((∀ later, later <+: LostName.rest →
          isNamed (run ([] ++ LostName.door :: later)).entity = true) ↔
        ∀ c ∈ LostName.rest, c.declares = true → c.names = true) :=
  ⟨LostName.entries_lines, LostName.names_door,
    (name_kept_iff LostName.entries_lines LostName.names_door).2.1⟩

open Transcript in
/-- A name can be lost, and then a line that ends a flow graph closes no scope. -/
theorem not_forall_name_kept :
    ¬ ∀ (lines : List String) (front back : List Transcript.Entry) (e : Transcript.Entry),
      entries (lines.map Text.withoutLineEnd) = front ++ e :: back → e.names = true →
        (∀ later, later <+: back → isNamed (run (front ++ e :: later)).entity = true) ∧
        ∀ between c rest, back = between ++ c :: rest → c.ends = true →
          Parts (front ++ e :: between) c rest := by
  intro hall
  obtain ⟨hkept, -⟩ := hall _ _ _ _ LostName.entries_lines LostName.names_door
  have hnamed := hkept (LostName.rest.take 3) (List.take_prefix 3 _)
  revert hnamed
  decide +kernel

end FlowAtlas
