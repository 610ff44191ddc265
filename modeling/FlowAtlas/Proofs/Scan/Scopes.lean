import FlowAtlas.Proofs.Scan.Transcript

/-!
# Scanning agrees with the transcript

The scanner keeps one open scope while it pulls continuations from the same lines.  Read entry by
entry, it is described by the readings so far at every moment: what is finished are the closed
pieces, what is open is the piece that is left, and the current entity is the last one.

Main facts: `value_finish_foldl_readLine` (lines are read entry by entry), `describes_foldl` (what a
run over entries has collected) and `exists_closed_trailing` (which scopes there are).
-/

namespace FlowAtlas

namespace Transcript

/-! ## Reading entry by entry -/

/-- Read an entry. -/
def readEntry (a : Assembly) (e : Entry) : Assembly :=
  let a := Scan.enter a e.line
  if Text.hasWord e.line Scan.nodeMarker then (Scan.recordNode a e.line e.inputs).value
  else if Text.hasWord e.line Scan.edgeMarker then
    a.addEdge (.ofAttributes (Markup.attributes e.line))
  else if Text.hasWord e.line Scan.closeMarker then (Scan.closeScope a).value
  else a

/-- Read a line. -/
abbrev readLine (s : Scan) (line : String) : Scan := (s.readLine line).value

theorem readLine_of_takesNext {a : Assembly} {line : String} (h : takesNext line = true) :
    readLine ⟨a, none⟩ line = ⟨Scan.enter a line, some line⟩ := by
  obtain ⟨hn, he⟩ : Text.hasWord line Scan.nodeMarker = true ∧
      Text.endsIn line Scan.selfClosing = false := by
    simpa [takesNext, Scan.nodeMarker, Scan.selfClosing] using h
  simp [readLine, Scan.readLine, hn, he]

theorem readLine_of_not_takesNext {a : Assembly} {line : String} (h : takesNext line = false) :
    readLine ⟨a, none⟩ line = ⟨readEntry a ⟨line, none⟩, none⟩ := by
  have hc : Text.hasWord line Scan.nodeMarker = true → Text.endsIn line Scan.selfClosing = true := by
    simpa [takesNext, Scan.nodeMarker, Scan.selfClosing] using h
  rw [readLine, Scan.readLine, readEntry]
  by_cases hn : Text.hasWord line Scan.nodeMarker = true
  · simp [hn, hc hn, Entry.inputs]
  · by_cases he : Text.hasWord line Scan.edgeMarker = true
    · simp [hn, he]
    · by_cases hcl : Text.hasWord line Scan.closeMarker = true <;> simp [hn, he, hcl]

/-- The record of a line that takes the next one is made with what that one gives. -/
theorem readEntry_of_takesNext {a : Assembly} {line : String} {continuation : Option String}
    (h : takesNext line = true) :
    readEntry a ⟨line, continuation⟩ =
      (Scan.recordNode (Scan.enter a line) line (Entry.inputs ⟨line, continuation⟩)).value := by
  have hn : Text.hasWord line Scan.nodeMarker = true := by
    simp only [takesNext, Bool.and_eq_true] at h
    exact h.1
  simp [readEntry, hn]

/-- Reading the lines one by one is reading the entries one by one. -/
theorem value_finish_foldl_readLine (lines : List String) (a : Assembly) :
    (lines.foldl readLine ⟨a, none⟩).finish.value = ((entries lines).foldl readEntry a).finish := by
  induction lines using entries.induct generalizing a with
  | case1 => rfl
  | case2 line =>
    rw [entries, List.foldl_cons, List.foldl_cons, List.foldl_nil, List.foldl_nil]
    cases h : takesNext line with
    | true => rw [readLine_of_takesNext h, readEntry_of_takesNext h]; rfl
    | false => rw [readLine_of_not_takesNext h]; rfl
  | case3 line next rest h ih =>
    rw [entries, if_pos h, List.foldl_cons, List.foldl_cons, List.foldl_cons,
      readLine_of_takesNext h, readEntry_of_takesNext h]
    exact ih _
  | case4 line next rest h ih =>
    have h' : takesNext line = false := by simpa using h
    rw [entries, if_neg h, List.foldl_cons, List.foldl_cons, readLine_of_not_takesNext h']
    exact ih _

/-! ## What an assembly holds -/

/-- An assembly holds what readings say: the closed pieces finished, the rest open. -/
structure Describes (rs : List Reading) (a : Assembly) : Prop where
  entity : a.entity = lastEntity rs
  finished : a.finished = (pieces rs).1.map closedScope
  nodes : a.nodes = nodesOf (pieces rs).2
  edges : a.edges = edgesOf (pieces rs).2

theorem describes_start : Describes [] .start := ⟨rfl, rfl, rfl, rfl⟩

theorem pieces_concat_of_closes (rs : List Reading) {r : Reading} (h : r.closes = true) :
    pieces (rs ++ [r]) = ((pieces rs).1 ++ [(pieces rs).2 ++ [r]], []) := by
  rw [pieces, cutBehind_concat, if_pos h, pieces]

theorem pieces_concat_of_not_closes (rs : List Reading) {r : Reading} (h : r.closes = false) :
    pieces (rs ++ [r]) = ((pieces rs).1, (pieces rs).2 ++ [r]) := by
  rw [pieces, cutBehind_concat, if_neg (by simp [h]), pieces]

section Step

variable {rs : List Reading} {r : Reading} {a : Assembly}

/-- A reading that is no closing mark adds to the open piece alone. -/
theorem Describes.add (h : Describes rs a) (hr : r.closes = false)
    {nodes : OrderedMap (Option String) Node} {edges : List Edge}
    (hn : nodesOf ((pieces rs).2 ++ [r]) = nodes) (he : edgesOf ((pieces rs).2 ++ [r]) = edges) :
    Describes (rs ++ [r]) ⟨r.entity, a.finished, nodes, edges⟩ := by
  have hp := pieces_concat_of_not_closes rs hr
  refine ⟨(lastEntity_concat rs r).symm, ?_, ?_, ?_⟩
  · rw [hp]; exact h.finished
  · rw [hp]; exact hn.symm
  · rw [hp]; exact he.symm

/-- A closing mark finishes the open piece under the entity that is current at it. -/
theorem Describes.close (h : Describes rs a) (hr : r.record = .close) :
    Describes (rs ++ [r])
      (Assembly.conclude ⟨r.entity, a.finished, a.nodes, a.edges⟩
        ⟨r.entity, a.nodes, a.edges, false⟩) := by
  have hc : r.closes = true := by simp [Reading.closes, hr]
  have hd : r.declaration? = none := by simp [Reading.declaration?, hr]
  have he : r.edge? = none := by simp [Reading.edge?, hr]
  have hscope : closedScope ((pieces rs).2 ++ [r]) = ⟨r.entity, a.nodes, a.edges, false⟩ := by
    rw [closedScope, lastEntity_concat, nodesOf_concat_of_none hd, edgesOf_concat, he, h.nodes,
      h.edges]
    simp
  have hp := pieces_concat_of_closes rs hc
  refine ⟨(lastEntity_concat rs r).symm, ?_, ?_, ?_⟩
  · rw [hp, List.map_append, List.map_singleton, hscope, ← h.finished]; rfl
  · rw [hp]; rfl
  · rw [hp]; rfl

end Step

/-! ## Reading on -/

theorem enter_eq (a : Assembly) (e : Entry) :
    Scan.enter a e.line = ⟨e.entity a.entity, a.finished, a.nodes, a.edges⟩ := by
  rw [Scan.enter, Entry.entity, Scan.entityMarker]
  by_cases h : Text.hasWord e.line "<Entity" = true
  · rw [if_pos h, if_pos h]; rfl
  · rw [if_neg h, if_neg h]

theorem value_recordNode (a : Assembly) (line : String) (inputs : Attributes) :
    (Scan.recordNode a line inputs).value =
      if (Markup.attributes line).get? "id" = none then a
      else { a with
        nodes := a.nodes.insert ((Markup.attributes line).get? "id")
          (Node.ofAttributes (Markup.attributes line) inputs).value } := by
  rw [Scan.recordNode]
  cases hid : (Markup.attributes line).get? "id" with
  | none => rfl
  | some id =>
    have hnode : (Node.ofAttributes (Markup.attributes line) inputs).value.id = some id := hid
    simp only [Option.isNone_some, Bool.false_eq_true, if_false, Logged.value_bind,
      Assembly.addNode, Logged.value_pure, hnode, reduceCtorEq]

theorem value_closeScope (a : Assembly) :
    (Scan.closeScope a).value =
      if isNamed a.entity then a.conclude ⟨a.entity, a.nodes, a.edges, false⟩ else a := by
  rw [Scan.closeScope, Assembly.close, Assembly.closing?]
  cases he : a.entity with
  | none => rfl
  | some name => by_cases hn : name = "" <;> simp [isNamed, hn]

/-- A node record declares its node in the open piece, unless it has no id. -/
theorem Describes.node {rs : List Reading} {a : Assembly} (h : Describes rs a) {r : Reading}
    {line : String} {inputs : Attributes}
    (hr : r.record = .node (Node.ofAttributes (Markup.attributes line) inputs).value) :
    Describes (rs ++ [r])
      (Scan.recordNode ⟨r.entity, a.finished, a.nodes, a.edges⟩ line inputs).value := by
  have hc : r.closes = false := by simp [Reading.closes, hr]
  have he : edgesOf ((pieces rs).2 ++ [r]) = a.edges := by
    rw [edgesOf_concat, ← h.edges]
    simp [Reading.edge?, hr]
  have hid : (Node.ofAttributes (Markup.attributes line) inputs).value.id =
      (Markup.attributes line).get? "id" := rfl
  rw [value_recordNode]
  split
  · rename_i hnone
    have hd : r.declaration? = none := by simp [Reading.declaration?, hr, hid, hnone]
    exact h.add hc ((nodesOf_concat_of_none hd).trans h.nodes.symm) he
  · rename_i hsome
    have hd : r.declaration? = some ((Markup.attributes line).get? "id",
        (Node.ofAttributes (Markup.attributes line) inputs).value) := by
      simp [Reading.declaration?, hr, hid, hsome]
    exact h.add hc (by rw [nodesOf_concat_of_some hd, h.nodes]) he

/-- An edge record adds its edge to the open piece. -/
theorem Describes.edge {rs : List Reading} {a : Assembly} (h : Describes rs a) {r : Reading}
    {edge : Edge} (hr : r.record = .edge edge) :
    Describes (rs ++ [r]) (Assembly.addEdge ⟨r.entity, a.finished, a.nodes, a.edges⟩ edge) := by
  have hc : r.closes = false := by simp [Reading.closes, hr]
  have hd : r.declaration? = none := by simp [Reading.declaration?, hr]
  have he : edgesOf ((pieces rs).2 ++ [r]) = a.edges ++ [edge] := by
    rw [edgesOf_concat, ← h.edges]
    simp [Reading.edge?, hr]
  exact h.add hc ((nodesOf_concat_of_none hd).trans h.nodes.symm) he

/-- Any other line leaves the open piece as it is. -/
theorem Describes.nothing {rs : List Reading} {a : Assembly} (h : Describes rs a) {r : Reading}
    (hr : r.record = .nothing) :
    Describes (rs ++ [r]) ⟨r.entity, a.finished, a.nodes, a.edges⟩ := by
  have hc : r.closes = false := by simp [Reading.closes, hr]
  have hd : r.declaration? = none := by simp [Reading.declaration?, hr]
  have he : edgesOf ((pieces rs).2 ++ [r]) = a.edges := by
    rw [edgesOf_concat, ← h.edges]
    simp [Reading.edge?, hr]
  exact h.add hc ((nodesOf_concat_of_none hd).trans h.nodes.symm) he

/-- One more entry: the assembly holds what the readings with its reading say. -/
theorem describes_step {rs : List Reading} {a : Assembly} (h : Describes rs a) (e : Entry) :
    Describes (rs ++ [e.reading (lastEntity rs)]) (readEntry a e) := by
  have hrecord : (e.reading (lastEntity rs)).record = e.record (e.entity (lastEntity rs)) := rfl
  have hentity : (e.reading (lastEntity rs)).entity = e.entity (lastEntity rs) := rfl
  rw [Entry.record] at hrecord
  rw [readEntry, enter_eq, h.entity, ← hentity, Scan.nodeMarker, Scan.edgeMarker, Scan.closeMarker]
  by_cases hn : Text.hasWord e.line "<Node " = true
  · rw [if_pos hn] at hrecord
    rw [if_pos hn]
    exact h.node hrecord
  rw [if_neg hn] at hrecord
  rw [if_neg hn]
  by_cases he : Text.hasWord e.line "<Edge " = true
  · rw [if_pos he] at hrecord
    rw [if_pos he]
    exact h.edge hrecord
  rw [if_neg he] at hrecord
  rw [if_neg he]
  -- a closing mark counts only under a named entity
  by_cases hc : Text.hasWord e.line "</FlowGraph>" = true
  · rw [if_pos hc, value_closeScope]
    by_cases hnamed : isNamed (e.reading (lastEntity rs)).entity = true
    · rw [← hentity, if_pos (by simp [hc, hnamed])] at hrecord
      rw [if_pos hnamed]
      exact h.close hrecord
    · rw [← hentity, if_neg (by simp [hnamed])] at hrecord
      rw [if_neg hnamed]
      exact h.nothing hrecord
  · rw [if_neg (by simp [hc])] at hrecord
    rw [if_neg hc]
    exact h.nothing hrecord

/-- A whole run over entries. -/
theorem describes_foldl (es : List Entry) {rs : List Reading} {a : Assembly}
    (h : Describes rs a) :
    Describes (rs ++ readings (lastEntity rs) es) (es.foldl readEntry a) := by
  induction es generalizing rs a with
  | nil => simpa [readings] using h
  | cons e es ih =>
    have hstep := ih (describes_step h e)
    rw [lastEntity_concat, List.append_assoc] at hstep
    exact hstep

/-- What is finished in the end: the closed pieces and the trailing one. -/
theorem Describes.finish {rs : List Reading} {a : Assembly} (h : Describes rs a) :
    a.finish.finished = scopes rs := by
  rw [Assembly.finish, scopes, trailingScope, ← h.entity, ← h.nodes, ← h.edges, ← h.finished]
  rfl

theorem finished_foldl_readEntry (es : List Entry) :
    (es.foldl readEntry .start).finish.finished = scopes (readings none es) :=
  (describes_foldl es describes_start).finish

end Transcript

/-- The scopes of any lines are those that their readings say, piece by piece. -/
theorem value_assembleScopes (lines : List String) :
    (assembleScopes lines).value = Transcript.scopes (Transcript.ofLines lines) := by
  rw [Transcript.ofLines, ← Transcript.finished_foldl_readEntry,
    ← Transcript.value_finish_foldl_readLine]
  rw [assembleScopes, Logged.value_bind, Logged.value_bind, Logged.value_fold]
  rfl

open Transcript in
/-- **Scanning agrees with the transcript.**  The readings of the lines are cut behind each closing
mark and nowhere else.  Every piece gives one scope: its edges in order, and under each id the last
node record of the piece at the place of the first. -/
theorem assembleScopes_eq_transcript (lines : List String) :
    (assembleScopes lines).value =
        (pieces (ofLines lines)).1.map closedScope ++ [trailingScope (ofLines lines)] ∧
      Cut Reading.closes (ofLines lines) (pieces (ofLines lines)) ∧
      (∀ piece, (nodesOf piece).keys =
        OrderedMap.distinct ((piece.filterMap Reading.declaration?).map Prod.fst)) ∧
      ∀ piece id, (nodesOf piece).get? id = (recordsOf id piece).getLast? :=
  ⟨value_assembleScopes lines, cut_cutBehind _ _, keys_nodesOf, get?_nodesOf⟩

/-! ## Recorded nodes -/

namespace Transcript

theorem line_mem_of_mem_entries {lines : List String} {e : Entry} (h : e ∈ entries lines) :
    e.line ∈ lines := by
  induction lines using entries.induct with
  | case1 => cases h
  | case2 line =>
    rw [entries] at h
    rw [List.mem_singleton.mp h]
    exact List.mem_cons_self
  | case3 line next rest hnext ih =>
    rw [entries, if_pos hnext] at h
    rcases List.mem_cons.mp h with rfl | h
    · exact List.mem_cons_self
    · exact List.mem_cons_of_mem _ (List.mem_cons_of_mem _ (ih h))
  | case4 line next rest hnext ih =>
    rw [entries, if_neg hnext] at h
    rcases List.mem_cons.mp h with rfl | h
    · exact List.mem_cons_self
    · exact List.mem_cons_of_mem _ (ih h)

/-- A node that is recorded is what the attributes of an entry describe. -/
theorem exists_entry_of_record {before : Option String} {es : List Entry} {r : Reading}
    {node : Node} (hr : r ∈ readings before es) (hnode : r.record = .node node) :
    ∃ e ∈ es, node = (Node.ofAttributes (Markup.attributes e.line) e.inputs).value := by
  induction es generalizing before with
  | nil => cases hr
  | cons e es ih =>
    rcases List.mem_cons.mp hr with rfl | hr
    · change e.record _ = .node node at hnode
      unfold Entry.record at hnode
      split_ifs at hnode
      exact ⟨e, List.mem_cons_self .., (Record.node.inj hnode).symm⟩
    · obtain ⟨e', he', hentry⟩ := ih hr
      exact ⟨e', List.mem_cons_of_mem _ he', hentry⟩

theorem exists_reading_of_get? {piece : List Reading} {id : Option String} {node : Node}
    (h : (nodesOf piece).get? id = some node) : ∃ r ∈ piece, r.record = .node node := by
  rw [get?_nodesOf] at h
  have hmem := OrderedMap.mem_valuesOf.mp (List.mem_of_getLast? h)
  obtain ⟨r, hr, hdeclared⟩ := List.mem_filterMap.mp hmem
  refine ⟨r, hr, ?_⟩
  unfold Reading.declaration? at hdeclared
  split at hdeclared
  · rename_i other hother
    split_ifs at hdeclared
    cases hdeclared
    exact hother
  · cases hdeclared

/-- A node of a scope is what the attributes of some line describe. -/
theorem exists_entry_of_get? {lines : List String} {scope : Scope}
    (h : scope ∈ (assembleScopes lines).value) {id : Option String} {node : Node}
    (hnode : scope.nodes.get? id = some node) :
    ∃ e ∈ entries (lines.map Text.withoutLineEnd),
      node = (Node.ofAttributes (Markup.attributes e.line) e.inputs).value := by
  have hreading : ∃ r ∈ ofLines lines, r.record = .node node := by
    have hcut := (cut_cutBehind Reading.closes (ofLines lines)).whole
    rw [value_assembleScopes] at h
    rcases List.mem_append.mp h with h | h
    · obtain ⟨piece, hpiece, rfl⟩ := List.mem_map.mp h
      obtain ⟨r, hr, hrecord⟩ := exists_reading_of_get? hnode
      refine ⟨r, ?_, hrecord⟩
      rw [← hcut]
      exact List.mem_append_left _ (List.mem_flatten.mpr ⟨piece, hpiece, hr⟩)
    · rw [List.mem_singleton.mp h] at hnode
      obtain ⟨r, hr, hrecord⟩ := exists_reading_of_get? hnode
      refine ⟨r, ?_, hrecord⟩
      rw [← hcut]
      exact List.mem_append_right _ hr
  obtain ⟨r, hr, hrecord⟩ := hreading
  exact exists_entry_of_record hr hrecord

end Transcript

/-! ## Closed scopes -/

/-- A scope that was closed under the name of an entity. -/
structure Scope.IsClosed (scope : Scope) : Prop where
  trailing : scope.trailing = false
  entity : ∃ name, scope.entity = some name ∧ name ≠ ""

namespace Transcript

theorem isNamed_of_closes {before : Option String} {es : List Entry} {r : Reading}
    (hr : r ∈ readings before es) (h : r.closes = true) : isNamed r.entity = true := by
  induction es generalizing before with
  | nil => cases hr
  | cons e es ih =>
    rcases List.mem_cons.mp hr with rfl | hr
    · unfold Reading.closes Entry.reading Entry.record at h
      rw [decide_eq_true_eq] at h
      dsimp only at h
      split_ifs at h with hnode hedge hclose
      rw [Bool.and_eq_true] at hclose
      exact hclose.2
    · exact ih hr

theorem isClosed_closedScope {before : Option String} {es : List Entry} {piece : List Reading}
    (h : piece ∈ (pieces (readings before es)).1) : (closedScope piece).IsClosed := by
  have hcut := cut_cutBehind Reading.closes (readings before es)
  obtain ⟨front, r, rfl, hcloses, -⟩ := hcut.ends piece h
  have hmem : r ∈ readings before es := by
    rw [← hcut.whole]
    exact List.mem_append_left _ (List.mem_flatten.mpr ⟨_, h, by simp⟩)
  have hnamed := isNamed_of_closes hmem hcloses
  refine ⟨rfl, ?_⟩
  show ∃ name, lastEntity (front ++ [r]) = some name ∧ name ≠ ""
  rw [lastEntity_concat]
  exact exists_name_of_isNamed hnamed

end Transcript

/-- The scopes of any lines are closed ones and a trailing one behind them. -/
theorem exists_closed_trailing (lines : List String) :
    ∃ closed last, (assembleScopes lines).value = closed ++ [last] ∧
      (∀ scope ∈ closed, scope.IsClosed) ∧ last.trailing = true := by
  refine ⟨_, _, value_assembleScopes lines, ?_, rfl⟩
  intro scope hscope
  obtain ⟨piece, hpiece, rfl⟩ := List.mem_map.mp hscope
  exact Transcript.isClosed_closedScope hpiece

end FlowAtlas
