import FlowAtlas.Proofs.Scan.Transcript
import FlowAtlas.Scope.Assembly

/-!
# Histories of an assembly

An assembly is used by five operations, in any order: an entity is entered, a node or an edge is
declared, the open scope is closed, and what is open is finished.  The open scope has a place, the
number of scopes finished before it, and what is declared goes to the scope at this place and stays
there.

Main facts: `recorded_step` (what one operation does), `recorded_run` (what every history leaves)
and `run_keeps_history`.
-/

namespace FlowAtlas

namespace Assembly

open OrderedMap (latest valuesOf)
open Transcript (isNamed exists_name_of_isNamed)

/-! ## Operations -/

/-- What can be asked of an assembly. -/
inductive Operation
  | enter (name : Option String)
  | node (n : Node)
  | edge (e : Edge)
  | close
  | finish
deriving DecidableEq

namespace Operation

def name? : Operation → Option (Option String)
  | .enter name => some name
  | _ => none

def node? : Operation → Option Node
  | .node n => some n
  | _ => none

def edge? : Operation → Option Edge
  | .edge e => some e
  | _ => none

/-- The assembly after an operation. -/
def apply (a : Assembly) : Operation → Assembly
  | .enter name => a.enterEntity name
  | .node n => (a.addNode n).value
  | .edge e => a.addEdge e
  | .close => a.close.2
  | .finish => a.finish

end Operation

/-- Do operations one after the other. -/
def runFrom (a : Assembly) (ops : List Operation) : Assembly := ops.foldl Operation.apply a

/-- The assembly after a history. -/
def run (ops : List Operation) : Assembly := runFrom start ops

/-- All scopes, the open one last. -/
def scopes (a : Assembly) : List Scope := a.finished ++ [a.current]

/-- The last name that was entered. -/
def lastEntered (ops : List Operation) : Option String :=
  (ops.filterMap Operation.name?).getLast?.join

/-- An operation and the assembly that it was done on. -/
structure Step where
  before : Assembly
  operation : Operation

namespace Step

/-- The place of the scope that is open at the step. -/
def place (s : Step) : Nat := s.before.finished.length

/-- The scope that the step returns, if it closes one. -/
def closed? (s : Step) : Option Scope :=
  match s.operation with
  | .close => s.before.close.1
  | _ => none

end Step

/-- The steps of operations that start on an assembly. -/
def stepsFrom (a : Assembly) : List Operation → List Step
  | [] => []
  | op :: rest => ⟨a, op⟩ :: stepsFrom (op.apply a) rest

/-- The steps of a history. -/
def steps (ops : List Operation) : List Step := stepsFrom start ops

/-- The nodes declared while the scope at a place was open, under their ids. -/
def nodesInto (place : Nat) (steps : List Step) : List (Option String × Node) :=
  (steps.filter fun s => s.place = place).filterMap fun s =>
    s.operation.node?.map fun n => (n.id, n)

/-- The edges declared while the scope at a place was open. -/
def edgesInto (place : Nat) (steps : List Step) : List Edge :=
  (steps.filter fun s => s.place = place).filterMap fun s => s.operation.edge?

/-! ## Histories one step longer -/

section Concat

variable (ops : List Operation) (op : Operation)

theorem run_concat : run (ops ++ [op]) = op.apply (run ops) := by
  simp [run, runFrom]

theorem runFrom_run (more : List Operation) : runFrom (run ops) more = run (ops ++ more) := by
  simp [run, runFrom]

theorem stepsFrom_append (a : Assembly) (more : List Operation) :
    stepsFrom a (ops ++ more) = stepsFrom a ops ++ stepsFrom (runFrom a ops) more := by
  induction ops generalizing a with
  | nil => rfl
  | cons first rest ih => simp [stepsFrom, runFrom, ih]

theorem steps_concat : steps (ops ++ [op]) = steps ops ++ [⟨run ops, op⟩] :=
  stepsFrom_append ops start [op]

theorem lastEntered_concat :
    lastEntered (ops ++ [op]) = (op.name?).getD (lastEntered ops) := by
  cases op <;> simp [lastEntered, Operation.name?]

end Concat

theorem nodesInto_concat (place : Nat) (ss : List Step) (s : Step) :
    nodesInto place (ss ++ [s]) =
      if s.place = place then
        nodesInto place ss ++ (s.operation.node?.map fun n => (n.id, n)).toList
      else nodesInto place ss := by
  by_cases h : s.place = place
  · cases hn : s.operation.node? <;> simp [nodesInto, h, hn]
  · simp [nodesInto, h]

theorem edgesInto_concat (place : Nat) (ss : List Step) (s : Step) :
    edgesInto place (ss ++ [s]) =
      if s.place = place then edgesInto place ss ++ s.operation.edge?.toList
      else edgesInto place ss := by
  by_cases h : s.place = place
  · cases he : s.operation.edge? <;> simp [edgesInto, h, he]
  · simp [edgesInto, h]

theorem mem_stepsFrom {a : Assembly} {ops : List Operation} {s : Step} (h : s ∈ stepsFrom a ops) :
    ∃ front rest, ops = front ++ s.operation :: rest ∧ s.before = runFrom a front := by
  induction ops generalizing a with
  | nil => cases h
  | cons op ops ih =>
    rcases List.mem_cons.mp h with rfl | h
    · exact ⟨[], ops, rfl, rfl⟩
    · obtain ⟨front, rest, hops, hbefore⟩ := ih h
      exact ⟨op :: front, rest, by rw [hops]; rfl, hbefore⟩

/-! ## What one operation does -/

theorem apply_node (a : Assembly) (n : Node) :
    Operation.apply a (.node n) = { a with nodes := a.nodes.insert n.id n } := by
  simp [Operation.apply, addNode]

theorem close_of_not_isNamed {a : Assembly} (h : isNamed a.entity = false) :
    a.close = (none, a) := by
  have hnone : a.closing? = none := by
    unfold closing?
    cases he : a.entity with
    | none => rfl
    | some name =>
      have hname : name = "" := by simpa [he, isNamed] using h
      simp [hname]
  simp [close, hnone]

theorem close_of_isNamed {a : Assembly} (h : isNamed a.entity = true) :
    a.close = (some ⟨a.entity, a.nodes, a.edges, false⟩,
      a.conclude ⟨a.entity, a.nodes, a.edges, false⟩) := by
  obtain ⟨name, hentity, hname⟩ := exists_name_of_isNamed h
  have hsome : a.closing? = some ⟨a.entity, a.nodes, a.edges, false⟩ := by
    simp [closing?, hentity, hname]
  simp [close, hsome]

/-- Where a finished scope comes from: it was closed under a name, or it was what was left. -/
def Concluded (ops : List Operation) (place : Nat) (scope : Scope) : Prop :=
  ∃ front op rest, ops = front ++ op :: rest ∧ (run front).finished.length = place ∧
    scope.entity = lastEntered front ∧
    (op = .finish ∧ scope.trailing = true ∨
      op = .close ∧ scope.trailing = false ∧ isNamed (lastEntered front) = true ∧
        (run front).close.1 = some scope)

theorem Concluded.concat {ops : List Operation} {place : Nat} {scope : Scope}
    (h : Concluded ops place scope) (op : Operation) : Concluded (ops ++ [op]) place scope := by
  obtain ⟨front, last, rest, hops, h⟩ := h
  exact ⟨front, last, rest ++ [op], by simp [hops], h⟩

/-- An assembly holds what a history has declared, each scope what was declared at its place. -/
structure Recorded (ops : List Operation) (a : Assembly) : Prop where
  entity : a.entity = lastEntered ops
  nodes : a.nodes = latest (nodesInto a.finished.length (steps ops))
  edges : a.edges = edgesInto a.finished.length (steps ops)
  finished : ∀ place scope, a.finished[place]? = some scope →
    scope.nodes = latest (nodesInto place (steps ops)) ∧
      scope.edges = edgesInto place (steps ops) ∧ Concluded ops place scope
  /-- Nothing is declared at a place that is still to come. -/
  places : ∀ s ∈ steps ops, s.place ≤ a.finished.length
  count : a.finished.length = ((steps ops).filterMap Step.closed?).length + ops.count .finish

section Step

variable {ops : List Operation} {op : Operation}

/-- Nothing that stands at an earlier place is touched. -/
theorem Recorded.finished_concat (h : Recorded ops (run ops)) (op : Operation) {place : Nat}
    {scope : Scope} (hscope : (run ops).finished[place]? = some scope) :
    scope.nodes = latest (nodesInto place (steps (ops ++ [op]))) ∧
      scope.edges = edgesInto place (steps (ops ++ [op])) ∧ Concluded (ops ++ [op]) place scope := by
  obtain ⟨hnodes, hedges, hconcluded⟩ := h.finished place scope hscope
  have hlt : place < (run ops).finished.length := (List.getElem?_eq_some_iff.mp hscope).1
  have hplace : ¬ (Step.mk (run ops) op).place = place := by
    show ¬ (run ops).finished.length = place
    omega
  rw [steps_concat, nodesInto_concat, edgesInto_concat, if_neg hplace, if_neg hplace]
  exact ⟨hnodes, hedges, hconcluded.concat op⟩

theorem Recorded.places_concat (h : Recorded ops (run ops)) (op : Operation) :
    ∀ s ∈ steps (ops ++ [op]), s.place ≤ (run ops).finished.length := by
  intro s hs
  rw [steps_concat] at hs
  rcases List.mem_append.mp hs with hs | hs
  · exact h.places s hs
  · rw [List.mem_singleton.mp hs]
    exact Nat.le_refl _

/-- An operation that finishes no scope declares at most one thing, in the open one. -/
theorem Recorded.stay (h : Recorded ops (run ops)) {after : Assembly}
    (hentity : after.entity = op.name?.getD (run ops).entity)
    (hfinished : after.finished = (run ops).finished)
    (hnodes : after.nodes =
      latest (nodesInto (run ops).finished.length (steps ops) ++
        (op.node?.map fun n => (n.id, n)).toList))
    (hedges : after.edges = (run ops).edges ++ op.edge?.toList)
    (hclosed : (Step.mk (run ops) op).closed? = none) (hne : op ≠ .finish) :
    Recorded (ops ++ [op]) after := by
  have hplace : (Step.mk (run ops) op).place = (run ops).finished.length := rfl
  refine ⟨?_, ?_, ?_, ?_, ?_, ?_⟩
  · rw [hentity, lastEntered_concat, h.entity]
  · rw [hnodes, hfinished, steps_concat, nodesInto_concat, if_pos hplace]
  · rw [hedges, hfinished, steps_concat, edgesInto_concat, if_pos hplace, h.edges]
  · intro place scope hscope
    rw [hfinished] at hscope
    exact h.finished_concat op hscope
  · rw [hfinished]
    exact h.places_concat op
  · have hcount : [op].count .finish = 0 := by simp [hne]
    simp [hfinished, steps_concat, hclosed, hcount, h.count]

/-- An operation that finishes the open scope puts it at its place and opens an empty one. -/
theorem Recorded.conclude (h : Recorded ops (run ops)) {scope : Scope} (hname : op.name? = none)
    (hnode : op.node? = none) (hedge : op.edge? = none)
    (hnodes : scope.nodes = (run ops).nodes) (hedges : scope.edges = (run ops).edges)
    (horigin : Concluded (ops ++ [op]) (run ops).finished.length scope)
    (hcount : (Step.mk (run ops) op).closed?.toList.length + [op].count .finish = 1) :
    Recorded (ops ++ [op]) ((run ops).conclude scope) := by
  have hlength : ((run ops).conclude scope).finished.length = (run ops).finished.length + 1 := by
    simp [Assembly.conclude]
  have hplaces := h.places_concat op
  have hnew : (steps (ops ++ [op])).filter
      (fun s => s.place = (run ops).finished.length + 1) = [] := by
    rw [List.filter_eq_nil_iff]
    intro s hs
    have hle := hplaces s hs
    simp only [decide_eq_true_eq]
    omega
  refine ⟨?_, ?_, ?_, ?_, ?_, ?_⟩
  · rw [lastEntered_concat, hname, ← h.entity]
    rfl
  · rw [hlength, nodesInto, hnew]
    rfl
  · rw [hlength, edgesInto, hnew]
    rfl
  · intro place found hfound
    change ((run ops).finished ++ [scope])[place]? = some found at hfound
    rcases Nat.lt_or_ge place (run ops).finished.length with hlt | hge
    · rw [List.getElem?_append_left hlt] at hfound
      exact h.finished_concat op hfound
    · have hlt := (List.getElem?_eq_some_iff.mp hfound).1
      have hplace : place = (run ops).finished.length := by
        simp only [List.length_append, List.length_singleton] at hlt
        omega
      have hsame : (Step.mk (run ops) op).place = (run ops).finished.length := rfl
      rw [hplace, List.getElem?_concat_length] at hfound
      cases hfound
      rw [hplace, steps_concat, nodesInto_concat, edgesInto_concat, if_pos hsame, if_pos hsame]
      exact ⟨by simp [hnodes, h.nodes, hnode], by simp [hedges, h.edges, hedge], horigin⟩
  · intro s hs
    have hle := hplaces s hs
    omega
  · have hclosed : ((steps (ops ++ [op])).filterMap Step.closed?).length =
        ((steps ops).filterMap Step.closed?).length +
          (Step.mk (run ops) op).closed?.toList.length := by
      rw [steps_concat, List.filterMap_append, List.length_append]
      cases hc : (Step.mk (run ops) op).closed? <;> simp [hc]
    have hbefore := h.count
    rw [hlength, hclosed, List.count_append]
    omega

end Step

/-- **What one operation does.** -/
theorem recorded_step {ops : List Operation} (h : Recorded ops (run ops)) (op : Operation) :
    Recorded (ops ++ [op]) (run (ops ++ [op])) := by
  rw [run_concat]
  cases op with
  | enter name =>
    exact h.stay rfl rfl (by simp [Operation.apply, enterEntity, h.nodes, Operation.node?])
      (by simp [Operation.apply, enterEntity, Operation.edge?]) rfl (by simp)
  | node n =>
    have hnodes : (run ops).nodes.insert n.id n =
        latest (nodesInto (run ops).finished.length (steps ops) ++ [(n.id, n)]) := by
      rw [h.nodes, OrderedMap.insert_latest]
    rw [apply_node]
    exact h.stay rfl rfl hnodes (by simp [Operation.edge?]) rfl (by simp)
  | edge e =>
    exact h.stay rfl rfl (by simp [Operation.apply, addEdge, h.nodes, Operation.node?]) rfl rfl
      (by simp)
  | close =>
    cases hnamed : isNamed (run ops).entity with
    | true =>
      have hclose := close_of_isNamed hnamed
      have horigin : Concluded (ops ++ [.close]) (run ops).finished.length
          ⟨(run ops).entity, (run ops).nodes, (run ops).edges, false⟩ :=
        ⟨ops, .close, [], rfl, rfl, h.entity,
          Or.inr ⟨rfl, rfl, h.entity ▸ hnamed, by rw [hclose]⟩⟩
      show Recorded (ops ++ [.close]) (run ops).close.2
      rw [hclose]
      exact h.conclude rfl rfl rfl rfl rfl horigin (by simp [Step.closed?, hclose])
    | false =>
      have hclose := close_of_not_isNamed hnamed
      show Recorded (ops ++ [.close]) (run ops).close.2
      rw [hclose]
      exact h.stay rfl rfl (by simp [h.nodes, Operation.node?]) (by simp [Operation.edge?])
        (by simp [Step.closed?, hclose]) (by simp)
  | finish =>
    have horigin : Concluded (ops ++ [.finish]) (run ops).finished.length
        ⟨(run ops).entity, (run ops).nodes, (run ops).edges, true⟩ :=
      ⟨ops, .finish, [], rfl, rfl, h.entity, Or.inl ⟨rfl, rfl⟩⟩
    exact h.conclude rfl rfl rfl rfl rfl horigin (by simp [Step.closed?])

/-- **What a whole history leaves.** -/
theorem recorded_run (ops : List Operation) : Recorded ops (run ops) := by
  induction ops using List.reverseRecOn with
  | nil => exact ⟨rfl, rfl, rfl, by simp [run, runFrom, start], by simp [steps, stepsFrom], rfl⟩
  | append_singleton ops op ih => exact recorded_step ih op

/-! ## What no operation loses -/

/-- The edges of all scopes in order. -/
def allEdges (a : Assembly) : List Edge := a.finished.flatMap Scope.edges ++ a.edges

theorem allEdges_apply (a : Assembly) (op : Operation) :
    (op.apply a).allEdges = a.allEdges ++ op.edge?.toList := by
  cases op with
  | enter name => simp [allEdges, Operation.apply, enterEntity, Operation.edge?]
  | node n => simp [allEdges, apply_node, Operation.edge?]
  | edge e => simp [allEdges, Operation.apply, addEdge, Operation.edge?]
  | close =>
    show a.close.2.allEdges = _
    cases hnamed : isNamed a.entity with
    | true => simp [allEdges, close_of_isNamed hnamed, conclude, Operation.edge?]
    | false => simp [close_of_not_isNamed hnamed, Operation.edge?]
  | finish => simp [allEdges, Operation.apply, Assembly.finish, conclude, Operation.edge?]

theorem allEdges_run (ops : List Operation) : (run ops).allEdges = ops.filterMap Operation.edge? := by
  induction ops using List.reverseRecOn with
  | nil => rfl
  | append_singleton ops op ih =>
    rw [run_concat, allEdges_apply, ih, List.filterMap_append]
    cases h : op.edge? <;> simp [h]

theorem finished_apply (a : Assembly) (op : Operation) :
    a.finished <+: (op.apply a).finished := by
  cases op with
  | enter name => exact List.prefix_refl _
  | node n =>
    have hkept : (Operation.apply a (.node n)).finished = a.finished := by rw [apply_node]
    exact hkept ▸ List.prefix_refl _
  | edge e => exact List.prefix_refl _
  | close =>
    show a.finished <+: a.close.2.finished
    cases hnamed : isNamed a.entity with
    | true =>
      rw [close_of_isNamed hnamed]
      exact List.prefix_append _ _
    | false =>
      have hkept : a.close.2.finished = a.finished := by rw [close_of_not_isNamed hnamed]
      exact hkept ▸ List.prefix_refl _
  | finish => exact List.prefix_append _ _

/-- Finished scopes stay as they are, and others come behind them. -/
theorem finished_runFrom (a : Assembly) (ops : List Operation) :
    a.finished <+: (runFrom a ops).finished := by
  induction ops generalizing a with
  | nil => exact List.prefix_refl _
  | cons op ops ih => exact (finished_apply a op).trans (ih (op.apply a))

/-! ## Where a node is found -/

/-- The scope at a place of a history, finished or open. -/
theorem Recorded.scope {ops : List Operation} {a : Assembly} (h : Recorded ops a) {place : Nat}
    {scope : Scope} (hscope : a.scopes[place]? = some scope) :
    scope.nodes = latest (nodesInto place (steps ops)) ∧
      scope.edges = edgesInto place (steps ops) := by
  have hlt := (List.getElem?_eq_some_iff.mp hscope).1
  unfold scopes at hscope hlt
  rcases Nat.lt_or_ge place a.finished.length with hless | hge
  · rw [List.getElem?_append_left hless] at hscope
    obtain ⟨hnodes, hedges, -⟩ := h.finished place scope hscope
    exact ⟨hnodes, hedges⟩
  · have hplace : place = a.finished.length := by
      simp only [List.length_append, List.length_singleton] at hlt
      omega
    rw [hplace, List.getElem?_concat_length] at hscope
    cases hscope
    rw [hplace]
    exact ⟨h.nodes, h.edges⟩

theorem id_of_mem_valuesOf {place : Nat} {ss : List Step} {id : Option String} {n : Node}
    (h : n ∈ valuesOf id (nodesInto place ss)) :
    n.id = id ∧ ∃ s ∈ ss, s.place = place ∧ s.operation = .node n := by
  have hpair := OrderedMap.mem_valuesOf.mp h
  obtain ⟨s, hs, hnode⟩ := List.mem_filterMap.mp hpair
  obtain ⟨hmem, hplace⟩ := List.mem_filter.mp hs
  cases hop : s.operation with
  | node m =>
    rw [hop] at hnode
    cases hnode
    exact ⟨rfl, s, hmem, of_decide_eq_true hplace, hop⟩
  | _ =>
    rw [hop] at hnode
    cases hnode

/-- What stands under the id of a declared node: the node, or one that was declared later under
this id while the same scope was open. -/
theorem exists_kept (front : List Operation) (n : Node) (rest : List Operation) :
    ∃ kept, (valuesOf n.id (nodesInto (run front).finished.length
        (steps (front ++ .node n :: rest)))).getLast? = some kept ∧
      (kept = n ∨ ∃ between later, rest = between ++ .node kept :: later ∧ kept.id = n.id ∧
        (run (front ++ .node n :: between)).finished = (run front).finished) := by
  have hsteps : steps (front ++ .node n :: rest) =
      steps front ++ [⟨run front, .node n⟩] ++
        stepsFrom (run (front ++ [.node n])) rest := by
    rw [steps, stepsFrom_append, run_concat]
    simp [stepsFrom, steps, run]
  have hvalues : valuesOf n.id (nodesInto (run front).finished.length
      (steps (front ++ .node n :: rest))) =
      valuesOf n.id (nodesInto (run front).finished.length (steps front)) ++ n ::
        valuesOf n.id (nodesInto (run front).finished.length
          (stepsFrom (run (front ++ [.node n])) rest)) := by
    rw [hsteps]
    simp [nodesInto, valuesOf, Step.place, Operation.node?]
  rw [hvalues, List.getLast?_append, List.getLast?_cons]
  cases hlast : (valuesOf n.id (nodesInto (run front).finished.length
      (stepsFrom (run (front ++ [.node n])) rest))).getLast? with
  | none => exact ⟨n, rfl, Or.inl rfl⟩
  | some kept =>
    refine ⟨kept, rfl, Or.inr ?_⟩
    obtain ⟨hid, s, hs, hplace, hop⟩ := id_of_mem_valuesOf (List.mem_of_getLast? hlast)
    obtain ⟨between, later, hrest, hbefore⟩ := mem_stepsFrom hs
    rw [hop] at hrest
    refine ⟨between, later, hrest, hid, ?_⟩
    have hrun : s.before = run (front ++ .node n :: between) := by
      rw [hbefore, runFrom_run]
      simp
    have hfront : (run front).finished <+: (run (front ++ .node n :: between)).finished := by
      rw [← runFrom_run]
      exact finished_runFrom _ _
    have hlength : (run front).finished.length =
        (run (front ++ .node n :: between)).finished.length := by
      rw [← hrun]
      exact hplace.symm
    exact (List.IsPrefix.eq_of_length hfront hlength).symm

/-- **What an assembly keeps of a history, in whatever order its operations come.**  Edges stand in
the order in which they were declared.  A node stands in the scope that was open when it was
declared, until its id is declared again there, and ids stand in the order of their first
declaration.  Finished scopes stay as they are.  A closed scope has the last name that was entered
before, a close without such a name changes nothing, and every scope comes from a close or an end.
-/
theorem run_keeps_history (ops : List Operation) :
    ((run ops).finished.flatMap Scope.edges ++ (run ops).edges = ops.filterMap Operation.edge?) ∧
      (∀ front n rest, ops = front ++ .node n :: rest →
        ∃ scope kept, (run ops).scopes[(run front).finished.length]? = some scope ∧
          scope.nodes.get? n.id = some kept ∧
          (kept = n ∨ ∃ between later, rest = between ++ .node kept :: later ∧ kept.id = n.id ∧
            (run (front ++ .node n :: between)).finished = (run front).finished)) ∧
      (∀ place scope, (run ops).scopes[place]? = some scope →
        scope.nodes.keys = OrderedMap.distinct ((nodesInto place (steps ops)).map Prod.fst) ∧
          ∀ id n, scope.nodes.get? id = some n → n.id = id ∧ (id, n) ∈ nodesInto place (steps ops)) ∧
      (∀ more, (run ops).finished <+: (run (ops ++ more)).finished) ∧
      (∀ place scope, (run ops).finished[place]? = some scope → scope.trailing = false →
        ∃ front rest name, ops = front ++ .close :: rest ∧
          (run front).finished.length = place ∧ (run front).close.1 = some scope ∧
          lastEntered front = some name ∧ name ≠ "" ∧ scope.entity = some name) ∧
      (isNamed (lastEntered ops) = false → (run ops).close = (none, run ops)) ∧
      (run ops).finished.length =
        ((steps ops).filterMap Step.closed?).length + ops.count .finish := by
  have hrecorded := recorded_run ops
  refine ⟨allEdges_run ops, ?_, ?_, ?_, ?_, ?_, hrecorded.count⟩
  · rintro front n rest rfl
    obtain ⟨kept, hlast, hkept⟩ := exists_kept front n rest
    have hle : (run front).finished.length ≤ (run (front ++ .node n :: rest)).finished.length := by
      rw [← runFrom_run]
      exact (finished_runFrom _ _).length_le
    have hlt : (run front).finished.length < (run (front ++ .node n :: rest)).scopes.length := by
      simp only [scopes, List.length_append, List.length_singleton]
      omega
    obtain ⟨hnodes, -⟩ := hrecorded.scope (List.getElem?_eq_getElem hlt)
    refine ⟨_, kept, List.getElem?_eq_getElem hlt, ?_, hkept⟩
    rw [hnodes, OrderedMap.get?_latest, hlast]
  · intro place scope hscope
    obtain ⟨hnodes, -⟩ := hrecorded.scope hscope
    rw [hnodes, OrderedMap.keys_latest]
    refine ⟨rfl, ?_⟩
    intro id n hn
    rw [OrderedMap.get?_latest] at hn
    have hmem := List.mem_of_getLast? hn
    exact ⟨(id_of_mem_valuesOf hmem).1, OrderedMap.mem_valuesOf.mp hmem⟩
  · intro more
    rw [← runFrom_run]
    exact finished_runFrom _ _
  · intro place scope hscope htrailing
    obtain ⟨-, -, front, op, rest, hops, hplace, hentity, hend⟩ :=
      hrecorded.finished place scope hscope
    rcases hend with ⟨-, hfinish⟩ | ⟨hop, -, hnamed, hclosed⟩
    · rw [htrailing] at hfinish
      cases hfinish
    · subst hop
      obtain ⟨name, hname, hne⟩ := exists_name_of_isNamed hnamed
      exact ⟨front, rest, name, hops, hplace, hclosed, hname, hne, hentity.trans hname⟩
  · intro hnamed
    rw [← hrecorded.entity] at hnamed
    exact close_of_not_isNamed hnamed

end Assembly

end FlowAtlas
