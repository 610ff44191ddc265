import FlowAtlas.Proofs.Batch.SourceEffect

/-!
# A source provides its own directory

The first document of a source provides the directory of all of them.  Up to there a source only
reads, so it is processed as if the directory had been there from the start.

Main facts: `MakesAt` with its rules, and `run_processSource_provided`.
-/

namespace FlowAtlas

open Job FileTree

/-! ## Two trees -/

/-- On the session and on the same with another tree the job comes to the same result, and leaves
each tree as it is. -/
def IdlesAt {α : Type} (made : FileTree) (job : Job α) (s : Session) (a : α) : Prop :=
  ∃ u, u.tree = s.tree ∧ Runs job s a u ∧ Runs job { s with tree := made } a { u with tree := made }

/-- On the session and on the same with another tree the job does exactly the same. -/
def MakesAt {α : Type} (made : FileTree) (job : Job α) (s : Session) : Prop :=
  job.run.run s = job.run.run { s with tree := made }

section Rules

variable {α β : Type} {made : FileTree} {s : Session}

theorem idlesAt_pure (a : α) : IdlesAt made (pure a) s a :=
  ⟨s, rfl, runs_pure.mpr ⟨rfl, rfl⟩, runs_pure.mpr ⟨rfl, rfl⟩⟩

theorem idlesAt_logged (x : Logged α) : IdlesAt made (logged x) s x.value :=
  ⟨{ s with log := s.log ++ x.log }, rfl, runs_logged.mpr ⟨rfl, rfl⟩, runs_logged.mpr ⟨rfl, rfl⟩⟩

theorem idlesAt_orStop {ε : Type} {stop : ε → Stop} {result : Except ε α} {a : α}
    (h : result = .ok a) : IdlesAt made (orStop stop result) s a :=
  ⟨s, rfl, runs_orStop.mpr ⟨h, rfl⟩, runs_orStop.mpr ⟨h, rfl⟩⟩

theorem idlesAt_modify_labeller (labeller : Labeller) :
    IdlesAt made (modify fun s => { s with labeller }) s ⟨⟩ :=
  ⟨{ s with labeller }, rfl, runs_modify.mpr rfl, runs_modify.mpr rfl⟩

theorem IdlesAt.bind {x : Job α} {f : α → Job β} {a : α} {b : β} (hx : IdlesAt made x s a)
    (hf : ∀ u, u.tree = s.tree → IdlesAt made (f a) u b) : IdlesAt made (x >>= f) s b := by
  obtain ⟨u, hu, hrun, hrun'⟩ := hx
  obtain ⟨v, hv, hlater, hlater'⟩ := hf u hu
  exact ⟨v, hv.trans hu, runs_bind.mpr ⟨a, u, hrun, hlater⟩, runs_bind.mpr ⟨a, _, hrun', hlater'⟩⟩

theorem IdlesAt.bind_makes {x : Job α} {f : α → Job β} {a : α} (hx : IdlesAt made x s a)
    (hf : ∀ u, u.tree = s.tree → MakesAt made (f a) u) : MakesAt made (x >>= f) s := by
  obtain ⟨u, hu, hrun, hrun'⟩ := hx
  unfold MakesAt
  rw [run_bind_of_runs hrun, run_bind_of_runs hrun']
  exact hf u hu

theorem MakesAt.bind {x : Job α} (h : MakesAt made x s) (f : α → Job β) :
    MakesAt made (x >>= f) s := by
  unfold MakesAt
  rw [run_bind, run_bind, show x.run.run s = _ from h]

theorem makesAt_get_bind {f : Session → Job β} (hsame : f { s with tree := made } = f s)
    (h : MakesAt made (f s) s) : MakesAt made (get >>= f) s := by
  show (f s).run.run s = (f { s with tree := made }).run.run { s with tree := made }
  rw [hsame]
  exact h

end Rules

namespace SourceRun

variable {plan : Plan} {directory source : Path} {made : FileTree} {s : Session}

theorem idlesAt_mapM_graphOf {scopes : List Scope}
    (h : ∀ scope ∈ scopes, none ∉ scope.nodes.keys) (s : Session) :
    IdlesAt made (scopes.mapM graphOf) s (graphsOf scopes) := by
  induction scopes generalizing s with
  | nil =>
    rw [List.mapM_nil]
    exact idlesAt_pure []
  | cons scope scopes ih =>
    obtain ⟨graph, hgraph, -⟩ := Scope.exists_covering_graph (h scope (List.mem_cons_self ..))
    have hfirst : IdlesAt made (graphOf scope) s (scope, graph) :=
      (idlesAt_logged _).bind fun _ _ =>
        (idlesAt_orStop hgraph).bind fun _ _ => idlesAt_pure _
    rw [List.mapM_cons, graphsOf_cons hgraph]
    exact hfirst.bind fun u _ =>
      (ih (fun later hmem => h later (List.mem_cons_of_mem _ hmem)) u).bind
        fun _ _ => idlesAt_pure _

/-- Reading a source goes by its lines alone. -/
theorem idlesAt_ingest {lines : List String} (h : Tables.readLines s.tree source = .ok lines)
    (hmade : Tables.readLines made source = .ok lines) :
    IdlesAt made (start source).ingest s
      { start source with graphs := graphsOf (assembleScopes lines).value } := by
  have hread : ∀ u : Session, u.tree = s.tree →
      IdlesAt made (get >>= fun s => orStop Stop.file (Tables.readLines s.tree source)) u lines := by
    intro u hu
    refine ⟨u, rfl, ?_, ?_⟩
    · exact runs_orStop.mpr ⟨hu ▸ h, rfl⟩
    · exact runs_orStop.mpr ⟨hmade, rfl⟩
  have hscopes := fun scope (hscope : scope ∈ (assembleScopes lines).value) =>
    none_not_mem_keys hscope
  unfold ingest
  refine (idlesAt_logged _).bind fun u hu => ?_
  rw [← bind_assoc]
  refine (hread u hu).bind fun _ _ => (idlesAt_logged _).bind fun v _ => ?_
  exact (idlesAt_mapM_graphOf hscopes v).bind fun _ _ => idlesAt_pure _

theorem makesAt_writeDocument (h : s.tree.provideDirectories directory = (.ok (), made))
    (name text : String) : MakesAt made (writeDocument directory name text) s := by
  obtain ⟨place, hleads⟩ := leadsTo_provideDirectories h
  have hagain : made.provideDirectories directory = (.ok (), made) :=
    hleads.provideDirectories_eq (hasNul_of_provideDirectories h)
  have hprovide : MakesAt made (onTree fun tree => tree.provideDirectories directory) s := by
    have hrun : Runs (onTree fun tree => tree.provideDirectories directory) s ()
        { s with tree := made } := runs_onTree.mpr ⟨made, h, rfl⟩
    have hrun' : Runs (onTree fun tree => tree.provideDirectories directory)
        { s with tree := made } () { s with tree := made } := runs_onTree.mpr ⟨made, hagain, rfl⟩
    exact Eq.trans hrun hrun'.symm
  exact hprovide.bind _

theorem makesAt_exportGraph (hdirectory : plan.directory = some directory)
    (h : s.tree.provideDirectories directory = (.ok (), made)) (scope : Scope)
    (graph : FlowGraph) : MakesAt made (exportGraph plan source scope graph) s := by
  have hfound : plan.directory.elim (.error Stop.noDirectory) Except.ok = .ok directory := by
    rw [hdirectory]
    rfl
  unfold exportGraph
  refine makesAt_get_bind rfl ((idlesAt_logged _).bind_makes fun u hu => ?_)
  refine (idlesAt_modify_labeller _).bind_makes fun v hv => ?_
  refine (idlesAt_orStop hfound).bind_makes fun w hw => ?_
  have hsame : w.tree = s.tree := hw.trans (hv.trans hu)
  exact (makesAt_writeDocument (hsame.symm ▸ h) _ _).bind _

/-- The first export provides the directory. -/
theorem makesAt_exportAll (hdirectory : plan.directory = some directory)
    (h : s.tree.provideDirectories directory = (.ok (), made)) {run : SourceRun}
    (hne : run.graphs ≠ []) : MakesAt made (run.exportAll plan) s := by
  obtain ⟨g, rest, hgraphs⟩ := List.exists_cons_of_ne_nil hne
  have hexports : MakesAt made
      (run.graphs.mapM fun g => exportGraph plan run.source g.1 g.2) s := by
    rw [hgraphs, List.mapM_cons]
    exact (makesAt_exportGraph hdirectory h g.1 g.2).bind _
  exact hexports.bind _

end SourceRun

/-- **A source is processed as if its directory had been there.** -/
theorem run_processSource_provided {plan : Plan} {directory source : Path} {made : FileTree}
    {s : Session} {lines : List String} (hdirectory : plan.directory = some directory)
    (hmade : s.tree.provideDirectories directory = (.ok (), made))
    (hread : Tables.readLines s.tree source = .ok lines) :
    Tables.readLines made source = .ok lines ∧
      (processSource plan source).run.run s =
        (processSource plan source).run.run { s with tree := made } := by
  have hadds : AddsDirectories s.tree made := addsDirectories_of_provided hmade
  have hread' : Tables.readLines made source = .ok lines := by
    unfold Tables.readLines at hread ⊢
    cases hcontent : s.tree.read source with
    | error e =>
      rw [hcontent] at hread
      cases hread
    | ok content =>
      rw [hadds.toExtends.read hcontent, ← hread, hcontent]
  refine ⟨hread', ?_⟩
  have hne : graphsOf (assembleScopes lines).value ≠ [] := by
    intro hnil
    obtain ⟨closed, last, hall, -, -⟩ := exists_closed_trailing lines
    have hscopes : (graphsOf (assembleScopes lines).value).map Prod.fst =
        (assembleScopes lines).value :=
      map_fst_graphsOf fun scope hscope => none_not_mem_keys hscope
    rw [hnil, hall] at hscopes
    simp at hscopes
  have hmakes : MakesAt made (processSource plan source) s := by
    rw [processSource_eq]
    refine (idlesAt_logged _).bind_makes fun u hu => ?_
    refine (SourceRun.idlesAt_ingest (hu.symm ▸ hread) hread').bind_makes fun v hv => ?_
    refine (idlesAt_logged _).bind_makes fun w hw => ?_
    have hsame : w.tree = s.tree := hw.trans (hv.trans hu)
    exact (SourceRun.makesAt_exportAll hdirectory (hsame.symm ▸ hmade) hne).bind _
  exact hmakes

end FlowAtlas
