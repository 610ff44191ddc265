import FlowAtlas.Proofs.Batch.Documents

/-!
# What a source leaves even if it fails

A job that stops keeps what it has done.  So where every part of a job takes the file tree on by
steps of some kind, the whole job does, however it ends.  In this way a source writes documents that
are named after it and nothing else, whether it is processed or fails on the way.

Main facts: `Keeps.bind`, `keeps_runStages` and `keeps_processSource`.
-/

namespace FlowAtlas

open FileTree

namespace Job

variable {α β γ : Type} {R : FileTree → FileTree → Prop}

/-- However the job ends, it takes the file tree on by the given relation. -/
def Keeps (R : FileTree → FileTree → Prop) (job : Job α) : Prop :=
  ∀ before : Session, R before.tree (job.run.run before).2.tree

/-- Steps of this kind can be put one behind the other. -/
structure Composes (R : FileTree → FileTree → Prop) : Prop where
  refl : ∀ tree, R tree tree
  trans : ∀ {a b c}, R a b → R b c → R a c

/-- A job goes on as its first part has left the tree; what follows may use that this part ran. -/
theorem Keeps.bind (hR : Composes R) {x : Job α} {f : α → Job β} (hx : Keeps R x)
    (hf : ∀ a before middle, Runs x before a middle → Keeps R (f a)) : Keeps R (x >>= f) := by
  intro before
  have hfirst := hx before
  rw [run_bind]
  rcases hrun : x.run.run before with ⟨result, middle⟩
  rw [hrun] at hfirst
  cases result with
  | error stop => exact hfirst
  | ok a => exact hR.trans hfirst (hf a before middle hrun middle)

theorem Keeps.map (hR : Composes R) {x : Job α} (hx : Keeps R x) (f : α → β) :
    Keeps R (f <$> x) := by
  rw [map_eq_pure_bind]
  exact hx.bind hR fun a _ _ _ before => hR.refl before.tree

section Idle

variable (hR : Composes R)
include hR

theorem keeps_pure (a : α) : Keeps R (pure a) := fun before => hR.refl before.tree

theorem keeps_get : Keeps R get := fun before => hR.refl before.tree

theorem keeps_modify {f : Session → Session} (h : ∀ s, (f s).tree = s.tree) :
    Keeps R (modify f) := by
  intro before
  show R before.tree (f before).tree
  rw [h]
  exact hR.refl before.tree

theorem keeps_logged (x : Logged α) : Keeps R (logged x) := fun before => hR.refl before.tree

theorem keeps_orStop {ε : Type} (stop : ε → Stop) (result : Except ε α) :
    Keeps R (orStop stop result) := by
  cases result with
  | ok a => exact keeps_pure hR a
  | error e => exact fun before => hR.refl before.tree

end Idle

/-- The change of the tree stays, whatever comes of it. -/
theorem keeps_onTree {change : FileTree → Except FileError Unit × FileTree}
    (h : ∀ tree, R tree (change tree).2) : Keeps R (onTree change) := by
  intro before
  have htree : ((onTree change).run.run before).2.tree = (change before.tree).2 := by
    show ((orStop Stop.file (change before.tree).1).run.run
      { before with tree := (change before.tree).2 }).2.tree = _
    cases (change before.tree).1 <;> rfl
  rw [htree]
  exact h before.tree

theorem keeps_mapM (hR : Composes R) {f : α → Job β} (hf : ∀ a, Keeps R (f a)) (as : List α) :
    Keeps R (as.mapM f) := by
  induction as with
  | nil =>
    rw [List.mapM_nil]
    exact keeps_pure hR []
  | cons a as ih =>
    rw [List.mapM_cons]
    refine (hf a).bind hR fun b _ _ _ => ?_
    exact ih.bind hR fun bs _ _ _ => keeps_pure hR (b :: bs)

/-- A run of stages, if every stage does so and hands on a context as the next one needs it. -/
theorem keeps_runStages (hR : Composes R) {source : γ → String} {Fits : γ → Prop}
    {stages : List (Stage Job γ)}
    (hstages : ∀ stage ∈ stages, ∀ context, Fits context → Keeps R (stage.run context) ∧
      ∀ before next after, Runs (stage.run context) before (some next) after → Fits next)
    {context : γ} (hcontext : Fits context) : Keeps R (runStages source stages context) := by
  induction stages generalizing context with
  | nil => exact keeps_pure hR _
  | cons stage rest ih =>
    obtain ⟨hstage, hnext⟩ := hstages stage (List.mem_cons_self ..) context hcontext
    refine (keeps_logged hR _).bind hR fun _ _ _ _ => ?_
    refine hstage.bind hR fun left before after hrun => ?_
    cases left with
    | none => exact keeps_pure hR _
    | some next =>
      have hlater : ∀ later ∈ rest, ∀ context, Fits context → Keeps R (later.run context) ∧
          ∀ before next after, Runs (later.run context) before (some next) after → Fits next :=
        fun later hmem => hstages later (List.mem_cons_of_mem _ hmem)
      exact (ih hlater (hnext before next after hrun)).bind hR fun run _ _ _ => keeps_pure hR _

end Job

open Job

/-! ## Documents of a source -/

/-- Some documents that are named after the source have been written, and nothing else. -/
def Wrote (plan : Plan) (source : Path) (before after : FileTree) : Prop :=
  ∃ documents, (∀ d ∈ documents, NamedAfter plan source d) ∧ Written before documents after

theorem composes_wrote (plan : Plan) (source : Path) : Composes (Wrote plan source) := by
  refine ⟨fun tree => ⟨[], by simp, .nil tree⟩, ?_⟩
  rintro a b c ⟨first, hfirst, hab⟩ ⟨second, hsecond, hbc⟩
  refine ⟨first ++ second, ?_, hab.append hbc⟩
  intro d hd
  rcases List.mem_append.mp hd with hd | hd
  · exact hfirst d hd
  · exact hsecond d hd

namespace SourceRun

variable {plan : Plan} {source : Path}

/-- A write that fails leaves the tree as it is, and one that succeeds leaves one document. -/
theorem wrote_write {directory : Path} (hdirectory : plan.directory = some directory)
    (scope : Scope) (graph : FlowGraph) (text : String) (tree : FileTree) :
    Wrote plan source tree
      (tree.write (documentPath directory (Dot.documentName source scope))
        (Text.Utf8.encode text.toList)).2 := by
  rcases hwrite : tree.write (documentPath directory (Dot.documentName source scope))
    (Text.Utf8.encode text.toList) with ⟨result, after⟩
  cases result with
  | ok done =>
    obtain ⟨hnul, location, hlocate, hentry, htree⟩ := write_eq_ok hwrite
    let d : Document :=
      ⟨scope, graph, documentPath directory (Dot.documentName source scope), location, text⟩
    have hwritten : Written tree [d] after :=
      .cons (Extends.refl tree) hnul hlocate hentry htree (.nil after)
    refine ⟨[d], ?_, hwritten⟩
    intro e he
    rw [List.mem_singleton.mp he]
    exact ⟨directory, hdirectory, rfl⟩
  | error e =>
    have hafter : after = tree := eq_of_write_eq_error hwrite
    rw [hafter]
    exact (composes_wrote plan source).refl tree

theorem keeps_writeDocument {directory : Path} (hdirectory : plan.directory = some directory)
    (scope : Scope) (graph : FlowGraph) (text : String) :
    Keeps (Wrote plan source)
      (writeDocument directory (Dot.documentName source scope) text) := by
  have hR := composes_wrote plan source
  have hprovide : ∀ tree : FileTree,
      Wrote plan source tree (tree.provideDirectories directory).2 := fun tree =>
    ⟨[], by simp, .of_extends (extends_provideDirectories tree directory)⟩
  refine (keeps_onTree hprovide).bind hR fun _ _ _ _ => ?_
  refine (keeps_logged hR _).bind hR fun _ _ _ _ => ?_
  refine (keeps_onTree (wrote_write hdirectory scope graph text)).bind hR fun _ _ _ _ => ?_
  exact keeps_pure hR _

theorem keeps_exportGraph (scope : Scope) (graph : FlowGraph) :
    Keeps (Wrote plan source) (exportGraph plan source scope graph) := by
  have hR := composes_wrote plan source
  refine (keeps_get hR).bind hR fun _ _ _ _ => ?_
  refine (keeps_logged hR _).bind hR fun serialized _ _ _ => ?_
  obtain ⟨text, labeller⟩ := serialized
  have hnoted : ∀ s : Session, { s with labeller }.tree = s.tree := fun _ => rfl
  refine (keeps_modify hR hnoted).bind hR fun _ _ _ _ => ?_
  refine (keeps_orStop hR _ _).bind hR fun directory _ _ hrun => ?_
  have hdirectory : plan.directory = some directory := by
    obtain ⟨hok, -⟩ := runs_orStop.mp hrun
    cases hplan : plan.directory with
    | none =>
      rw [hplan] at hok
      cases hok
    | some known =>
      rw [hplan] at hok
      cases hok
      rfl
  refine (keeps_writeDocument hdirectory scope graph text).bind hR fun _ _ _ _ => ?_
  exact keeps_pure hR _

theorem keeps_exportAll (run : SourceRun) : Keeps (Wrote plan run.source) (run.exportAll plan) := by
  have hR := composes_wrote plan run.source
  have hexport : ∀ g : Scope × FlowGraph,
      Keeps (Wrote plan run.source) (exportGraph plan run.source g.1 g.2) :=
    fun g => keeps_exportGraph g.1 g.2
  unfold exportAll
  refine (keeps_mapM hR hexport run.graphs).bind hR fun exports _ _ _ => ?_
  refine (keeps_get hR).bind hR fun _ _ _ _ => (keeps_logged hR _).bind hR fun _ _ _ _ => ?_
  exact keeps_pure hR _

theorem keeps_ingest (run : SourceRun) : Keeps (Wrote plan source) run.ingest := by
  have hR := composes_wrote plan source
  have hgraphOf : ∀ scope, Keeps (Wrote plan source) (graphOf scope) := by
    intro scope
    refine (keeps_logged hR scope.graph).bind hR fun graph _ _ _ => ?_
    exact (keeps_orStop hR _ graph).bind hR fun _ _ _ _ => keeps_pure hR _
  unfold ingest
  refine (keeps_logged hR _).bind hR fun _ _ _ _ => (keeps_get hR).bind hR fun s _ _ _ => ?_
  refine (keeps_orStop hR Stop.file (Tables.readLines s.tree run.source)).bind hR
    fun lines _ _ _ => ?_
  refine (keeps_logged hR (assembleScopes lines)).bind hR fun scopes _ _ _ => ?_
  exact (keeps_mapM hR hgraphOf scopes).bind hR fun _ _ _ _ => keeps_pure hR _

theorem keeps_draw (run : SourceRun) : Keeps (Wrote plan source) (run.draw plan) := by
  have hR := composes_wrote plan source
  unfold draw
  split_ifs
  · refine (keeps_get hR).bind hR fun _ _ _ _ => (keeps_logged hR _).bind hR fun made _ _ _ => ?_
    obtain ⟨drawings, renderer⟩ := made
    have hcalled : ∀ s : Session, { s with renderer }.tree = s.tree := fun _ => rfl
    refine (keeps_modify hR hcalled).bind hR fun _ _ _ _ => ?_
    exact (keeps_orStop hR _ _).bind hR fun _ _ _ _ => keeps_pure hR _
  · exact keeps_pure hR run

theorem source_of_runs_exportAll {run next : SourceRun} {before after : Session}
    (h : Runs (run.exportAll plan) before next after) : next.source = run.source := by
  unfold exportAll at h
  simp only [runs_bind, runs_pure] at h
  obtain ⟨_, _, -, _, _, -, _, _, -, rfl, -⟩ := h
  rfl

theorem source_of_runs_draw {run next : SourceRun} {before after : Session}
    (h : Runs (run.draw plan) before next after) : next.source = run.source := by
  unfold draw at h
  split_ifs at h
  · simp only [runs_bind, runs_pure] at h
    obtain ⟨_, _, -, _, _, -, _, _, -, _, _, -, rfl, -⟩ := h
    rfl
  · obtain ⟨rfl, -⟩ := runs_pure.mp h
    rfl

end SourceRun

/-- **A source writes documents named after it and nothing else**, whether it is processed or fails.
-/
theorem keeps_processSource (plan : Plan) (source : Path) :
    Keeps (Wrote plan source) (processSource plan source) := by
  have hR := composes_wrote plan source
  have hstages : ∀ stage ∈ SourceRun.stages plan, ∀ run : SourceRun, run.source = source →
      Keeps (Wrote plan source) (stage.run run) ∧
        ∀ before next after, Runs (stage.run run) before (some next) after →
          next.source = source := by
    -- every stage hands on the source that documents are named after
    intro stage hstage run hrun
    unfold SourceRun.stages at hstage
    simp only [List.mem_cons, List.not_mem_nil, or_false] at hstage
    rcases hstage with rfl | rfl | rfl | rfl
    · refine ⟨(SourceRun.keeps_ingest run).map hR some, ?_⟩
      intro before next after hnext
      obtain ⟨read, hread, hsome⟩ := runs_map.mp hnext
      cases hsome
      obtain ⟨_, -, hsource, -⟩ := SourceRun.runs_ingest hread
      exact hsource.trans hrun
    · refine ⟨?_, ?_⟩
      · have hwrote : Keeps (Wrote plan run.source) (run.exportAll plan) :=
          SourceRun.keeps_exportAll run
        rw [hrun] at hwrote
        exact hwrote.map hR some
      · intro before next after hnext
        obtain ⟨wrote, hwrote, hsome⟩ := runs_map.mp hnext
        cases hsome
        exact (SourceRun.source_of_runs_exportAll hwrote).trans hrun
    · refine ⟨(SourceRun.keeps_draw run).map hR some, ?_⟩
      intro before next after hnext
      obtain ⟨drew, hdrew, hsome⟩ := runs_map.mp hnext
      cases hsome
      exact (SourceRun.source_of_runs_draw hdrew).trans hrun
    · refine ⟨keeps_pure hR _, ?_⟩
      intro before next after hnext
      obtain ⟨hsome, -⟩ := runs_pure.mp hnext
      cases hsome
      exact hrun
  refine (keeps_runStages hR hstages rfl).bind hR fun outcome _ _ _ => ?_
  exact (keeps_orStop hR _ _).bind hR fun _ _ _ _ => keeps_pure hR _

end FlowAtlas
