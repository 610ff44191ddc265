import FlowAtlas.Proofs.Batch.Course

/-!
# The log is never read

No job asks for the log of its session.  So whatever the log holds, a source gives the same result
and leaves the same session but for its log, and so does a whole course of sources.

Main facts: `LogFree.bind`, `logFree_processSource` and `Course.withLog`.
-/

namespace FlowAtlas

namespace Job

variable {α β : Type}

/-- With another log the job ends in the same way, and leaves the same session with another log. -/
def LogFree (job : Job α) : Prop :=
  ∀ (s : Session) (log : Log), ∃ log',
    job.run.run { s with log } = ((job.run.run s).1, { (job.run.run s).2 with log := log' })

theorem logFree_pure (a : α) : LogFree (pure a) := fun _ log => ⟨log, rfl⟩

theorem logFree_logged (x : Logged α) : LogFree (logged x) := fun _ log => ⟨log ++ x.log, rfl⟩

theorem logFree_orStop {ε : Type} (stop : ε → Stop) (result : Except ε α) :
    LogFree (orStop stop result) := by
  cases result with
  | ok a => exact logFree_pure a
  | error e => exact fun _ log => ⟨log, rfl⟩

theorem logFree_modify {f : Session → Session}
    (h : ∀ s log, ∃ log', f { s with log } = { f s with log := log' }) : LogFree (modify f) := by
  intro s log
  obtain ⟨log', hf⟩ := h s log
  refine ⟨log', ?_⟩
  show (Except.ok PUnit.unit, f { s with log }) = _
  rw [hf]
  rfl

theorem LogFree.bind {x : Job α} {f : α → Job β} (hx : LogFree x) (hf : ∀ a, LogFree (f a)) :
    LogFree (x >>= f) := by
  intro s log
  obtain ⟨log', hfirst⟩ := hx s log
  rw [run_bind, run_bind, hfirst]
  rcases x.run.run s with ⟨result, middle⟩
  cases result with
  | error stop => exact ⟨log', rfl⟩
  | ok a => exact hf a middle log'

/-- What is asked of the session may be anything but its log. -/
theorem logFree_get_bind {f : Session → Job β} (hf : ∀ s, LogFree (f s))
    (h : ∀ s log, f { s with log } = f s) : LogFree (get >>= f) := by
  intro s log
  obtain ⟨log', hrun⟩ := hf s s log
  refine ⟨log', ?_⟩
  rw [run_bind, run_bind]
  show (f { s with log }).run.run { s with log } = _
  rw [h, hrun]
  rfl

theorem logFree_onTree (change : FileTree → Except FileError Unit × FileTree) :
    LogFree (onTree change) := by
  refine logFree_get_bind (fun s => ?_) fun _ _ => rfl
  rcases change s.tree with ⟨result, tree⟩
  have hset : LogFree (modify fun s : Session => { s with tree }) :=
    logFree_modify fun _ log => ⟨log, rfl⟩
  exact hset.bind fun _ => logFree_orStop _ _

theorem logFree_mapM {f : α → Job β} (hf : ∀ a, LogFree (f a)) (as : List α) :
    LogFree (as.mapM f) := by
  induction as with
  | nil =>
    rw [List.mapM_nil]
    exact logFree_pure []
  | cons a as ih =>
    rw [List.mapM_cons]
    exact (hf a).bind fun b => ih.bind fun bs => logFree_pure (b :: bs)

end Job

open Job

/-! ## The stages -/

namespace SourceRun

theorem logFree_ingest (run : SourceRun) : LogFree run.ingest := by
  have hgraphOf : ∀ scope, LogFree (graphOf scope) := fun scope =>
    (logFree_logged _).bind fun _ => (logFree_orStop _ _).bind fun _ => logFree_pure _
  refine (logFree_logged _).bind fun _ => logFree_get_bind (fun s => ?_) fun _ _ => rfl
  refine (logFree_orStop _ _).bind fun lines => (logFree_logged _).bind fun scopes => ?_
  exact (logFree_mapM hgraphOf scopes).bind fun _ => logFree_pure _

theorem logFree_writeDocument (directory : Path) (name text : String) :
    LogFree (writeDocument directory name text) := by
  refine (logFree_onTree _).bind fun _ => (logFree_logged _).bind fun _ => ?_
  exact (logFree_onTree _).bind fun _ => logFree_pure _

theorem logFree_exportGraph (plan : Plan) (source : Path) (scope : Scope) (graph : FlowGraph) :
    LogFree (exportGraph plan source scope graph) := by
  refine logFree_get_bind (fun s => ?_) fun _ _ => rfl
  refine (logFree_logged _).bind fun serialized => ?_
  obtain ⟨text, labeller⟩ := serialized
  have hnoted : LogFree (modify fun s : Session => { s with labeller }) :=
    logFree_modify fun _ log => ⟨log, rfl⟩
  refine hnoted.bind fun _ => (logFree_orStop _ _).bind fun directory => ?_
  exact (logFree_writeDocument _ _ _).bind fun _ => logFree_pure _

theorem logFree_exportAll (plan : Plan) (run : SourceRun) : LogFree (run.exportAll plan) := by
  have hexport : ∀ g : Scope × FlowGraph, LogFree (exportGraph plan run.source g.1 g.2) :=
    fun g => logFree_exportGraph plan run.source g.1 g.2
  unfold exportAll
  refine (logFree_mapM hexport _).bind fun exports => ?_
  refine logFree_get_bind (fun s => ?_) fun _ _ => rfl
  exact (logFree_logged _).bind fun _ => logFree_pure _

theorem logFree_draw (plan : Plan) (run : SourceRun) : LogFree (run.draw plan) := by
  unfold draw
  split_ifs
  · refine logFree_get_bind (fun s => ?_) fun _ _ => rfl
    refine (logFree_logged _).bind fun made => ?_
    obtain ⟨drawings, renderer⟩ := made
    have hcalled : LogFree (modify fun s : Session => { s with renderer }) :=
      logFree_modify fun _ log => ⟨log, rfl⟩
    exact hcalled.bind fun _ => (logFree_orStop _ _).bind fun _ => logFree_pure _
  · exact logFree_pure run

end SourceRun

theorem logFree_processSource (plan : Plan) (source : Path) :
    LogFree (processSource plan source) := by
  rw [processSource_eq]
  refine (logFree_logged _).bind fun _ => (SourceRun.logFree_ingest _).bind fun read => ?_
  refine (logFree_logged _).bind fun _ => (SourceRun.logFree_exportAll plan read).bind
    fun wrote => ?_
  refine (logFree_logged _).bind fun _ => (SourceRun.logFree_draw plan wrote).bind fun drew => ?_
  exact (logFree_logged _).bind fun _ => logFree_pure _

/-! ## Whole courses -/

section Course

variable {plan : Plan} {source : Path} {owner : Option Path} {before after : Session}

/-- The same is entered for a source whatever the log holds. -/
theorem Visit.withLog {verdict : Verdict} (h : Visit plan source owner before verdict after)
    (log : Log) : ∃ log',
      Visit plan source owner { before with log } verdict { after with log := log' } := by
  cases h with
  | processed run =>
    obtain ⟨log', hrun⟩ := logFree_processSource plan source before log
    rw [show (processSource plan source).run.run before = _ from run] at hrun
    exact ⟨log', .processed hrun⟩
  | failed run =>
    obtain ⟨log', hrun⟩ := logFree_processSource plan source before log
    rw [run] at hrun
    have hfailed := Visit.failed hrun
    exact ⟨_, hfailed⟩
  | refused other => exact ⟨_, .refused other⟩

theorem Course.withLog {owner : String → Option Path} {entries : List (Path × Verdict)}
    (h : Course plan owner before entries after) (log : Log) :
    ∃ log', Course plan owner { before with log } entries { after with log := log' } := by
  induction h generalizing log with
  | nil s => exact ⟨log, .nil _⟩
  | cons visit _ ih =>
    obtain ⟨log₁, hvisit⟩ := visit.withLog log
    obtain ⟨log₂, hrest⟩ := ih log₁
    exact ⟨log₂, .cons hvisit hrest⟩

end Course

end FlowAtlas
