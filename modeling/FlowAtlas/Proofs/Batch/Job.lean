import FlowAtlas.Batch

/-!
# Jobs that succeed

What it means that a job runs to its end, and what this says of its parts.  A job made of others is
taken apart by `runs_bind`, one made over a list by `runs_mapM_cons`, and stages by
`runs_runStages_cons`.
-/

namespace FlowAtlas

namespace Job

variable {α β : Type} {before after : Session}

/-- The job, done on one session, succeeds with a result and leaves another session. -/
def Runs (job : Job α) (before : Session) (result : α) (after : Session) : Prop :=
  job.run.run before = (.ok result, after)

theorem Runs.unique {job : Job α} {a a' : α} {after' : Session} (h : Runs job before a after)
    (h' : Runs job before a' after') : a = a' ∧ after = after' := by
  have hboth : (Except.ok a, after) = ((Except.ok a', after') : Except Stop α × Session) :=
    Eq.trans (Eq.symm h) h'
  cases hboth
  exact ⟨rfl, rfl⟩

theorem exists_runs_of_map {job : Job α} {f : α → β} {b : β}
    (h : (job.run.run before).1.toOption.map f = some b) :
    ∃ a after, Runs job before a after ∧ f a = b := by
  unfold Runs
  rcases hrun : job.run.run before with ⟨result, after⟩
  rw [hrun] at h
  cases result with
  | error stop => cases h
  | ok a => exact ⟨a, after, rfl, Option.some.inj h⟩

theorem runs_pure {a b : α} : Runs (pure a) before b after ↔ b = a ∧ after = before := by
  constructor
  · intro h
    cases h
    exact ⟨rfl, rfl⟩
  · rintro ⟨rfl, rfl⟩
    rfl

/-- A job that goes on with the result of another is done on what that one leaves. -/
theorem run_bind (x : Job α) (f : α → Job β) (before : Session) :
    (x >>= f).run.run before =
      match x.run.run before with
      | (.ok a, middle) => (f a).run.run middle
      | (.error stop, middle) => (.error stop, middle) := by
  show (ExceptT.bindCont f (x.run.run before).1) (x.run.run before).2 = _
  rcases x.run.run before with ⟨result, middle⟩
  cases result <;> rfl

/-- A job that goes on with the result of another runs if both run. -/
theorem runs_bind {x : Job α} {f : α → Job β} {b : β} :
    Runs (x >>= f) before b after ↔
      ∃ a middle, Runs x before a middle ∧ Runs (f a) middle b after := by
  unfold Runs
  rw [run_bind]
  constructor
  · intro h
    rcases hx : x.run.run before with ⟨result, middle⟩
    rw [hx] at h
    cases result with
    | error stop => cases h
    | ok a => exact ⟨a, middle, rfl, h⟩
  · rintro ⟨a, middle, hx, hf⟩
    rw [hx]
    exact hf

theorem run_bind_of_runs {x : Job α} {f : α → Job β} {a : α} {middle : Session}
    (h : Runs x before a middle) : (x >>= f).run.run before = (f a).run.run middle := by
  rw [run_bind, show x.run.run before = _ from h]

/-- What follows a job that stops is not done. -/
theorem run_bind_of_stop {x : Job α} {f : α → Job β} {stop : Stop} {middle : Session}
    (h : x.run.run before = (.error stop, middle)) :
    (x >>= f).run.run before = (.error stop, middle) := by
  rw [run_bind, h]

theorem runs_map {x : Job α} {f : α → β} {b : β} :
    Runs (f <$> x) before b after ↔ ∃ a, Runs x before a after ∧ b = f a := by
  rw [map_eq_pure_bind, runs_bind]
  constructor
  · rintro ⟨a, middle, hx, hf⟩
    obtain ⟨rfl, rfl⟩ := runs_pure.mp hf
    exact ⟨a, hx, rfl⟩
  · rintro ⟨a, hx, rfl⟩
    exact ⟨a, after, hx, runs_pure.mpr ⟨rfl, rfl⟩⟩

theorem runs_get {s : Session} : Runs get before s after ↔ s = before ∧ after = before := by
  constructor
  · intro h
    cases h
    exact ⟨rfl, rfl⟩
  · rintro ⟨rfl, rfl⟩
    rfl

theorem runs_modify {f : Session → Session} {done : PUnit} :
    Runs (modify f) before done after ↔ after = f before := by
  constructor
  · intro h
    cases h
    rfl
  · rintro rfl
    rfl

theorem runs_logged {x : Logged α} {a : α} :
    Runs (logged x) before a after ↔
      a = x.value ∧ after = { before with log := before.log ++ x.log } := by
  constructor
  · intro h
    cases h
    exact ⟨rfl, rfl⟩
  · rintro ⟨rfl, rfl⟩
    rfl

theorem runs_orStop {ε : Type} {stop : ε → Stop} {result : Except ε α} {a : α} :
    Runs (orStop stop result) before a after ↔ result = .ok a ∧ after = before := by
  cases result with
  | ok value =>
    rw [orStop, runs_pure, Except.ok.injEq, eq_comm]
  | error e =>
    constructor
    · intro h
      cases h
    · rintro ⟨h, -⟩
      cases h

theorem runs_onTree {change : FileTree → Except FileError Unit × FileTree} {done : Unit} :
    Runs (onTree change) before done after ↔
      ∃ tree, change before.tree = (.ok (), tree) ∧ after = { before with tree } := by
  unfold onTree
  simp only [runs_bind, runs_get, runs_modify, runs_orStop]
  constructor
  · rintro ⟨_, s, ⟨rfl, rfl⟩, _, _, rfl, hresult, rfl⟩
    refine ⟨(change s.tree).2, ?_, rfl⟩
    rw [← hresult]
  · rintro ⟨tree, hchange, rfl⟩
    refine ⟨before, before, ⟨rfl, rfl⟩, ⟨⟩, _, rfl, ?_⟩
    rw [hchange]
    exact ⟨rfl, rfl⟩

theorem runs_mapM_nil {f : α → Job β} {bs : List β} :
    Runs ([].mapM f) before bs after ↔ bs = [] ∧ after = before := by
  rw [List.mapM_nil, runs_pure]

theorem runs_mapM_cons {f : α → Job β} {a : α} {as : List α} {bs : List β} :
    Runs ((a :: as).mapM f) before bs after ↔
      ∃ b middle rest, Runs (f a) before b middle ∧ Runs (as.mapM f) middle rest after ∧
        bs = b :: rest := by
  rw [List.mapM_cons]
  simp only [runs_bind, runs_pure]
  constructor
  · rintro ⟨b, middle, hb, rest, _, hrest, rfl, rfl⟩
    exact ⟨b, middle, rest, hb, hrest, rfl⟩
  · rintro ⟨b, middle, rest, hb, hrest, rfl⟩
    exact ⟨b, middle, hb, rest, _, hrest, rfl, rfl⟩

section Stages

variable {γ : Type} {source : γ → String}

theorem runs_runStages_nil {context : γ} {result : Except StageError (StageRun γ)} :
    Runs (runStages source [] context) before result after ↔
      result = .ok ⟨context, []⟩ ∧ after = before :=
  runs_pure

/-- A run of stages that comes to its end runs the first stage, which leaves a context for the
others. -/
theorem runs_runStages_cons {stage : Stage Job γ} {rest : List (Stage Job γ)} {context : γ}
    {run : StageRun γ} :
    Runs (runStages source (stage :: rest) context) before (.ok run) after ↔
      ∃ next middle later,
        Runs (stage.run context)
          { before with
            log := before.log ++
              [⟨.debug, "Running phase " ++ stage.name ++ " on " ++ source context⟩] }
          (some next) middle ∧
        Runs (runStages source rest next) middle (.ok later) after ∧
        run = later.after stage.name := by
  rw [runStages, runs_bind]
  simp only [runs_bind]
  constructor
  · rintro ⟨_, announced, hemit, left, middle, hstage, hrest⟩
    obtain ⟨-, rfl⟩ := runs_logged.mp hemit
    cases left with
    | none =>
      obtain ⟨hresult, -⟩ := runs_pure.mp hrest
      cases hresult
    | some next =>
      obtain ⟨result, _, hrest, hpure⟩ := runs_bind.mp hrest
      obtain ⟨hresult, rfl⟩ := runs_pure.mp hpure
      cases result with
      | error e => cases hresult
      | ok later => exact ⟨next, middle, later, hstage, hrest, Except.ok.inj hresult⟩
  · rintro ⟨next, middle, later, hstage, hrest, rfl⟩
    refine ⟨(), _, runs_logged.mpr ⟨rfl, rfl⟩, some next, middle, hstage, ?_⟩
    exact runs_bind.mpr ⟨.ok later, after, hrest, runs_pure.mpr ⟨rfl, rfl⟩⟩

end Stages

end Job

end FlowAtlas
