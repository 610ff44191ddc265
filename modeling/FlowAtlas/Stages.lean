import FlowAtlas.Log

/-!
# Running stages

A run takes a context through stages one after the other.  Every stage is announced before it runs,
and one that gives nothing to go on with ends the run.  The stages may have effects of any kind that
can keep a log.
-/

namespace FlowAtlas

/-- Effects that can keep a log. -/
class MonadLog (m : Type → Type) where
  /-- Make one record. -/
  emit : Level → String → m Unit

instance : MonadLog Logged := ⟨Logged.emit⟩

/-- A stage on contexts of type `γ` with effects of kind `m`. -/
structure Stage (m : Type → Type) (γ : Type) where
  name : String
  /-- The context that the stage leaves, if it leaves one. -/
  run : γ → m (Option γ)

/-- Why a run of stages ends early. -/
inductive StageError
  /-- A stage gave nothing to go on with. -/
  | noContext (stage : String)
deriving DecidableEq

/-- The error's wording. -/
def StageError.message : StageError → String
  | .noContext stage => "Phase '" ++ stage ++ "' must return dict context."

/-- A run that has come to its end. -/
structure StageRun (γ : Type) where
  context : γ
  /-- The names of the stages that were run, in order. -/
  completed : List String

/-- Put a stage in front of a run. -/
def StageRun.after {γ : Type} (stage : String) (run : StageRun γ) : StageRun γ :=
  { run with completed := stage :: run.completed }

/-- Take a context through stages.  `source` is what the context is about, as the announcements name
it. -/
def runStages {m : Type → Type} [Monad m] [MonadLog m] {γ : Type} (source : γ → String) :
    List (Stage m γ) → γ → m (Except StageError (StageRun γ))
  | [], context => pure (.ok ⟨context, []⟩)
  | stage :: rest, context => do
    MonadLog.emit .debug ("Running phase " ++ stage.name ++ " on " ++ source context)
    match ← stage.run context with
    | some next =>
      let run ← runStages source rest next
      pure (run.map (.after stage.name))
    | none => pure (.error (.noContext stage.name))

end FlowAtlas
