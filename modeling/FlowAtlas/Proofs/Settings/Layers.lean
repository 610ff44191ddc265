import FlowAtlas.Program

/-!
# Settings from two layers

The command line lies over the environment: what a switch says counts, whatever the environment
says of it.  But the environment is read and checked as a whole before anything is laid over it.  So
a time limit that cannot be used stops a run from there too, even if the command line gives another.

Main facts: `Arguments.settings_eq` (settings are refused for the first fault, of the environment or
of the command line), `Program.runWith_visible` (what a run gets to see of its settings) and
`same_outcome_iff`.
-/

namespace FlowAtlas

attribute [ext] Settings

/-- A result is what can be computed of it. -/
theorem ok_of_toOption {ε α : Type} {result : Except ε α} {a : α}
    (h : result.toOption = some a) : result = .ok a := by
  cases result with
  | error e => cases h
  | ok b => exact congrArg Except.ok (Option.some.inj h)

/-- A result tells whether there was a fault, and which. -/
theorem eq_of_elim {ε α : Type} {fault fault' : Option ε} {a a' : α}
    (h : fault.elim (Except.ok a) .error = fault'.elim (.ok a') .error) : fault = fault' := by
  cases fault with
  | none =>
    cases fault' with
    | none => rfl
    | some e' => cases h
  | some e =>
    cases fault' with
    | none => cases h
    | some e' => exact congrArg some (Except.error.inj h)

/-! ## Faults -/

namespace Settings

/-- What is wrong with a time limit. -/
def limitFault? (timeout : Binary64) : Option SettingsError :=
  if timeout.isAtMostZero then some (.timeoutNotPositive timeout) else none

/-- What is wrong with an environment. -/
def environmentFault? (env : Environment) : Option SettingsError :=
  match timeoutIn env with
  | .ok timeout => limitFault? timeout
  | .error e => some e

/-- The time limit that an environment sets, if it can be read. -/
def limitIn (env : Environment) : Binary64 := (timeoutIn env).toOption.getD standard.timeout

/-- The settings of an environment, unchecked. -/
def told (env : Environment) : Settings :=
  { standard with
    sourceRoot := ((Variable.sourceRoot.valueIn env).map Path.ofText).getD standard.sourceRoot
    outputDir := ((Variable.outputDir.valueIn env).filter fun text => text ≠ "").map Path.ofText
    actionsDir := ((Variable.actionsDir.valueIn env).map Path.ofText).getD standard.actionsDir
    executable := (Variable.executable.valueIn env).getD standard.executable
    format := (Variable.format.valueIn env).getD standard.format
    timeout := limitIn env }

theorem maxLabelLength_pos (env : Environment) : 0 < (told env).maxLabelLength :=
  (by decide : (0 : Int) < 100)

theorem check_eq {s : Settings} (h : 0 < s.maxLabelLength) :
    s.check = (limitFault? s.timeout).elim (.ok s) .error := by
  unfold check limitFault?
  rw [if_neg (by omega : ¬ s.maxLabelLength ≤ 0)]
  split <;> rfl

theorem timeout_told {env : Environment} {timeout : Binary64} (h : timeoutIn env = .ok timeout) :
    (told env).timeout = timeout := by
  show limitIn env = timeout
  unfold limitIn
  rw [h]
  rfl

theorem ofEnvironment_eq (env : Environment) :
    ofEnvironment env = (environmentFault? env).elim (.ok (told env)) .error := by
  unfold environmentFault?
  cases htimeout : timeoutIn env with
  | error e =>
    unfold ofEnvironment
    rw [htimeout]
    rfl
  | ok timeout =>
    have hchecked : ofEnvironment env = check (told env) := by
      rw [← timeout_told htimeout] at htimeout
      unfold ofEnvironment
      rw [htimeout]
      rfl
    rw [hchecked, check_eq (maxLabelLength_pos env), timeout_told htimeout]

/-- The time limit of an environment without a fault can be used. -/
theorem limitFault?_told {env : Environment} (h : environmentFault? env = none) :
    limitFault? (told env).timeout = none := by
  unfold environmentFault? at h
  cases htimeout : timeoutIn env with
  | error e =>
    rw [htimeout] at h
    cases h
  | ok timeout =>
    rw [htimeout] at h
    rw [timeout_told htimeout]
    exact h

end Settings

namespace Arguments

/-- What is wrong with the settings of a command line. -/
def fault? (a : Arguments) : Option SettingsError :=
  match a.timeout with
  | .unset => .none
  | .void => some .noTimeout
  | .given timeout => Settings.limitFault? timeout

/-- What is found wrong first: the environment is checked before anything is laid over it. -/
def firstFault? (a : Arguments) (env : Settings.Environment) : Option SettingsError :=
  (Settings.environmentFault? env).or a.fault?

/-- The settings of a command line laid over others. -/
def laidOver (a : Arguments) (base : Settings) : Settings :=
  { base with
    sourceRoot := a.sourceRoot.getD base.sourceRoot
    outputDir :=
      match a.outputDir with
      | .given path => some path
      | _ => base.outputDir
    executable := a.executableOr base.executable
    timeout := a.timeout.getD base.timeout }

theorem settings_eq_bind (a : Arguments) (env : Settings.Environment) :
    a.settings env = (Settings.ofEnvironment env).bind fun base =>
      if a.timeout = .void then .error .noTimeout else (a.laidOver base).check := by
  unfold settings
  cases Settings.ofEnvironment env with
  | error e => rfl
  | ok base =>
    by_cases hvoid : a.timeout = .void
    · simp only [hvoid, if_true]
      rfl
    · simp only [hvoid, if_false]
      rfl

/-- **Settings are refused for the first fault**, and without one they are those of the command line
over those of the environment. -/
theorem settings_eq (a : Arguments) (env : Settings.Environment) :
    a.settings env = (a.firstFault? env).elim (.ok (a.laidOver (Settings.told env))) .error := by
  rw [settings_eq_bind, Settings.ofEnvironment_eq]
  unfold firstFault? fault?
  cases henv : Settings.environmentFault? env with
  | some e => rfl
  | none =>
    have hlength : 0 < (a.laidOver (Settings.told env)).maxLabelLength :=
      Settings.maxLabelLength_pos env
    have htimeout : (a.laidOver (Settings.told env)).timeout =
        a.timeout.getD (Settings.told env).timeout := rfl
    rw [Option.elim_none, Except.bind, Option.none_or, Settings.check_eq hlength, htimeout]
    cases hlimit : a.timeout with
    | void => rfl
    | given timeout => rfl
    | unset =>
      -- The limit of the environment has passed its check already.
      have hown : Choice.unset.getD (Settings.told env).timeout =
          (Settings.told env).timeout := rfl
      rw [hown, Settings.limitFault?_told henv]
      rfl

/-! ## What the command line overrides -/

/-- A switch that takes the place of the variable. -/
def Overrides (a : Arguments) : Settings.Variable → Prop
  | .sourceRoot => a.sourceRoot ≠ .unset
  | .outputDir => a.outputDir ≠ .unset
  | .executable => a.executable.getD "" ≠ ""
  | .timeout => a.timeout ≠ .unset
  | .actionsDir | .format => False

/-- Two environments that say the same of all that the command line does not override. -/
def AgreeBeside (a : Arguments) (env env' : Settings.Environment) : Prop :=
  ∀ v : Settings.Variable, ¬ a.Overrides v → v.valueIn env = v.valueIn env'

/-- What is left to see of settings: a switch without a value leaves no path to be used. -/
def visible (a : Arguments) (s : Settings) : Settings :=
  { s with
    sourceRoot := if a.sourceRoot = .void then .here else s.sourceRoot
    outputDir := if a.outputDir = .void then .none else s.outputDir }

/-- What comes of a command line in an environment. -/
def outcome (a : Arguments) (env : Settings.Environment) : Except SettingsError Settings :=
  (a.settings env).map a.visible

section Agreement

variable {a : Arguments} {env env' : Settings.Environment}

theorem outcome_eq (a : Arguments) (env : Settings.Environment) :
    a.outcome env =
      (a.firstFault? env).elim (.ok (a.visible (a.laidOver (Settings.told env)))) .error := by
  unfold outcome
  rw [settings_eq]
  cases a.firstFault? env <;> rfl

theorem AgreeBeside.timeoutIn_eq (h : a.AgreeBeside env env') (hunset : a.timeout = .unset) :
    Settings.timeoutIn env = Settings.timeoutIn env' := by
  unfold Settings.timeoutIn
  rw [h .timeout (fun hover => hover hunset)]

/-- What is seen of settings laid over others depends on these only where nothing is laid. -/
theorem visible_laidOver_congr {base base' : Settings} (hvoid : a.timeout ≠ .void)
    (hroot : a.sourceRoot = .unset → base.sourceRoot = base'.sourceRoot)
    (hdirectory : a.outputDir = .unset → base.outputDir = base'.outputDir)
    (hexecutable : a.executable.getD "" = "" → base.executable = base'.executable)
    (htimeout : a.timeout = .unset → base.timeout = base'.timeout)
    (hrest : { base with
      sourceRoot := base'.sourceRoot
      outputDir := base'.outputDir
      executable := base'.executable
      timeout := base'.timeout } = base') :
    a.visible (a.laidOver base) = a.visible (a.laidOver base') := by
  have hfields := Settings.mk.inj hrest
  obtain ⟨-, -, hactions, -, hengine, hformat, -, hlength, hscale, hlayout⟩ := hfields
  refine Settings.ext ?root ?directory hactions ?executable hengine hformat ?timeout hlength
    hscale hlayout
  case root =>
    show (if a.sourceRoot = .void then Path.here else a.sourceRoot.getD base.sourceRoot) =
      if a.sourceRoot = .void then Path.here else a.sourceRoot.getD base'.sourceRoot
    cases h : a.sourceRoot with
    | unset => rw [hroot h]
    | void => rfl
    | given path => rfl
  case directory =>
    unfold visible laidOver
    cases h : a.outputDir with
    | unset => simp only [hdirectory h]
    | void => rfl
    | given path => rfl
  case executable =>
    show a.executableOr base.executable = a.executableOr base'.executable
    unfold executableOr
    by_cases h : a.executable.getD "" = ""
    · rw [hexecutable h]
    · simp only [h, if_false]
  case timeout =>
    show a.timeout.getD base.timeout = a.timeout.getD base'.timeout
    cases h : a.timeout with
    | unset => rw [htimeout h]
    | void => exact absurd h hvoid
    | given timeout => rfl

/-- The environment makes no difference to what is seen. -/
theorem AgreeBeside.visible_eq (h : a.AgreeBeside env env') (hvoid : a.timeout ≠ .void) :
    a.visible (a.laidOver (Settings.told env)) = a.visible (a.laidOver (Settings.told env')) := by
  refine visible_laidOver_congr hvoid ?root ?directory ?executable ?timeout ?rest
  case root =>
    intro hunset
    unfold Settings.told
    rw [h .sourceRoot (fun hover => hover hunset)]
  case directory =>
    intro hunset
    unfold Settings.told
    rw [h .outputDir (fun hover => hover hunset)]
  case executable =>
    intro hname
    unfold Settings.told
    rw [h .executable (fun hover => hover hname)]
  case timeout =>
    intro hunset
    unfold Settings.told Settings.limitIn
    rw [h.timeoutIn_eq hunset]
  case rest =>
    unfold Settings.told
    rw [h .actionsDir id, h .format id]

theorem AgreeBeside.firstFault?_eq (h : a.AgreeBeside env env') (hunset : a.timeout = .unset) :
    a.firstFault? env = a.firstFault? env' := by
  unfold firstFault? Settings.environmentFault?
  rw [h.timeoutIn_eq hunset]

/-- Both settings are refused for one fault, or both are laid over one another without any. -/
theorem AgreeBeside.outcome_eq_iff (h : a.AgreeBeside env env') :
    a.outcome env = a.outcome env' ↔ a.firstFault? env = a.firstFault? env' := by
  rw [outcome_eq, outcome_eq]
  constructor
  · exact eq_of_elim
  · intro hfault
    rw [← hfault]
    cases hnone : a.firstFault? env with
    | some e => rfl
    | none =>
      have hvoid : a.timeout ≠ .void := by
        intro hvoid
        unfold firstFault? fault? at hnone
        rw [hvoid] at hnone
        exact absurd (Option.or_eq_none_iff.mp hnone).2 (by simp)
      show Except.ok _ = Except.ok _
      rw [h.visible_eq hvoid]

end Agreement

end Arguments

/-! ## Runs -/

section Runs

variable {a : Arguments}

/-- A batch does not look for the directory that its settings name. -/
theorem runBatch_outputDir (settings : Settings) (render : Bool) (directory : Option Path)
    (other : Option Path) (sources : List Path) :
    runBatch ⟨{ settings with outputDir := other }, render, directory⟩ sources =
      runBatch ⟨settings, render, directory⟩ sources := by
  have hclaimed : ∀ owner source : Path,
      processClaimed ⟨{ settings with outputDir := other }, render, directory⟩ owner source =
        processClaimed ⟨settings, render, directory⟩ owner source := fun _ _ => rfl
  unfold runBatch
  generalize (OrderedMap.empty : OrderedMap String Path) = claims
  induction sources generalizing claims with
  | nil => rfl
  | cons source rest ih =>
    unfold runSources
    simp only [hclaimed, ih]

namespace Program

theorem process_outputDir (tree : FileTree) (outcomes : List Outcome) {settings : Settings}
    {other : Option Path}
    (h : a.directory { settings with outputDir := other } = a.directory settings) :
    process tree outcomes a { settings with outputDir := other } =
      process tree outcomes a settings := by
  unfold process finishBatch
  rw [h]
  simp only [runBatch_outputDir]
  rfl

/-- **A run gets to see of its settings what is visible of them.** -/
theorem runWith_visible (tree : FileTree) (outcomes : List Outcome) (a : Arguments)
    (settings : Settings) :
    runWith tree outcomes a (a.visible settings) = runWith tree outcomes a settings := by
  unfold runWith
  split
  · rfl
  · rename_i hroot
    have hvisible : a.visible settings =
        { settings with
          outputDir := if a.outputDir = .void then none else settings.outputDir } := by
      unfold Arguments.visible
      rw [if_neg hroot]
    have hdirectory : a.directory (a.visible settings) = a.directory settings := by
      unfold Arguments.directory
      by_cases hvoid : a.outputDir = .void
      · rw [if_pos hvoid, if_pos hvoid]
      · rw [if_neg hvoid, if_neg hvoid, hvisible, if_neg hvoid]
    rw [hvisible] at hdirectory ⊢
    rw [process_outputDir tree outcomes hdirectory]

/-- A run whose settings are refused does nothing. -/
theorem run_of_refused {words : List String} (hparse : CommandLine.parse words = .ok (.run a))
    {env : Settings.Environment} {e : SettingsError} (h : a.outcome env = .error e)
    (tree : FileTree) (outcomes : List Outcome) :
    run tree env outcomes words = idle tree a [] (.settings e) := by
  unfold run
  rw [hparse]
  unfold Arguments.outcome at h
  cases hsettings : a.settings env with
  | error fault =>
    rw [hsettings] at h
    cases h
    simp only [hsettings]
  | ok settings =>
    rw [hsettings] at h
    cases h

/-- A run whose settings are accepted goes on with what is visible of them. -/
theorem run_of_accepted {words : List String} (hparse : CommandLine.parse words = .ok (.run a))
    {env : Settings.Environment} {seen : Settings} (h : a.outcome env = .ok seen)
    (tree : FileTree) (outcomes : List Outcome) :
    run tree env outcomes words = runWith tree outcomes a seen := by
  unfold run
  rw [hparse]
  unfold Arguments.outcome at h
  cases hsettings : a.settings env with
  | error fault =>
    rw [hsettings] at h
    cases h
  | ok settings =>
    rw [hsettings] at h
    cases h
    simp only [hsettings]
    exact (runWith_visible tree outcomes a settings).symm

/-- A run depends on its environment only through what comes of the command line there. -/
theorem run_eq_of_outcome {words : List String} (hparse : CommandLine.parse words = .ok (.run a))
    {env env' : Settings.Environment} (h : a.outcome env = a.outcome env') (tree : FileTree)
    (outcomes : List Outcome) : run tree env outcomes words = run tree env' outcomes words := by
  cases houtcome : a.outcome env with
  | error e =>
    rw [run_of_refused hparse houtcome, run_of_refused hparse (h ▸ houtcome)]
  | ok seen =>
    rw [run_of_accepted hparse houtcome, run_of_accepted hparse (h ▸ houtcome)]

end Program

end Runs

/-- **Switches override the environment exactly if the same is found wrong first.**  Of two
environments that differ only in variables whose switch is given, a command line makes the same, be
it settings or the reason to refuse them, if and only if their first fault is the same: that of the
environment, or else that of the command line.  So it does if the switch for the time limit is not
given, and if the environments have the same fault or none.  What comes of the command line
determines the whole run. -/
theorem same_outcome_iff {words : List String} {a : Arguments}
    (hparse : CommandLine.parse words = .ok (.run a)) {env env' : Settings.Environment}
    (hagree : a.AgreeBeside env env') :
    (a.outcome env = a.outcome env' ↔ a.firstFault? env = a.firstFault? env') ∧
      (a.timeout = .unset → a.outcome env = a.outcome env') ∧
      (Settings.environmentFault? env = Settings.environmentFault? env' →
        a.outcome env = a.outcome env') ∧
      (a.outcome env = a.outcome env' → ∀ tree outcomes,
        Program.run tree env outcomes words = Program.run tree env' outcomes words) := by
  refine ⟨hagree.outcome_eq_iff, ?_, ?_, ?_⟩
  · intro hunset
    exact hagree.outcome_eq_iff.mpr (hagree.firstFault?_eq hunset)
  · intro hfault
    refine hagree.outcome_eq_iff.mpr ?_
    unfold Arguments.firstFault?
    rw [hfault]
  · intro hsame tree outcomes
    exact Program.run_eq_of_outcome hparse hsame tree outcomes

namespace GivenLimit

/-- A command line that gives a time limit. -/
def words : List String := ["--timeout", "5"]

/-- What it tells. -/
def arguments : Arguments := { Arguments.none with timeout := .given (.ofRatio false 5 1) }

theorem parse_words : CommandLine.parse words = .ok (.run arguments) :=
  ok_of_toOption (by decide +kernel)

/-- An environment with a time limit. -/
def limited (text : String) : Settings.Environment :=
  .ofList [(Settings.Variable.timeout.name, text)]

theorem agreeBeside (text : String) : arguments.AgreeBeside (limited text) .empty := by
  intro v hv
  cases v with
  | timeout => exact absurd (by simp [arguments, Arguments.Overrides]) hv
  | _ => rfl

end GivenLimit

open GivenLimit in
/-- A time limit of the environment gives way to that of the command line. -/
theorem limited_same_outcome :
    CommandLine.parse words = .ok (.run arguments) ∧
      arguments.AgreeBeside (limited "7") .empty ∧
      arguments.outcome (limited "7") = arguments.outcome .empty :=
  ⟨parse_words, agreeBeside "7",
    (same_outcome_iff parse_words (agreeBeside "7")).1.mpr (by decide +kernel)⟩

open GivenLimit in
/-- A time limit of the environment that is no number stops the run although the command line gives
another. -/
theorem not_forall_same_outcome :
    ¬ ∀ (words : List String) (a : Arguments) (env env' : Settings.Environment),
      CommandLine.parse words = .ok (.run a) → a.AgreeBeside env env' →
        a.outcome env = a.outcome env' := by
  intro h
  have hsame := h words arguments (limited "abc") .empty parse_words (agreeBeside "abc")
  have hfault := (agreeBeside "abc").outcome_eq_iff.mp hsame
  exact absurd hfault (by decide +kernel)

end FlowAtlas
