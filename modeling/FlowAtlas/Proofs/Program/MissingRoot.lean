import FlowAtlas.Proofs.Batch.Images
import FlowAtlas.Proofs.Program.Counts
import FlowAtlas.Proofs.Settings.Layers
import FlowAtlas.Proofs.Tables.OwnFiles

/-!
# Runs that end before their batch

A run looks before it works: at its words, at its settings, for its root, for its sources and for
its tables.  Where one of these is refused, nothing has been written or called.  A root that is not
there is refused as what is not found.  The system gives the same cause for every source that is
missing and for every directory that cannot be made, but this is caught in the batch, and what comes
before the batch fails only for a path that is no path.  So a run ends for what is not found exactly
if its root is not there; and if the name of the root is too long, the run ends for that.

Main facts: `stopsOnly_runBatch` (a batch stops for no failure of the system), `process_cases` and
`Program.notFound_iff`.
-/

namespace FlowAtlas

open Job

/-! ## Endings -/

/-- The run ended because something was not found. -/
inductive Ending.IsNotFound : Ending → Prop
  | root (path : Path) : IsNotFound (.failed (.rootMissing path))
  | system {e : SystemError} (h : e.number = 2) :
      IsNotFound (.failed (.stopped (.file (.system e))))

/-- The run was asked for help, its words or settings were refused, its root was not there, or the
system refused something. -/
inductive Ending.IsEarly : Ending → Prop
  | help : IsEarly .help
  | refused (e : UsageError) : IsEarly (.refused e)
  | settings (e : SettingsError) : IsEarly (.failed (.settings e))
  | noRoot : IsEarly (.failed .noRoot)
  | rootMissing (path : Path) : IsEarly (.failed (.rootMissing path))
  | system (e : SystemError) : IsEarly (.failed (.stopped (.file (.system e))))

theorem Ending.IsNotFound.isEarly {ending : Ending} (h : ending.IsNotFound) : ending.IsEarly := by
  cases h with
  | root path => exact .rootMissing path
  | system _ => exact .system _

/-- The run has changed no file, has called nothing and has printed nothing. -/
structure ProgramRun.Untouched (left : ProgramRun) (tree : FileTree) : Prop where
  tree : left.tree = tree
  calls : left.calls = []
  printed : left.printed = []

/-! ## Batches -/

/-- A failure of the system is caught. -/
theorem stopsOnly_attempt_of_any {α : Type} (job : Job α) :
    StopsOnly (fun stop => ¬ stop.IsSystem) (attempt job) := by
  intro before stop after hrun
  rw [run_attempt] at hrun
  split at hrun
  · cases hrun
  · cases hrun
  · rename_i cause middle hcause hjob
    cases hrun
    rintro ⟨e, rfl⟩
    exact hcause e rfl

/-- **No failure of the system stops a batch**, whatever its sources and its directory are. -/
theorem stopsOnly_runBatch (plan : Plan) (sources : List Path) :
    StopsOnly (fun stop => ¬ stop.IsSystem) (runBatch plan sources) :=
  stopsOnly_runSources_of_attempt (fun _ => stopsOnly_attempt_of_any _) .empty sources

/-! ## Paths that are refused -/

/-- The path is none that the system can be asked for: it holds a NUL, or it is too long. -/
def FileError.RefusesPath (e : FileError) : Prop :=
  e = .nulInPath ∨ ∃ path, e = .system (Fault.nameTooLong.on path)

theorem FileError.RefusesPath.number_ne {e : SystemError} (h : (FileError.system e).RefusesPath) :
    e.number ≠ 2 := by
  rcases h with h | ⟨path, h⟩
  · cases h
  · cases h
    show (36 : Int) ≠ 2
    decide

namespace FileTree

variable {tree : FileTree} {path : Path} {e : SystemError}

theorem isDirectory_eq_true_iff : tree.isDirectory path = .ok true ↔
    path.hasNul = false ∧ ∃ location, LeadsTo tree path location := by
  constructor
  · intro h
    exact ⟨hasNul_of_isDirectory h, leadsTo_of_isDirectory h⟩
  · rintro ⟨hnul, location, hleads⟩
    exact hleads.isDirectory hnul

theorem eq_nameTooLong_of_isDirectory (h : tree.isDirectory path = .error e) :
    e = Fault.nameTooLong.on path := by
  unfold isDirectory at h
  cases hstatus : tree.status path with
  | ok entry =>
    rw [hstatus] at h
    cases h
  | error refusal =>
    rw [hstatus] at h
    cases h
    exact eq_nameTooLong_of_status hstatus

theorem refusesPath_of_filesAmong {names : List String}
    (h : tree.filesAmong path names = .error e) : (FileError.system e).RefusesPath := by
  have hcontents := tree.map_snd_filesAmong path names
  rw [h] at hcontents
  cases hasked : names.mapM fun name => tree.status (path.entry name) with
  | ok entries =>
    rw [hasked] at hcontents
    cases hcontents
  | error refusal =>
    rw [hasked] at hcontents
    cases hcontents
    obtain ⟨name, -, hstatus⟩ := exists_of_mapM_eq_error hasked
    exact .inr ⟨_, congrArg FileError.system (eq_nameTooLong_of_status hstatus)⟩

end FileTree

open FileTree

theorem refusesPath_of_sourcesAt {tree : FileTree} {path : Path} {e : SystemError}
    (h : sourcesAt tree path = .error e) : (FileError.system e).RefusesPath := by
  unfold sourcesAt at h
  cases hdirectory : tree.isDirectory path with
  | error refusal =>
    rw [hdirectory] at h
    cases h
    exact .inr ⟨path, congrArg FileError.system (eq_nameTooLong_of_isDirectory hdirectory)⟩
  | ok answer =>
    rw [hdirectory] at h
    cases answer with
    | false => cases h
    | true =>
      change (do return (← tree.filesAmong path
        ((tree.list path).filter fun name => Text.endsIn name ".xml")).map Prod.fst) = _ at h
      cases hfiles : tree.filesAmong path
          ((tree.list path).filter fun name => Text.endsIn name ".xml") with
      | ok files =>
        rw [hfiles] at h
        cases h
      | error refusal =>
        rw [hfiles] at h
        cases h
        exact refusesPath_of_filesAmong hfiles

theorem refusesPath_of_collectInputs {tree : FileTree} {paths : List Path} {e : SystemError}
    (h : collectInputs tree paths = .error e) : (FileError.system e).RefusesPath := by
  unfold collectInputs at h
  cases hgroups : paths.mapM (sourcesAt tree) with
  | ok groups =>
    rw [hgroups] at h
    cases h
  | error refusal =>
    rw [hgroups] at h
    cases h
    obtain ⟨path, -, hpath⟩ := exists_of_mapM_eq_error hgroups
    exact refusesPath_of_sourcesAt hpath

/-! ## Tables -/

namespace Loading

variable {α β : Type} {P : FileError → Prop}

/-- The loading fails for no other cause. -/
def FailsOnly (P : FileError → Prop) (x : Loading α) : Prop := ∀ e, x.run.value = .error e → P e

theorem failsOnly_pure (a : α) : FailsOnly P (pure a) := by
  intro e h
  cases h

theorem failsOnly_emit (level : Level) (message : String) : FailsOnly P (emit level message) := by
  intro e h
  cases h

theorem failsOnly_throw {e : FileError} (h : P e) : FailsOnly P (throw e : Loading α) := by
  intro e' h'
  cases h'
  exact h

theorem FailsOnly.bind {x : Loading α} {f : α → Loading β} (hx : FailsOnly P x)
    (hf : ∀ a, FailsOnly P (f a)) : FailsOnly P (x >>= f) := by
  intro e h
  rw [run_value_bind] at h
  cases hvalue : x.run.value with
  | ok a =>
    rw [hvalue] at h
    exact hf a e h
  | error refusal =>
    rw [hvalue] at h
    cases h
    exact hx _ hvalue

end Loading

open Loading

theorem ObjectiveTables.refusesPath_of_read {tree : FileTree} {directory : Path} {e : SystemError}
    (h : read tree directory = .error e) : (FileError.system e).RefusesPath := by
  cases hdirectory : tree.isDirectory directory with
  | error refusal =>
    unfold read at h
    rw [hdirectory] at h
    cases h
    exact .inr ⟨_, congrArg FileError.system (eq_nameTooLong_of_isDirectory hdirectory)⟩
  | ok answer =>
    cases answer with
    | false =>
      unfold read at h
      rw [hdirectory] at h
      cases h
    | true =>
      rw [read_eq hdirectory] at h
      cases hfiles : tree.regularFiles directory with
      | ok contents =>
        rw [hfiles] at h
        cases h
      | error refusal =>
        rw [hfiles] at h
        cases h
        obtain ⟨name, -, hname⟩ := exists_of_regularFiles hfiles
        exact .inr ⟨_, congrArg FileError.system hname⟩

theorem ObjectiveTables.failsOnly_load (tree : FileTree) (directory : Path) :
    FailsOnly FileError.RefusesPath (load tree directory) := by
  unfold load
  split
  · exact failsOnly_pure _
  · exact (failsOnly_emit _ _).bind fun _ => failsOnly_pure _
  · rename_i e he
    exact failsOnly_throw (refusesPath_of_read he)

theorem Tables.failsOnly_loadTable (tree : FileTree) (kind : TableKind) (path : Path) :
    FailsOnly FileError.RefusesPath (loadTable tree kind path) := by
  unfold loadTable
  split
  · exact failsOnly_pure _
  · exact (failsOnly_emit _ _).bind fun _ => failsOnly_pure _
  · exact failsOnly_throw (.inl rfl)

/-- The tables are refused only for a path that is none. -/
theorem Tables.failsOnly_load (tree : FileTree) (settings : Settings) :
    FailsOnly FileError.RefusesPath (load tree settings) := by
  unfold load
  refine (ObjectiveTables.failsOnly_load tree _).bind fun _ => ?_
  refine (failsOnly_loadTable tree _ _).bind fun _ => ?_
  refine (failsOnly_loadTable tree _ _).bind fun _ => ?_
  refine (failsOnly_loadTable tree _ _).bind fun _ => ?_
  refine (failsOnly_loadTable tree _ _).bind fun _ => ?_
  refine (failsOnly_loadTable tree _ _).bind fun _ => ?_
  exact (failsOnly_emit _ _).bind fun _ => failsOnly_pure _

/-! ## Words -/

/-- A word without a dash in front is no switch. -/
theorem CommandLine.classifyWord_of_head?_ne {word : String} (h : word.toList.head? ≠ some '-') :
    classifyWord word = .ok (.plain word) := by
  have hdash : ∀ rest, word.toList ≠ '-' :: rest := by
    intro rest hrest
    rw [hrest] at h
    exact h rfl
  unfold classifyWord
  split
  case h_8 => rfl
  all_goals
    rename_i hrest
    exact absurd hrest (hdash _)

/-! ## Runs of the program -/

namespace Program

section Run

variable {tree : FileTree} {env : Settings.Environment} {outcomes : List Outcome}
  {words : List String} {arguments : Arguments} {settings : Settings}

/-- The words and the settings are accepted. -/
structure Accepts (env : Settings.Environment) (words : List String) (arguments : Arguments)
    (settings : Settings) : Prop where
  parsed : CommandLine.parse words = .ok (.run arguments)
  accepted : arguments.settings env = .ok settings

/-- A root is given, and there is a directory. -/
structure HasRoot (tree : FileTree) (arguments : Arguments) (settings : Settings) : Prop where
  given : arguments.sourceRoot ≠ .void
  hasNul : settings.sourceRoot.hasNul = false
  leads : ∃ location, tree.LeadsTo settings.sourceRoot location

theorem untouched_idle (log : Log) (error : ProgramError) :
    (idle tree arguments log error).Untouched tree :=
  ⟨rfl, rfl, rfl⟩

/-- What the summary lacks shows after the batch only. -/
theorem not_isEarly_of_summaryDirectory {plan : Plan} {e : ProgramError}
    (h : summaryDirectory tree plan = .error e) : ¬ (Ending.failed e).IsEarly := by
  unfold summaryDirectory at h
  split at h
  · cases h
    rintro ⟨⟩
  · split at h
    · cases h
      rintro ⟨⟩
    · cases h

/-- A run that comes to its batch does not end early. -/
theorem not_isEarly_finishBatch (plan : Plan) (sources : List Path) (before : Session)
    (earlier : Log) (shown : Level) :
    ¬ (finishBatch plan sources before earlier shown).ending.IsEarly := by
  unfold finishBatch
  rcases hrun : (runBatch plan sources).run.run before with ⟨result, after⟩
  cases result with
  | error stop =>
    -- of all that stops a batch only a failure of the system would end the run early
    intro h
    change Ending.IsEarly (.failed (.stopped stop)) at h
    cases h
    exact stopsOnly_runBatch plan sources before _ after hrun ⟨_, rfl⟩
  | ok batch =>
    dsimp only
    cases hsummary : summaryDirectory after.tree plan with
    | error e => exact not_isEarly_of_summaryDirectory hsummary
    | ok directory => rintro ⟨⟩

/-- Behind the root a run is refused for a path that is none, or it comes to its batch. -/
theorem process_cases (tree : FileTree) (outcomes : List Outcome) (arguments : Arguments)
    (settings : Settings) :
    (∃ log e, e.RefusesPath ∧
      process tree outcomes arguments settings = idle tree arguments log (.stopped (.file e))) ∨
    ∃ plan sources before earlier shown,
      process tree outcomes arguments settings = finishBatch plan sources before earlier shown := by
  unfold process
  cases hsources : sources tree arguments settings with
  | error e => exact .inl ⟨_, _, refusesPath_of_collectInputs hsources, rfl⟩
  | ok found =>
    dsimp only
    cases htables : (Tables.load tree settings).run.value with
    | error e => exact .inl ⟨_, _, Tables.failsOnly_load tree settings e htables, rfl⟩
    | ok tables => exact .inr ⟨_, _, _, _, _, rfl⟩

theorem not_isNotFound_process :
    ¬ (process tree outcomes arguments settings).ending.IsNotFound := by
  rcases process_cases tree outcomes arguments settings with
    ⟨log, e, hrefused, heq⟩ | ⟨plan, sources, before, earlier, shown, heq⟩
  · rw [heq]
    intro h
    change Ending.IsNotFound (.failed (.stopped (.file e))) at h
    cases h with
    | system hnumber => exact hrefused.number_ne hnumber
  · rw [heq]
    exact fun h => not_isEarly_finishBatch plan sources before earlier shown h.isEarly

theorem untouched_process (h : (process tree outcomes arguments settings).ending.IsEarly) :
    (process tree outcomes arguments settings).Untouched tree := by
  rcases process_cases tree outcomes arguments settings with
    ⟨log, e, -, heq⟩ | ⟨plan, sources, before, earlier, shown, heq⟩
  · rw [heq]
    exact untouched_idle _ _
  · rw [heq] at h
    exact absurd h (not_isEarly_finishBatch plan sources before earlier shown)

/-! ### The root -/

theorem runWith_of_void (h : arguments.sourceRoot = .void) :
    runWith tree outcomes arguments settings = idle tree arguments [] .noRoot :=
  if_pos h

theorem runWith_of_hasRoot (h : HasRoot tree arguments settings) :
    runWith tree outcomes arguments settings = process tree outcomes arguments settings := by
  unfold runWith
  rw [if_neg h.given, isDirectory_eq_true_iff.mpr ⟨h.hasNul, h.leads⟩]

theorem runWith_of_missing (hgiven : arguments.sourceRoot ≠ .void)
    (htakes : tree.Takes settings.sourceRoot) (h : ¬ HasRoot tree arguments settings) :
    runWith tree outcomes arguments settings =
      idle tree arguments [] (.rootMissing settings.sourceRoot) := by
  obtain ⟨answer, hanswer⟩ := exists_isDirectory_iff.mpr htakes
  unfold runWith
  rw [if_neg hgiven, hanswer]
  cases answer with
  | false => rfl
  | true =>
    obtain ⟨hnul, hleads⟩ := isDirectory_eq_true_iff.mp hanswer
    exact absurd ⟨hgiven, hnul, hleads⟩ h

theorem runWith_of_not_takes (hgiven : arguments.sourceRoot ≠ .void)
    (h : ¬ tree.Takes settings.sourceRoot) :
    runWith tree outcomes arguments settings =
      idle tree arguments []
        (.stopped (.file (.system (Fault.nameTooLong.on settings.sourceRoot)))) := by
  unfold runWith
  rw [if_neg hgiven]
  cases hanswer : tree.isDirectory settings.sourceRoot with
  | ok answer => exact absurd (exists_isDirectory_iff.mp ⟨answer, hanswer⟩) h
  | error e => rw [eq_nameTooLong_of_isDirectory hanswer]

theorem exists_idle_of_not_hasRoot (h : ¬ HasRoot tree arguments settings)
    (outcomes : List Outcome) :
    ∃ error, runWith tree outcomes arguments settings = idle tree arguments [] error := by
  by_cases hgiven : arguments.sourceRoot = .void
  · exact ⟨_, runWith_of_void hgiven⟩
  · by_cases htakes : tree.Takes settings.sourceRoot
    · exact ⟨_, runWith_of_missing hgiven htakes h⟩
    · exact ⟨_, runWith_of_not_takes hgiven htakes⟩

/-! ### Words and settings -/

theorem run_of_accepts (h : Accepts env words arguments settings) :
    run tree env outcomes words = runWith tree outcomes arguments settings := by
  unfold run
  simp only [h.parsed, h.accepted]

/-- A run whose words or settings are not accepted ends at once. -/
theorem of_not_accepts (h : ¬ ∃ arguments settings, Accepts env words arguments settings) :
    ¬ (run tree env outcomes words).ending.IsNotFound ∧
      (run tree env outcomes words).Untouched tree := by
  unfold run
  cases hparsed : CommandLine.parse words with
  | error e => exact ⟨fun hfound => (by cases hfound), rfl, rfl, rfl⟩
  | ok request =>
    cases request with
    | help => exact ⟨fun hfound => (by cases hfound), rfl, rfl, rfl⟩
    | run arguments =>
      dsimp only
      cases haccepted : arguments.settings env with
      | error e => exact ⟨fun hfound => (by cases hfound), untouched_idle _ _⟩
      | ok settings => exact absurd ⟨arguments, settings, hparsed, haccepted⟩ h

theorem untouched_of_isEarly (h : (run tree env outcomes words).ending.IsEarly) :
    (run tree env outcomes words).Untouched tree := by
  by_cases haccepts : ∃ arguments settings, Accepts env words arguments settings
  · obtain ⟨arguments, settings, haccepts⟩ := haccepts
    rw [run_of_accepts haccepts] at h ⊢
    by_cases hroot : HasRoot tree arguments settings
    · rw [runWith_of_hasRoot hroot] at h ⊢
      exact untouched_process h
    · obtain ⟨error, hidle⟩ := exists_idle_of_not_hasRoot hroot outcomes
      rw [hidle]
      exact untouched_idle _ _
  · exact (of_not_accepts haccepts).2

/-- How a run ends whose root is not there. -/
structure EndsWithoutRoot (tree : FileTree) (arguments : Arguments) (root : Path)
    (ending : Ending) : Prop where
  noRoot : arguments.sourceRoot = .void → ending = .failed .noRoot
  missing : arguments.sourceRoot ≠ .void → tree.Takes root → ending = .failed (.rootMissing root)
  tooLong : arguments.sourceRoot ≠ .void → ¬ tree.Takes root →
    ending = .failed (.stopped (.file (.system (Fault.nameTooLong.on root))))

theorem endsWithoutRoot (haccepts : Accepts env words arguments settings)
    (hroot : ¬ HasRoot tree arguments settings) :
    EndsWithoutRoot tree arguments settings.sourceRoot (run tree env outcomes words).ending := by
  rw [run_of_accepts haccepts]
  refine ⟨fun hvoid => ?_, fun hgiven htakes => ?_, fun hgiven htakes => ?_⟩
  · rw [runWith_of_void hvoid]
    rfl
  · rw [runWith_of_missing hgiven htakes hroot]
    rfl
  · rw [runWith_of_not_takes hgiven htakes]
    rfl

theorem missing_of_isNotFound (h : (run tree env outcomes words).ending.IsNotFound) :
    ∃ arguments settings, Accepts env words arguments settings ∧
      ¬ HasRoot tree arguments settings ∧ arguments.sourceRoot ≠ .void ∧
        tree.Takes settings.sourceRoot := by
  by_cases haccepts : ∃ arguments settings, Accepts env words arguments settings
  · obtain ⟨arguments, settings, haccepts⟩ := haccepts
    refine ⟨arguments, settings, haccepts, ?_⟩
    have hroot : ¬ HasRoot tree arguments settings := by
      intro hroot
      rw [run_of_accepts haccepts, runWith_of_hasRoot hroot] at h
      exact not_isNotFound_process h
    have hends : EndsWithoutRoot tree arguments settings.sourceRoot
        (run tree env outcomes words).ending := endsWithoutRoot haccepts hroot
    refine ⟨hroot, fun hvoid => ?_, ?_⟩
    · rw [hends.noRoot hvoid] at h
      cases h
    · by_contra htakes
      by_cases hvoid : arguments.sourceRoot = .void
      · rw [hends.noRoot hvoid] at h
        cases h
      · rw [hends.tooLong hvoid htakes] at h
        cases h with
        | system hnumber => exact absurd hnumber (show ¬ (36 : Int) = 2 by decide)
  · exact absurd h (of_not_accepts haccepts).1

end Run

/-- **A run ends for what is not found exactly if its root is not there**: its words and settings
are accepted, no directory stands at the root, and the system can be asked about the root.  A
missing source, or a directory that cannot be made, never ends a run so.  A root without a value and
a root whose name is too long end the run as well, each for its own cause.  A run that ends early,
for any of these causes or because it was asked for help or was refused its words or settings, has
changed no file, called nothing and printed nothing. -/
theorem notFound_iff (tree : FileTree) (env : Settings.Environment) (outcomes : List Outcome)
    (words : List String) :
    ((run tree env outcomes words).ending.IsNotFound ↔
      ∃ arguments settings, Accepts env words arguments settings ∧
        ¬ HasRoot tree arguments settings ∧ arguments.sourceRoot ≠ .void ∧
          tree.Takes settings.sourceRoot) ∧
    ((run tree env outcomes words).ending.IsEarly →
      (run tree env outcomes words).Untouched tree) ∧
    ∀ arguments settings, Accepts env words arguments settings →
      ¬ HasRoot tree arguments settings →
        EndsWithoutRoot tree arguments settings.sourceRoot
          (run tree env outcomes words).ending := by
  refine ⟨⟨missing_of_isNotFound, ?_⟩, untouched_of_isEarly,
    fun arguments settings => endsWithoutRoot⟩
  rintro ⟨arguments, settings, haccepts, hroot, hgiven, htakes⟩
  rw [(endsWithoutRoot haccepts hroot).missing hgiven htakes]
  exact .root _

/-! ## A root that is not there -/

namespace LostRoot

def tree : FileTree := .bare ["work"]

def root : Path := ⟨.here, ["lost"]⟩

def words : List String := ["--source-root", "lost"]

def arguments : Arguments := { Arguments.none with sourceRoot := .given root }

def settings : Settings := { Settings.standard with sourceRoot := root }

theorem accepts : Accepts .empty words arguments settings :=
  ⟨by decide, by decide +kernel⟩

theorem isDirectory_root : tree.isDirectory root = .ok false := by decide

theorem not_hasRoot : ¬ HasRoot tree arguments settings := by
  rintro ⟨-, hnul, hleads⟩
  have hroot : tree.isDirectory root = .ok true := isDirectory_eq_true_iff.mpr ⟨hnul, hleads⟩
  rw [isDirectory_root] at hroot
  cases hroot

end LostRoot

open LostRoot in
theorem lostRoot_notFound_iff :
    Accepts .empty words arguments settings ∧ ¬ HasRoot tree arguments settings ∧
      (run tree .empty [] words).ending = .failed (.rootMissing root) ∧
      (run tree .empty [] words).ending.IsNotFound ∧
      (run tree .empty [] words).Untouched tree := by
  obtain ⟨hfound, huntouched, hends⟩ := notFound_iff tree .empty [] words
  have hgiven : arguments.sourceRoot ≠ .void := by decide
  have htakes : tree.Takes root := exists_isDirectory_iff.mp ⟨false, isDirectory_root⟩
  have hmissing := hfound.mpr ⟨arguments, settings, accepts, not_hasRoot, hgiven, htakes⟩
  exact ⟨accepts, not_hasRoot, (hends arguments settings accepts not_hasRoot).missing hgiven htakes,
    hmissing, huntouched hmissing.isEarly⟩

/-! ## A root whose name is too long -/

namespace LongRoot

open CommandLine Tables.LongName

def words : List String := ["--source-root", name]

def arguments : Arguments := { Arguments.none with sourceRoot := .given directory }

/-- The directory is asked for as the root. -/
def settings : Settings := arguments.laidOver (Settings.told .empty)

theorem toList_name : name.toList = List.replicate 256 'o' := String.toList_ofList

theorem ofText_name : Path.ofText name = directory := by
  have hslash : '/' ∉ List.replicate 256 'o' := fun h =>
    absurd (List.eq_of_mem_replicate h) (by decide)
  have hkept : ([List.replicate 256 'o'].filter fun p => !p.isEmpty && p ≠ ['.']) =
      [List.replicate 256 'o'] :=
    List.filter_eq_self.mpr fun p hp => by rw [List.mem_singleton.mp hp]; rfl
  have hanchor : Path.anchorOf (List.replicate 256 'o') = .here := rfl
  unfold Path.ofText
  dsimp only
  rw [toList_name, Text.splitAtEach_of_not_mem hslash, hkept, hanchor]
  rfl

theorem parse_words : parse words = .ok (.run arguments) := by
  have hswitch : classifyWord "--source-root" = .ok (.switch .sourceRoot none) := by decide
  have hname : classifyWord name = .ok (.plain name) := by
    refine classifyWord_of_head?_ne ?_
    rw [toList_name]
    decide
  have hwords : classify words = .ok [.switch .sourceRoot none, .plain name] := by
    unfold words
    rw [classify, hswitch, classify, hname]
    rfl
  unfold parse arguments
  rw [hwords, ← ofText_name]
  rfl

theorem accepted : arguments.settings .empty = .ok settings := by
  have hfault : arguments.firstFault? .empty = none := by decide +kernel
  rw [Arguments.settings_eq, hfault]
  rfl

theorem accepts : Accepts .empty words arguments settings := ⟨parse_words, accepted⟩

theorem not_hasRoot : ¬ HasRoot tree arguments settings := by
  rintro ⟨-, -, location, hleads⟩
  have hlocate := hleads.locate
  rw [show tree.locate settings.sourceRoot = _ from locate_directory] at hlocate
  cases hlocate

end LongRoot

open LongRoot in
/-- A root that is no directory can end a run for another cause: its name is too long. -/
theorem not_forall_notFound_iff :
    ¬ ∀ (tree : FileTree) (env : Settings.Environment) (outcomes : List Outcome)
      (words : List String),
      ((run tree env outcomes words).ending.IsNotFound ↔
        ∃ arguments settings, Accepts env words arguments settings ∧
          ¬ HasRoot tree arguments settings) := by
  intro hall
  have hfound := (hall Tables.LongName.tree .empty [] words).mpr
    ⟨arguments, settings, accepts, not_hasRoot⟩
  have hends : EndsWithoutRoot Tables.LongName.tree arguments settings.sourceRoot
      (run Tables.LongName.tree .empty [] words).ending := endsWithoutRoot accepts not_hasRoot
  rw [hends.tooLong (by decide) Tables.LongName.not_takes_directory] at hfound
  cases hfound with
  | system hnumber => exact absurd hnumber (show ¬ (36 : Int) = 2 by decide)

end Program

end FlowAtlas
