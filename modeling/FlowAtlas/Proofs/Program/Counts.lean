import FlowAtlas.Program
import FlowAtlas.Proofs.Batch.Course
import FlowAtlas.Proofs.Batch.Inputs

/-!
# What a run counts

A batch always comes to its end and enters each of its sources once, as a result or as a failure.
So the summary of a run accounts for all sources that its inputs stand for, and the run fails
exactly if one of them did.  A run that ends without a summary has not come to its batch.

Main facts: `exists_accounts`, `Program.finished_iff_reaches` and `every_source_is_accounted`.
-/

namespace FlowAtlas

open Job

/-! ## Batches -/

/-- What a batch has entered for its sources. -/
structure Accounts (plan : Plan) (sources : List Path) (before : Session)
    (entries : List (Path × Verdict)) (batch : BatchResult) (after : Session) : Prop where
  /-- Each source has one entry. -/
  whole : entries.map Prod.fst = sources
  /-- Each has been visited in its turn, whatever came of those before it. -/
  course : Course plan (firstWith sources) before entries after
  results : batch.results = entries.filterMap fun entry => entry.2.toOption
  failures : batch.failures = entries.filterMap fun entry => Verdict.failure? entry.2
  /-- What is entered for a source bears its path. -/
  named : ∀ entry ∈ entries, (∀ result, entry.2 = .ok result → result.source = entry.1) ∧
    ∀ failure, entry.2 = .error failure → failure.source = entry.1
  /-- Only who is not the first path with its stem is refused. -/
  refused : ∀ entry ∈ entries,
    (∃ owner, entry.2 = .error ⟨entry.1, stemTaken owner entry.1⟩) ↔
      firstWith sources entry.1.stem ≠ some entry.1
  /-- No entry is both, and none is neither. -/
  count : batch.results.length + batch.failures.length = sources.length

section Batch

variable {plan : Plan} {sources : List Path} {before after : Session}

theorem length_ofEntries (entries : List (Path × Verdict)) :
    (BatchResult.ofEntries entries).results.length +
      (BatchResult.ofEntries entries).failures.length = entries.length := by
  induction entries with
  | nil => rfl
  | cons entry entries ih =>
    obtain ⟨source, verdict⟩ := entry
    rw [List.length_cons, ← ih]
    cases verdict with
    | ok result =>
      show (result :: _ : List SourceResult).length + _ = _
      rw [List.length_cons]
      exact Nat.add_right_comm _ 1 _
    | error failure => rfl

theorem accounts_of_course {entries : List (Path × Verdict)}
    (hsources : entries.map Prod.fst = sources)
    (h : Course plan (firstWith sources) before entries after) :
    Accounts plan sources before entries (.ofEntries entries) after := by
  refine ⟨hsources, h, rfl, rfl, ?_, ?_, ?_⟩
  · intro entry hentry
    obtain ⟨s, s', hvisit⟩ := h.visit hentry
    exact hvisit.source_eq
  · intro entry hentry
    obtain ⟨s, s', hvisit⟩ := h.visit hentry
    exact hvisit.refused_iff
  · rw [length_ofEntries, ← hsources, List.length_map]

theorem exists_accounts (hplan : plan.IsSound) (hs : ∀ source ∈ sources, source.hasNul = false)
    (before : Session) :
    ∃ entries batch after, Runs (runBatch plan sources) before batch after ∧
      Accounts plan sources before entries batch after := by
  obtain ⟨entries, after, hsources, hcourse⟩ := exists_course hplan hs before
  exact ⟨entries, .ofEntries entries, after,
    runs_runBatch_iff.mpr ⟨entries, hsources, hcourse, rfl⟩, accounts_of_course hsources hcourse⟩

end Batch

/-! ## Runs of the program -/

namespace Program

/-- The inputs of a run. -/
def asked (arguments : Arguments) (settings : Settings) : List Path :=
  if arguments.inputs.isEmpty then [settings.resolvedActionsDir] else arguments.inputs

/-- The plan of a run. -/
def plan (arguments : Arguments) (settings : Settings) : Plan :=
  ⟨settings, !arguments.noRender, arguments.directory settings⟩

/-- The words are accepted, the root is there, the sources are found and the tables loaded. -/
structure Reaches (tree : FileTree) (env : Settings.Environment) (words : List String)
    (arguments : Arguments) (settings : Settings) (sources : List Path) (tables : Tables) :
    Prop where
  parsed : CommandLine.parse words = .ok (.run arguments)
  accepted : arguments.settings env = .ok settings
  hasRoot : arguments.sourceRoot ≠ .void
  root : tree.isDirectory settings.sourceRoot = .ok true
  sources : collectInputs tree (asked arguments settings) = .ok sources
  tables : (Tables.load tree settings).run.value = .ok tables

section Run

variable {tree : FileTree} {env : Settings.Environment} {words : List String}
  {arguments : Arguments} {settings : Settings} {sources : List Path} {tables : Tables}

theorem finishBatch_eq {before after : Session} {batch : BatchResult} {plan : Plan}
    {directory : Path} (h : Runs (runBatch plan sources) before batch after)
    (hdirectory : plan.directory = some directory) (hnul : directory.hasNul = false)
    (earlier : Log) (shown : Level) :
    finishBatch plan sources before earlier shown =
      ⟨.finished (status batch),
        summary (after.tree.absolute directory) batch after.labeller.unhandled, after.tree,
        after.renderer.calls, earlier ++ after.log, shown⟩ := by
  have hsummary : summaryDirectory after.tree plan = .ok (after.tree.absolute directory) := by
    unfold summaryDirectory
    rw [hdirectory]
    simp [hnul]
  unfold finishBatch
  rw [show (runBatch plan sources).run.run before = _ from h]
  simp only [hsummary]

theorem run_eq (h : Reaches tree env words arguments settings sources tables)
    (outcomes : List Outcome) :
    run tree env outcomes words =
      finishBatch (plan arguments settings) sources (Session.start tree outcomes tables settings)
        (Tables.load tree settings).run.log (shownFrom arguments) := by
  have hsources : Program.sources tree arguments settings = .ok sources := h.sources
  unfold run
  simp only [h.parsed, h.accepted]
  unfold runWith
  rw [if_neg h.hasRoot]
  simp only [h.root]
  unfold process
  simp only [hsources, h.tables]
  rfl

theorem status_eq (batch : BatchResult) : status batch = if batch.failures = [] then 0 else 1 := by
  unfold status
  simp only [List.isEmpty_iff]

/-- A run that reaches its batch comes to the end of it and prints the summary. -/
theorem exists_accounts_of_reaches
    (h : Reaches tree env words arguments settings sources tables)
    (hplan : (plan arguments settings).IsSound)
    (hs : ∀ source ∈ sources, source.hasNul = false) (outcomes : List Outcome) :
    ∃ entries batch after directory,
      Runs (runBatch (plan arguments settings) sources)
        (Session.start tree outcomes tables settings) batch after ∧
      Accounts (plan arguments settings) sources (Session.start tree outcomes tables settings)
        entries batch after ∧
      (run tree env outcomes words).ending = .finished (status batch) ∧
      (run tree env outcomes words).printed =
        summary directory batch after.labeller.unhandled := by
  obtain ⟨entries, batch, after, hruns, haccounts⟩ :=
    exists_accounts hplan hs (Session.start tree outcomes tables settings)
  obtain ⟨directory, hdirectory, hnul⟩ := hplan.directory
  have hrun := run_eq h outcomes
  rw [finishBatch_eq hruns hdirectory hnul] at hrun
  exact ⟨entries, batch, after, after.tree.absolute directory, hruns, haccounts, by rw [hrun],
    by rw [hrun]⟩

/-! ### What a run that finishes has come through -/

variable {outcomes : List Outcome} {code : Nat}

theorem exists_tables_of_process
    (h : (process tree outcomes arguments settings).ending = .finished code) :
    ∃ sources tables, collectInputs tree (asked arguments settings) = .ok sources ∧
      (Tables.load tree settings).run.value = .ok tables := by
  unfold process at h
  cases hsources : Program.sources tree arguments settings with
  | error e =>
    rw [hsources] at h
    cases h
  | ok sources =>
    rw [hsources] at h
    dsimp only at h
    cases htables : (Tables.load tree settings).run.value with
    | error e =>
      rw [htables] at h
      cases h
    | ok tables => exact ⟨sources, tables, hsources, rfl⟩

theorem process_of_runWith
    (h : (runWith tree outcomes arguments settings).ending = .finished code) :
    arguments.sourceRoot ≠ .void ∧ tree.isDirectory settings.sourceRoot = .ok true ∧
      (process tree outcomes arguments settings).ending = .finished code := by
  unfold runWith at h
  by_cases hgiven : arguments.sourceRoot = .void
  · rw [if_pos hgiven] at h
    cases h
  · rw [if_neg hgiven] at h
    cases hroot : tree.isDirectory settings.sourceRoot with
    | error e =>
      rw [hroot] at h
      cases h
    | ok answer =>
      rw [hroot] at h
      cases answer with
      | false => cases h
      | true => exact ⟨hgiven, rfl, h⟩

theorem exists_settings_of_run (h : (run tree env outcomes words).ending = .finished code) :
    ∃ arguments settings, CommandLine.parse words = .ok (.run arguments) ∧
      arguments.settings env = .ok settings ∧
      (runWith tree outcomes arguments settings).ending = .finished code := by
  unfold run at h
  cases hwords : CommandLine.parse words with
  | error e =>
    rw [hwords] at h
    cases h
  | ok request =>
    rw [hwords] at h
    cases request with
    | help => cases h
    | run arguments =>
      dsimp only at h
      cases hsettings : arguments.settings env with
      | error e =>
        rw [hsettings] at h
        cases h
      | ok settings =>
        rw [hsettings] at h
        exact ⟨arguments, settings, rfl, hsettings, h⟩

/-- Only a run that has reached its batch finishes. -/
theorem exists_reaches_of_finished (h : (run tree env outcomes words).ending = .finished code) :
    ∃ arguments settings sources tables,
      Reaches tree env words arguments settings sources tables := by
  obtain ⟨arguments, settings, hparsed, haccepted, hwith⟩ := exists_settings_of_run h
  obtain ⟨hgiven, hroot, hprocess⟩ := process_of_runWith hwith
  obtain ⟨sources, tables, hsources, htables⟩ := exists_tables_of_process hprocess
  exact ⟨arguments, settings, sources, tables, hparsed, haccepted, hgiven, hroot, hsources, htables⟩

/-- **A run finishes exactly if it reaches its batch**, whatever its sources hold and whatever its
drawings come to. -/
theorem finished_iff_reaches (hparsed : CommandLine.parse words = .ok (.run arguments))
    (haccepted : arguments.settings env = .ok settings)
    (hplan : (plan arguments settings).IsSound) (htree : tree.IsProper)
    (hasked : ∀ path ∈ asked arguments settings, path.hasNul = false) :
    (∃ code, (run tree env outcomes words).ending = .finished code) ↔
      ∃ sources tables, Reaches tree env words arguments settings sources tables := by
  constructor
  · rintro ⟨code, h⟩
    obtain ⟨arguments', settings', sources, tables, hreaches⟩ := exists_reaches_of_finished h
    -- the words say one thing only
    cases hparsed.symm.trans hreaches.parsed
    cases haccepted.symm.trans hreaches.accepted
    exact ⟨sources, tables, hreaches⟩
  · rintro ⟨sources, tables, hreaches⟩
    obtain ⟨_, _, _, hs⟩ := standsFor_of_collectInputs htree hasked hreaches.sources
    obtain ⟨_, batch, _, _, _, _, hending, _⟩ :=
      exists_accounts_of_reaches hreaches hplan hs outcomes
    exact ⟨status batch, hending⟩

end Run

end Program

theorem scopeCount_eq (batch : BatchResult) :
    batch.scopeCount = (batch.results.map fun r => r.report.scopeCount).foldr (· + ·) 0 := by
  unfold BatchResult.scopeCount
  rw [List.foldr_map]

theorem danglingCount_eq (batch : BatchResult) :
    batch.danglingCount = (batch.results.map fun r => r.report.danglingCount).foldr (· + ·) 0 := by
  unfold BatchResult.danglingCount
  rw [List.foldr_map]

open Program in
/-- **A batch comes to its end whatever its sources hold, and enters each of them once.**  So a run
that reaches its batch fails exactly if one of its sources failed, counts all sources that its
inputs stand for, and sums up the reports on those that were processed. -/
theorem every_source_is_accounted {plan : Plan} (hplan : plan.IsSound) :
    (∀ (sources : List Path) (before : Session), (∀ source ∈ sources, source.hasNul = false) →
      ∃ entries batch after, Runs (runBatch plan sources) before batch after ∧
        Accounts plan sources before entries batch after) ∧
      ∀ tree env outcomes words arguments settings sources tables,
        Reaches tree env words arguments settings sources tables →
        plan = Program.plan arguments settings → tree.IsProper →
        (∀ path ∈ asked arguments settings, path.hasNul = false) →
        ∃ entries batch after groups,
          Runs (runBatch plan sources) (Session.start tree outcomes tables settings) batch after ∧
          Accounts plan sources (Session.start tree outcomes tables settings) entries batch after ∧
          List.Forall₂ (StandsFor tree) (asked arguments settings) groups ∧
          sources = groups.flatten ∧
          (run tree env outcomes words).ending =
            .finished (if batch.failures = [] then 0 else 1) ∧
          (run tree env outcomes words).printed[1]? =
            some ("Counts: files=" ++ Text.decimal batch.results.length ++
              " failed=" ++ Text.decimal batch.failures.length ++
              " scopes=" ++ Text.decimal
                ((batch.results.map fun r => r.report.scopeCount).foldr (· + ·) 0) ++
              " dangling_edges=" ++ Text.signedDecimal
                ((batch.results.map fun r => r.report.danglingCount).foldr (· + ·) 0)) := by
  refine ⟨fun sources before hs => exists_accounts hplan hs before, ?_⟩
  rintro tree env outcomes words arguments settings sources tables hreaches rfl htree hasked
  obtain ⟨groups, hgroups, hflatten, hs⟩ :=
    standsFor_of_collectInputs htree hasked hreaches.sources
  obtain ⟨entries, batch, after, directory, hruns, haccounts, hending, hprinted⟩ :=
    exists_accounts_of_reaches hreaches hplan hs outcomes
  refine ⟨entries, batch, after, groups, hruns, haccounts, hgroups, hflatten, ?_, ?_⟩
  · rw [hending, status_eq]
  · rw [hprinted, ← scopeCount_eq, ← danglingCount_eq]
    rfl

/-! ## A run with one failure -/

namespace OneFailure

/-- A directory with a source and another file. -/
def tree : FileTree :=
  ⟨.ofList [(["work"], .directory), (["work", "in"], .directory),
    (["work", "in", "m.xml"],
      .file (Text.Utf8.encode "<Node Id=\"1\" Class=\"Ark:EndGame\"/>\n".toList)),
    (["work", "in", "notes.txt"], .file [])], ["work"]⟩

/-- The directory is asked for, and a path that leads nowhere. -/
def words : List String := ["--no-render", "--output-dir", "out", "in", "lost.xml"]

def arguments : Arguments :=
  { Arguments.none with
    inputs := [⟨.here, ["in"]⟩, ⟨.here, ["lost.xml"]⟩]
    outputDir := .given ⟨.here, ["out"]⟩
    noRender := true }

def settings : Settings := { Settings.standard with outputDir := some ⟨.here, ["out"]⟩ }

def sources : List Path := [⟨.here, ["in", "m.xml"]⟩, ⟨.here, ["lost.xml"]⟩]

theorem isSound_plan : (Program.plan arguments settings).IsSound :=
  ⟨⟨⟨.here, ["out"]⟩, rfl, by decide⟩, by decide⟩

theorem isProper_tree : tree.IsProper := FileTree.isProper_of_keys (by decide)

theorem list_inputs : tree.list ⟨.here, ["in"]⟩ = ["m.xml", "notes.txt"] := by
  have hlocate : tree.locate ⟨.here, ["in"]⟩ = .ok ["work", "in"] := by decide
  have hnames : (tree.entries.keys.filterMap fun l =>
      if l.dropLast = ["work", "in"] then l.getLast? else none) = ["m.xml", "notes.txt"] := by
    decide
  unfold FileTree.list
  rw [hlocate]
  show sortByText id _ = _
  rw [hnames]
  exact List.mergeSort_of_pairwise (by decide)

theorem collectInputs_eq :
    collectInputs tree (Program.asked arguments settings) = .ok sources := by
  have hfirst : sourcesAt tree ⟨.here, ["in"]⟩ = .ok [⟨.here, ["in", "m.xml"]⟩] := by
    unfold sourcesAt
    rw [list_inputs]
    decide
  have hsecond : sourcesAt tree ⟨.here, ["lost.xml"]⟩ = .ok [⟨.here, ["lost.xml"]⟩] := by
    decide
  show ([⟨.here, ["in"]⟩, ⟨.here, ["lost.xml"]⟩].mapM (sourcesAt tree)).map List.flatten = _
  rw [List.mapM_cons, List.mapM_cons, hfirst, hsecond]
  rfl

/-- The tables of a tree that holds none of their sources. -/
def tables : Tables := (Tables.load tree settings).run.value.toOption.getD .blank

theorem load_eq : (Tables.load tree settings).run.value = .ok tables := by
  have hloads : (Tables.load tree settings).run.value.isOk = true := by decide
  unfold tables
  cases hvalue : (Tables.load tree settings).run.value with
  | error e =>
    rw [hvalue] at hloads
    cases hloads
  | ok loaded => rfl

theorem reaches : Program.Reaches tree .empty words arguments settings sources tables :=
  ⟨by decide, by decide +kernel, by decide, by decide, collectInputs_eq, load_eq⟩

theorem hasNul_asked : ∀ path ∈ Program.asked arguments settings, path.hasNul = false := by decide

/-- What becomes of the path that leads nowhere. -/
def failure : SourceFailure :=
  ⟨⟨.here, ["lost.xml"]⟩, (Fault.missing.on ⟨.here, ["lost.xml"]⟩).message⟩

/-- What the summary tells of a batch. -/
def told (batch : BatchResult) : Nat × List SourceFailure × Nat × Int :=
  (batch.results.length, batch.failures, batch.scopeCount, batch.danglingCount)

theorem exists_runs :
    ∃ batch after, Runs (runBatch (Program.plan arguments settings) sources)
        (Session.start tree [] tables settings) batch after ∧
      told batch = (1, [failure], 1, 0) :=
  exists_runs_of_map (by decide +kernel)

end OneFailure

open Program hiding sources in
open OneFailure in
theorem oneFailure_is_accounted :
    (plan arguments settings).IsSound ∧ tree.IsProper ∧
      (∀ path ∈ asked arguments settings, path.hasNul = false) ∧
      Reaches tree .empty words arguments settings sources tables ∧
      ∃ entries batch after groups,
        Runs (runBatch (plan arguments settings) sources)
          (Session.start tree [] tables settings) batch after ∧
        Accounts (plan arguments settings) sources (Session.start tree [] tables settings) entries
          batch after ∧
        List.Forall₂ (StandsFor tree) (asked arguments settings) groups ∧
        sources = groups.flatten ∧
        batch.failures = [failure] ∧
        (run tree .empty [] words).ending = .finished 1 ∧
        (run tree .empty [] words).printed[1]? =
          some "Counts: files=1 failed=1 scopes=1 dangling_edges=0" := by
  obtain ⟨entries, batch, after, groups, hruns, haccounts, hgroups, hflatten, hending, hprinted⟩ :=
    (every_source_is_accounted isSound_plan).2 tree .empty [] words arguments settings sources
      tables reaches rfl isProper_tree hasNul_asked
  -- a batch has one result, so what is told of the one that was run holds of this one
  obtain ⟨_, _, hruns', htold⟩ := exists_runs
  obtain ⟨rfl, -⟩ := hruns'.unique hruns
  simp only [told, Prod.mk.injEq] at htold
  obtain ⟨hresults, hfailures, hscopes, hdangling⟩ := htold
  rw [hfailures] at hending hprinted
  rw [hresults, ← scopeCount_eq, ← danglingCount_eq, hscopes, hdangling] at hprinted
  exact ⟨isSound_plan, isProper_tree, hasNul_asked, reaches, entries, _, after, groups,
    hruns, haccounts, hgroups, hflatten, hfailures, hending, hprinted⟩

end FlowAtlas
