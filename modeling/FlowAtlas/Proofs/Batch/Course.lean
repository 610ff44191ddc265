import FlowAtlas.Proofs.Batch.Endings

/-!
# The course of a batch

A batch comes to its sources one after the other.  A source that owns its stem is processed, and the
batch enters what came of this; any other source is refused.  Which path owns a stem is decided by
the list of sources alone, so whether a source is processed does not depend on what came of those
before it.

Main facts: `runs_runBatch_iff` (a batch runs exactly along a course) and `exists_course` (under a
sound plan there always is one).
-/

namespace FlowAtlas

open Job

/-! ## Catching failures -/

section Attempt

variable {α : Type} {job : Job α} {before after : Session}

theorem run_tryCatch (x : Job α) (handler : Stop → Job α) (before : Session) :
    (tryCatch x handler : Job α).run.run before =
      match x.run.run before with
      | (.ok a, after) => (.ok a, after)
      | (.error stop, after) => (handler stop).run.run after := by
  rcases hx : x.run.run before with ⟨result, after⟩
  simp only [tryCatch, tryCatchThe, MonadExceptOf.tryCatch, ExceptT.tryCatch, ExceptT.run_mk,
    StateT.run_bind]
  rw [show StateT.run x before = (result, after) from hx]
  cases result <;> rfl

/-- An attempt ends with the result of the job, or with a failure of the system that stopped it. -/
theorem run_attempt (job : Job α) (before : Session) :
    (attempt job).run.run before =
      match job.run.run before with
      | (.ok a, after) => (.ok (.ok a), after)
      | (.error (.file (.system e)), after) => (.ok (.error e), after)
      | (.error stop, after) => (.error stop, after) := by
  unfold attempt
  rw [run_tryCatch, map_eq_pure_bind, run_bind]
  rcases job.run.run before with ⟨result, after⟩
  cases result with
  | ok a => rfl
  | error stop =>
    cases stop with
    | file e => cases e <;> rfl
    | _ => rfl

theorem runs_attempt_ok {a : α} (h : Runs (attempt job) before (.ok a) after) :
    Runs job before a after := by
  unfold Runs at h ⊢
  rw [run_attempt] at h
  split at h
  · rename_i result s hrun
    cases h
    exact hrun
  · cases h
  · cases h

theorem runs_attempt_error {e : SystemError} (h : Runs (attempt job) before (.error e) after) :
    job.run.run before = (.error (.file (.system e)), after) := by
  unfold Runs at h
  rw [run_attempt] at h
  split at h
  · cases h
  · rename_i error s hrun
    cases h
    exact hrun
  · cases h

end Attempt

/-! ## Owners of stems -/

/-- The first source with a stem. -/
def firstWith (sources : List Path) (stem : String) : Option Path :=
  sources.find? fun source => source.stem = stem

theorem exists_firstWith {sources : List Path} {source : Path} (h : source ∈ sources) :
    ∃ path, firstWith sources source.stem = some path := by
  have hsome : (firstWith sources source.stem).isSome := by
    unfold firstWith
    rw [List.find?_isSome]
    exact ⟨source, h, by simp⟩
  exact Option.isSome_iff_exists.mp hsome

theorem mem_of_firstWith {sources : List Path} {stem : String} {path : Path}
    (h : firstWith sources stem = some path) : path ∈ sources ∧ path.stem = stem :=
  ⟨List.mem_of_find?_eq_some h, by simpa using List.find?_some h⟩

/-- Where stems are distinct every source owns its stem. -/
theorem firstWith_of_nodup {sources : List Path} (h : (sources.map Path.stem).Nodup)
    {source : Path} (hsource : source ∈ sources) :
    firstWith sources source.stem = some source := by
  obtain ⟨path, hpath⟩ := exists_firstWith hsource
  obtain ⟨hmem, hstem⟩ := mem_of_firstWith hpath
  rw [hpath, List.inj_on_of_nodup_map h hmem hsource hstem]

/-- The path that owns a stem: the one that claimed it before, or the first source with it. -/
def ownerOf (claims : OrderedMap String Path) (sources : List Path) (stem : String) : Option Path :=
  (claims.get? stem).or (firstWith sources stem)

theorem ownerOf_head (claims : OrderedMap String Path) (source : Path) (rest : List Path) :
    ownerOf claims (source :: rest) source.stem =
      some ((claims.get? source.stem).getD source) := by
  unfold ownerOf firstWith
  rw [List.find?_cons_of_pos (by simp)]
  cases claims.get? source.stem <;> rfl

/-- Once the first source has been taken, its stem is claimed as it was owned before. -/
theorem ownerOf_insert (claims : OrderedMap String Path) (source : Path) (rest : List Path) :
    ownerOf (claims.insert source.stem ((claims.get? source.stem).getD source)) rest =
      ownerOf claims (source :: rest) := by
  funext stem
  by_cases hstem : stem = source.stem
  · rw [hstem, ownerOf_head]
    unfold ownerOf
    rw [OrderedMap.get?_insert, if_pos rfl]
    rfl
  · unfold ownerOf firstWith
    rw [OrderedMap.get?_insert, if_neg hstem, List.find?_cons_of_neg (by simpa using Ne.symm hstem)]

/-! ## Visits and courses -/

/-- What a batch enters for a source. -/
abbrev Verdict := Except SourceFailure SourceResult

/-- Why a source is refused: another path owns its stem. -/
def stemTaken (owner source : Path) : String :=
  "output name '" ++ source.stem ++ "' already used by " ++ owner.text

/-- The session with one more error in its log. -/
def Session.complain (s : Session) (message : String) : Session :=
  { s with log := s.log ++ [⟨.error, message⟩] }

/-- What a batch does when it comes to a source whose stem belongs to the given path. -/
inductive Visit (plan : Plan) (source : Path) :
    Option Path → Session → Verdict → Session → Prop
  | processed {before after : Session} {result : SourceResult}
      (run : Runs (processSource plan source) before result after) :
      Visit plan source (some source) before (.ok result) after
  | failed {before after : Session} {e : SystemError}
      (run : (processSource plan source).run.run before = (.error (.file (.system e)), after)) :
      Visit plan source (some source) before (.error ⟨source, e.message⟩)
        (after.complain ("Failed to process " ++ source.text ++ ": " ++ e.message))
  | refused {before : Session} {owner : Path} (other : owner ≠ source) :
      Visit plan source (some owner) before (.error ⟨source, stemTaken owner source⟩)
        (before.complain ("Skipping " ++ source.text ++ ": " ++ stemTaken owner source))

/-- Visits one after the other, each in the session that the one before has left. -/
inductive Course (plan : Plan) (owner : String → Option Path) :
    Session → List (Path × Verdict) → Session → Prop
  | nil (s : Session) : Course plan owner s [] s
  | cons {source : Path} {verdict : Verdict} {before middle after : Session}
      {entries : List (Path × Verdict)}
      (visit : Visit plan source (owner source.stem) before verdict middle)
      (rest : Course plan owner middle entries after) :
      Course plan owner before ((source, verdict) :: entries) after

/-- The failure that a verdict tells of, if it does. -/
def Verdict.failure? (verdict : Verdict) : Option SourceFailure :=
  match verdict with
  | .ok _ => none
  | .error failure => some failure

/-- Results and failures of entries, each in order. -/
def BatchResult.ofEntries (entries : List (Path × Verdict)) : BatchResult :=
  ⟨entries.filterMap fun entry => entry.2.toOption,
    entries.filterMap fun entry => Verdict.failure? entry.2⟩

namespace BatchResult

variable {entries : List (Path × Verdict)}

theorem mem_results_ofEntries {result : SourceResult} :
    result ∈ (ofEntries entries).results ↔ ∃ source, (source, .ok result) ∈ entries := by
  have hok : ∀ verdict : Verdict, verdict.toOption = some result ↔ verdict = .ok result := by
    rintro (failure | other) <;> simp [Except.toOption]
  simp only [ofEntries, List.mem_filterMap, hok]
  exact ⟨fun ⟨⟨source, _⟩, hmem, hverdict⟩ => ⟨source, hverdict ▸ hmem⟩,
    fun ⟨source, hmem⟩ => ⟨_, hmem, rfl⟩⟩

theorem mem_failures_ofEntries {failure : SourceFailure} :
    failure ∈ (ofEntries entries).failures ↔ ∃ source, (source, .error failure) ∈ entries := by
  have herror : ∀ verdict : Verdict,
      verdict.failure? = some failure ↔ verdict = .error failure := by
    rintro (other | result) <;> simp [Verdict.failure?]
  simp only [ofEntries, List.mem_filterMap, herror]
  exact ⟨fun ⟨⟨source, _⟩, hmem, hverdict⟩ => ⟨source, hverdict ▸ hmem⟩,
    fun ⟨source, hmem⟩ => ⟨_, hmem, rfl⟩⟩

end BatchResult

/-! ## One source -/

section Visit

variable {plan : Plan} {source : Path} {owner : Option Path} {before after : Session}
  {verdict : Verdict}

theorem runs_processClaimed_iff {owner : Path} :
    Runs (processClaimed plan owner source) before verdict after ↔
      Visit plan source (some owner) before verdict after := by
  unfold processClaimed
  constructor
  · intro h
    split_ifs at h with howner
    · obtain ⟨_, _, hlogged, hpure⟩ := runs_bind.mp h
      obtain ⟨-, rfl⟩ := runs_logged.mp hlogged
      obtain ⟨rfl, rfl⟩ := runs_pure.mp hpure
      exact .refused howner
    · obtain rfl : owner = source := not_not.mp howner
      obtain ⟨attempted, middle, hattempt, hrest⟩ := runs_bind.mp h
      cases attempted with
      | ok result =>
        obtain ⟨rfl, rfl⟩ := runs_pure.mp hrest
        exact .processed (runs_attempt_ok hattempt)
      | error e =>
        obtain ⟨_, _, hlogged, hpure⟩ := runs_bind.mp hrest
        obtain ⟨-, rfl⟩ := runs_logged.mp hlogged
        obtain ⟨rfl, rfl⟩ := runs_pure.mp hpure
        exact .failed (runs_attempt_error hattempt)
  · intro h
    cases h with
    | processed run =>
      rw [if_neg (not_not.mpr rfl)]
      refine runs_bind.mpr ⟨.ok _, after, ?_, runs_pure.mpr ⟨rfl, rfl⟩⟩
      unfold Runs
      rw [run_attempt, show (processSource plan source).run.run before = _ from run]
    | @failed _ stopped e run =>
      rw [if_neg (not_not.mpr rfl)]
      refine runs_bind.mpr ⟨.error e, stopped, ?_, ?_⟩
      · unfold Runs
        rw [run_attempt, run]
      · exact runs_bind.mpr ⟨_, _, runs_logged.mpr ⟨rfl, rfl⟩, runs_pure.mpr ⟨rfl, rfl⟩⟩
    | refused other =>
      rw [if_pos other]
      exact runs_bind.mpr ⟨_, _, runs_logged.mpr ⟨rfl, rfl⟩, runs_pure.mpr ⟨rfl, rfl⟩⟩

theorem source_of_runs_processSource {plan : Plan} {source : Path} {before after : Session}
    {result : SourceResult} (h : Runs (processSource plan source) before result after) :
    result.source = source := by
  unfold processSource at h
  obtain ⟨outcome, _, -, hrest⟩ := runs_bind.mp h
  obtain ⟨run, _, -, hresult⟩ := runs_bind.mp hrest
  obtain ⟨rfl, -⟩ := runs_pure.mp hresult
  rfl

/-- What is entered for a source bears its path. -/
theorem Visit.source_eq (h : Visit plan source owner before verdict after) :
    (∀ result, verdict = .ok result → result.source = source) ∧
      ∀ failure, verdict = .error failure → failure.source = source := by
  cases h with
  | processed run =>
    refine ⟨?_, nofun⟩
    intro result hresult
    cases hresult
    exact source_of_runs_processSource run
  | failed run =>
    refine ⟨nofun, ?_⟩
    intro failure hfailure
    cases hfailure
    rfl
  | refused other =>
    refine ⟨nofun, ?_⟩
    intro failure hfailure
    cases hfailure
    rfl

/-- What the system reports is never that a stem is taken. -/
theorem message_ne_stemTaken (e : SystemError) (owner source : Path) :
    e.message ≠ stemTaken owner source := by
  intro h
  have hmessage : e.message.toList.head? = some '[' := by
    unfold SystemError.message
    rw [String.append_assoc, String.append_assoc, String.append_assoc, String.toList_append,
      List.head?_append]
    rfl
  have hstem : (stemTaken owner source).toList.head? = some 'o' := by
    unfold stemTaken
    rw [String.append_assoc, String.append_assoc, String.toList_append, List.head?_append]
    rfl
  rw [h, hstem] at hmessage
  exact absurd hmessage (by decide)

/-- A source is refused exactly if its stem belongs to another path. -/
theorem Visit.refused_iff (h : Visit plan source owner before verdict after) :
    (∃ path, verdict = .error ⟨source, stemTaken path source⟩) ↔ owner ≠ some source := by
  cases h with
  | processed run => exact ⟨nofun, fun h => absurd rfl h⟩
  | @failed _ _ e run =>
    refine ⟨?_, fun h => absurd rfl h⟩
    rintro ⟨path, hmessage⟩
    exact absurd (SourceFailure.mk.inj (Except.error.inj hmessage)).2
      (message_ne_stemTaken e path source)
  | @refused _ path other => exact ⟨fun _ h => other (Option.some.inj h), fun _ => ⟨path, rfl⟩⟩

/-- Where only the system can stop a source, every visit comes to an end. -/
theorem exists_visit (h : StopsOnly Stop.IsSystem (processSource plan source)) (owner : Path)
    (before : Session) :
    ∃ verdict after, Visit plan source (some owner) before verdict after := by
  by_cases howner : owner = source
  · subst howner
    rcases hrun : (processSource plan owner).run.run before with ⟨ending, after⟩
    cases ending with
    | ok result => exact ⟨_, _, .processed hrun⟩
    | error stop =>
      obtain ⟨e, rfl⟩ := h before stop after hrun
      exact ⟨_, _, .failed hrun⟩
  · exact ⟨_, _, .refused howner⟩

end Visit

/-! ## All sources -/

section Course

variable {plan : Plan} {owner : String → Option Path} {before after : Session}
  {entries : List (Path × Verdict)}

theorem runs_runSources_iff {claims : OrderedMap String Path} {sources : List Path}
    {batch : BatchResult} :
    Runs (runSources plan claims sources) before batch after ↔
      ∃ entries, entries.map Prod.fst = sources ∧
        Course plan (ownerOf claims sources) before entries after ∧
        batch = .ofEntries entries := by
  -- over the sources that are left; who owns a stem does not change on the way
  induction sources generalizing claims before batch after with
  | nil =>
    constructor
    · intro h
      obtain ⟨rfl, rfl⟩ := runs_pure.mp h
      exact ⟨[], rfl, .nil _, rfl⟩
    · rintro ⟨entries, hsources, hcourse, rfl⟩
      obtain rfl := List.map_eq_nil_iff.mp hsources
      cases hcourse
      exact runs_pure.mpr ⟨rfl, rfl⟩
  | cons source rest ih =>
    have howner := ownerOf_head claims source rest
    constructor
    · intro h
      obtain ⟨verdict, middle, hfirst, hrest⟩ := runs_bind.mp h
      obtain ⟨later, last, hlater, hbatch⟩ := runs_bind.mp hrest
      obtain ⟨entries, hsources, hcourse, rfl⟩ := ih.mp hlater
      rw [ownerOf_insert] at hcourse
      have hvisit := runs_processClaimed_iff.mp hfirst
      rw [← howner] at hvisit
      refine ⟨(source, verdict) :: entries, by rw [List.map_cons, hsources], ?_⟩
      cases verdict with
      | ok result =>
        obtain ⟨rfl, rfl⟩ := runs_pure.mp hbatch
        exact ⟨.cons hvisit hcourse, rfl⟩
      | error failure =>
        obtain ⟨rfl, rfl⟩ := runs_pure.mp hbatch
        exact ⟨.cons hvisit hcourse, rfl⟩
    · rintro ⟨entries, hsources, hcourse, rfl⟩
      cases hcourse with
      | nil => cases hsources
      | @cons first verdict _ middle _ entries hvisit hcourse =>
        obtain ⟨rfl, hrest⟩ := List.cons.inj hsources
        rw [howner] at hvisit
        rw [← ownerOf_insert] at hcourse
        have hlater := ih.mpr ⟨entries, hrest, hcourse, rfl⟩
        refine runs_bind.mpr ⟨verdict, middle, runs_processClaimed_iff.mpr hvisit, ?_⟩
        refine runs_bind.mpr ⟨_, _, hlater, ?_⟩
        cases verdict with
        | ok result => exact runs_pure.mpr ⟨rfl, rfl⟩
        | error failure => exact runs_pure.mpr ⟨rfl, rfl⟩

/-- **A batch runs exactly along a course**: every source is visited in its turn, the first with a
stem as its owner, and what the visits enter makes the batch. -/
theorem runs_runBatch_iff {sources : List Path} {batch : BatchResult} :
    Runs (runBatch plan sources) before batch after ↔
      ∃ entries, entries.map Prod.fst = sources ∧
        Course plan (firstWith sources) before entries after ∧ batch = .ofEntries entries :=
  runs_runSources_iff

theorem Course.append {middle : Session} {more : List (Path × Verdict)}
    (h : Course plan owner before entries middle) (h' : Course plan owner middle more after) :
    Course plan owner before (entries ++ more) after := by
  induction h with
  | nil s => exact h'
  | cons visit _ ih => exact .cons visit (ih h')

theorem Course.split {more : List (Path × Verdict)}
    (h : Course plan owner before (entries ++ more) after) :
    ∃ middle, Course plan owner before entries middle ∧ Course plan owner middle more after := by
  induction entries generalizing before with
  | nil => exact ⟨before, .nil before, h⟩
  | cons entry entries ih =>
    cases h with
    | cons visit rest =>
      obtain ⟨middle, hfirst, hmore⟩ := ih rest
      exact ⟨middle, .cons visit hfirst, hmore⟩

/-- Every entry comes from a visit. -/
theorem Course.visit (h : Course plan owner before entries after) {entry : Path × Verdict}
    (hentry : entry ∈ entries) :
    ∃ s s', Visit plan entry.1 (owner entry.1.stem) s entry.2 s' := by
  induction h with
  | nil s => cases hentry
  | cons visit _ ih =>
    rcases List.mem_cons.mp hentry with rfl | hentry
    · exact ⟨_, _, visit⟩
    · exact ih hentry

/-- A course asks for the owners of the stems of its own sources only. -/
theorem Course.congr {owner' : String → Option Path}
    (h : Course plan owner before entries after)
    (howner : ∀ entry ∈ entries, owner entry.1.stem = owner' entry.1.stem) :
    Course plan owner' before entries after := by
  induction h with
  | nil s => exact .nil s
  | @cons source verdict _ _ _ entries visit _ ih =>
    have hfirst : owner source.stem = owner' source.stem :=
      howner (source, verdict) (List.mem_cons_self ..)
    rw [hfirst] at visit
    exact .cons visit (ih fun entry hentry => howner entry (List.mem_cons_of_mem _ hentry))

theorem exists_course_of_owned {sources : List Path}
    (hstops : ∀ source ∈ sources, StopsOnly Stop.IsSystem (processSource plan source))
    (howned : ∀ source ∈ sources, ∃ path, owner source.stem = some path) (before : Session) :
    ∃ entries after, entries.map Prod.fst = sources ∧ Course plan owner before entries after := by
  induction sources generalizing before with
  | nil => exact ⟨[], before, rfl, .nil before⟩
  | cons source rest ih =>
    obtain ⟨path, hpath⟩ := howned source (List.mem_cons_self ..)
    obtain ⟨verdict, middle, hvisit⟩ := exists_visit (hstops source (List.mem_cons_self ..)) path
      before
    rw [← hpath] at hvisit
    obtain ⟨entries, after, hsources, hcourse⟩ :=
      ih (fun later hlater => hstops later (List.mem_cons_of_mem _ hlater))
        (fun later hlater => howned later (List.mem_cons_of_mem _ hlater)) middle
    exact ⟨(source, verdict) :: entries, after, by rw [List.map_cons, hsources],
      .cons hvisit hcourse⟩

/-- Under a sound plan a batch of sources without NUL has a course, whatever the sources hold. -/
theorem exists_course (hplan : plan.IsSound) {sources : List Path}
    (hs : ∀ source ∈ sources, source.hasNul = false) (before : Session) :
    ∃ entries after, entries.map Prod.fst = sources ∧
      Course plan (firstWith sources) before entries after :=
  exists_course_of_owned (fun source hsource => stopsOnly_processSource hplan (hs source hsource))
    (fun _ hsource => exists_firstWith hsource) before

end Course

end FlowAtlas
