import FlowAtlas.Proofs.Batch.LogFree

/-!
# Sources that cannot be read

A source that cannot be read leaves nothing but an entry and its place in the log; but it has
claimed its stem before it was asked for.  So a batch goes on as it would without this source exactly
if no other path of the batch waits for the stem.

Main facts: `exists_course_around` and `same_without_unread_iff`.
-/

namespace FlowAtlas

open Job

/-! ## Owners of stems -/

section Owners

variable {front rest : List Path} {x path : Path} {stem : String}

theorem firstWith_around_of_first (h : firstWith (front ++ [x]) x.stem = some x)
    (rest : List Path) : firstWith (front ++ x :: rest) x.stem = some x := by
  unfold firstWith at h ⊢
  rw [List.append_cons, List.find?_append, h, Option.some_or]

theorem firstWith_around_of_ne (h : stem ≠ x.stem) :
    firstWith (front ++ x :: rest) stem = firstWith (front ++ rest) stem := by
  unfold firstWith
  rw [List.find?_append, List.find?_append, List.find?_cons_of_neg (by simpa using h.symm)]

/-- Without a source all others keep their owners if nobody else comes to own its stem. -/
theorem firstWith_around_eq (hfirst : firstWith (front ++ [x]) x.stem = some x)
    (hx : ∀ y, firstWith (front ++ rest) x.stem = some y → y = x) (h : path ∈ front ++ rest) :
    firstWith (front ++ x :: rest) path.stem = firstWith (front ++ rest) path.stem := by
  by_cases hstem : path.stem = x.stem
  · obtain ⟨y, hy⟩ := exists_firstWith h
    have hyx : y = x := hx y (hstem ▸ hy)
    rw [hy, hyx, hstem, firstWith_around_of_first hfirst rest]
  · exact firstWith_around_of_ne hstem

end Owners

/-! ## Batches with and without the source -/

/-- Two batches tell of the same and leave the same, but for one failure that the first of them has
behind those of the given batch. -/
structure SameBut (failure : SourceFailure) (front : BatchResult) (batch : BatchResult)
    (after : Session) (batch' : BatchResult) (after' : Session) : Prop where
  results : batch'.results = batch.results
  failures : ∃ later, batch.failures = front.failures ++ failure :: later ∧
    batch'.failures = front.failures ++ later
  tree : after'.tree = after.tree
  renderer : after'.renderer = after.renderer
  labeller : after'.labeller = after.labeller

theorem SameBut.mem_failures {failure other : SourceFailure} {front batch batch' : BatchResult}
    {after after' : Session} (h : SameBut failure front batch after batch' after')
    (hother : other ∈ batch'.failures) : other ∈ batch.failures := by
  obtain ⟨later, hwith, hwithout⟩ := h.failures
  rw [hwithout] at hother
  rw [hwith]
  rcases List.mem_append.mp hother with hother | hother
  · exact List.mem_append_left _ hother
  · exact List.mem_append_right _ (List.mem_cons_of_mem _ hother)

section Batch

variable {plan : Plan} {front rest : List Path} {x : Path} {before middle after : Session}
  {first batch : BatchResult} {e : SystemError}

/-- The course of a batch around a source that cannot be read. -/
theorem exists_course_around (hfront : Runs (runBatch plan front) before first middle)
    (hfirst : firstWith (front ++ [x]) x.stem = some x)
    (hread : Tables.readLines middle.tree x = .error (.system e))
    (h : Runs (runBatch plan (front ++ x :: rest)) before batch after) :
    ∃ earlier later log, earlier.map Prod.fst = front ∧ later.map Prod.fst = rest ∧
      first = .ofEntries earlier ∧
      batch = .ofEntries (earlier ++ (x, .error ⟨x, e.message⟩) :: later) ∧
      Course plan (firstWith (front ++ x :: rest)) before
        (earlier ++ (x, .error ⟨x, e.message⟩) :: later) after ∧
      Course plan (firstWith (front ++ x :: rest)) before earlier middle ∧
      Course plan (firstWith (front ++ x :: rest)) { middle with log } later after := by
  obtain ⟨entries, hsources, hcourse, rfl⟩ := runs_runBatch_iff.mp h
  obtain ⟨earlier, others, rfl, hearlier, hothers⟩ := List.map_eq_append_iff.mp hsources
  obtain ⟨⟨path, verdict⟩, later, rfl, rfl, hlater⟩ := List.map_eq_cons_iff.mp hothers
  obtain ⟨turn, hbefore, hbehind⟩ := hcourse.split
  have howner : firstWith (front ++ path :: rest) path.stem = some path :=
    firstWith_around_of_first hfirst rest
  -- the sources in front are taken as if they were all
  have hown : Course plan (firstWith front) before earlier turn := by
    refine hbefore.congr fun entry hentry => ?_
    have hmem : entry.1 ∈ front := hearlier ▸ List.mem_map_of_mem hentry
    obtain ⟨y, hy⟩ := exists_firstWith hmem
    unfold firstWith at hy ⊢
    rw [List.find?_append, hy, Option.some_or]
  obtain ⟨hbatch, hturn⟩ :=
    hfront.unique (runs_runBatch_iff.mpr ⟨earlier, hearlier, hown, rfl⟩)
  subst hturn
  cases hbehind with
  | cons hvisit hrest =>
    obtain ⟨log, hstop⟩ := run_processSource_of_unread plan hread
    rw [howner] at hvisit
    cases hvisit with
    | processed run =>
      rw [show (processSource plan path).run.run middle = _ from run] at hstop
      cases hstop
    | failed run =>
      rw [run] at hstop
      cases hstop
      exact ⟨earlier, later, _, hearlier, hlater, hbatch, rfl, hcourse, hbefore, hrest⟩
    | refused other => exact absurd rfl other

/-- A path whose stem belongs to another one is refused. -/
theorem Course.verdict_of_claimed {owner : String → Option Path}
    {entries : List (Path × Verdict)} (h : Course plan owner before entries after) {path : Path}
    (howner : owner path.stem = some x) (hne : path ≠ x) {verdict : Verdict}
    (hentry : (path, verdict) ∈ entries) : verdict = .error ⟨path, stemTaken x path⟩ := by
  obtain ⟨s, s', hvisit⟩ := h.visit hentry
  change Visit plan path (owner path.stem) s verdict s' at hvisit
  rw [howner] at hvisit
  cases hvisit with
  | processed run => exact absurd rfl hne
  | failed run => exact absurd rfl hne
  | refused other => rfl

/-- Batches differ by more than one failure if a path is refused in the one and comes to its turn in
the other. -/
theorem not_sameBut_of_refused {failure : SourceFailure} {after' : Session}
    {owner owner' : String → Option Path} {entries entries' : List (Path × Verdict)}
    (hcourse : Course plan owner before entries after)
    (hcourse' : Course plan owner' before entries' after') {path : Path}
    (howner : owner path.stem = some x) (hne : path ≠ x) (howner' : owner' path.stem = some path)
    {verdict : Verdict} (hentry : (path, verdict) ∈ entries') :
    ¬ SameBut failure first (.ofEntries entries) after (.ofEntries entries') after' := by
  intro hsame
  obtain ⟨s, s', hvisit⟩ := hcourse'.visit hentry
  change Visit plan path (owner' path.stem) s verdict s' at hvisit
  rw [howner'] at hvisit
  cases hvisit with
  | @processed _ _ result run =>
    have hresult : result ∈ (BatchResult.ofEntries entries').results :=
      BatchResult.mem_results_ofEntries.mpr ⟨path, hentry⟩
    rw [hsame.results] at hresult
    obtain ⟨source, hmem⟩ := BatchResult.mem_results_ofEntries.mp hresult
    obtain ⟨t, t', hturn⟩ := hcourse.visit hmem
    obtain rfl : path = source :=
      (source_of_runs_processSource run).symm.trans (hturn.source_eq.1 result rfl)
    cases hcourse.verdict_of_claimed howner hne hmem
  | @failed _ _ e' run =>
    have hfailure : ⟨path, e'.message⟩ ∈ (BatchResult.ofEntries entries').failures :=
      BatchResult.mem_failures_ofEntries.mpr ⟨path, hentry⟩
    have hkept : (⟨path, e'.message⟩ : SourceFailure) ∈
        (BatchResult.ofEntries entries).failures := hsame.mem_failures hfailure
    obtain ⟨source, hmem⟩ := BatchResult.mem_failures_ofEntries.mp hkept
    obtain ⟨t, t', hturn⟩ := hcourse.visit hmem
    obtain rfl : path = source := hturn.source_eq.2 _ rfl
    have hverdict := hcourse.verdict_of_claimed howner hne hmem
    exact message_ne_stemTaken e' x path (SourceFailure.mk.inj (Except.error.inj hverdict)).2
  | refused other => exact absurd rfl other

/-- Without a source that cannot be read the others go the same course, if nobody waits for its
stem. -/
theorem Course.without (hfirst : firstWith (front ++ [x]) x.stem = some x)
    (hx : ∀ y, firstWith (front ++ rest) x.stem = some y → y = x)
    {earlier later : List (Path × Verdict)} {log : Log} (hearlier : earlier.map Prod.fst = front)
    (hlater : later.map Prod.fst = rest)
    (hbefore : Course plan (firstWith (front ++ x :: rest)) before earlier middle)
    (hrest : Course plan (firstWith (front ++ x :: rest)) { middle with log } later after) :
    ∃ log', Course plan (firstWith (front ++ rest)) before (earlier ++ later)
      { after with log := log' } := by
  have howner : ∀ entry ∈ earlier ++ later,
      firstWith (front ++ x :: rest) entry.1.stem = firstWith (front ++ rest) entry.1.stem := by
    intro entry hentry
    refine firstWith_around_eq hfirst hx ?_
    rw [← hearlier, ← hlater, ← List.map_append]
    exact List.mem_map_of_mem hentry
  obtain ⟨log', hshifted⟩ := hrest.withLog middle.log
  exact ⟨log', (hbefore.append hshifted).congr howner⟩

/-- **A batch gives and leaves the same without a source that cannot be read exactly if the stem of
this source is not left to another path.** -/
theorem same_without_unread_iff (hfront : Runs (runBatch plan front) before first middle)
    (hfirst : firstWith (front ++ [x]) x.stem = some x)
    (hread : Tables.readLines middle.tree x = .error (.system e))
    (h : Runs (runBatch plan (front ++ x :: rest)) before batch after) :
    (⟨x, e.message⟩ ∈ batch.failures) ∧
      ((∃ batch' after', Runs (runBatch plan (front ++ rest)) before batch' after' ∧
          SameBut ⟨x, e.message⟩ first batch after batch' after') ↔
        ∀ y, firstWith (front ++ rest) x.stem = some y → y = x) := by
  obtain ⟨earlier, later, log, hearlier, hlater, rfl, rfl, hcourse, hbefore, hrest⟩ :=
    exists_course_around hfront hfirst hread h
  refine ⟨by simp [BatchResult.ofEntries, Verdict.failure?], ?_, ?_⟩
  · rintro ⟨batch', after', hwithout, hsame⟩ y hy
    by_contra hne
    obtain ⟨hmem, hstem⟩ := mem_of_firstWith hy
    obtain ⟨entries, hsources, hcourse', rfl⟩ := runs_runBatch_iff.mp hwithout
    obtain ⟨⟨path, verdict⟩, hentry, rfl⟩ := List.mem_map.mp (hsources ▸ hmem)
    change path.stem = x.stem at hstem
    have howner : firstWith (front ++ x :: rest) path.stem = some x := by
      rw [hstem]
      exact firstWith_around_of_first hfirst rest
    have howner' : firstWith (front ++ rest) path.stem = some path :=
      (congrArg (firstWith (front ++ rest)) hstem).trans hy
    exact not_sameBut_of_refused hcourse hcourse' howner hne howner' hentry hsame
  · intro hx
    obtain ⟨log', hwithout⟩ := Course.without hfirst hx hearlier hlater hbefore hrest
    refine ⟨.ofEntries (earlier ++ later), { after with log := log' },
      runs_runBatch_iff.mpr ⟨_, by rw [List.map_append, hearlier, hlater], hwithout, rfl⟩,
      ?_, ⟨(BatchResult.ofEntries later).failures, ?_, ?_⟩, rfl, rfl, rfl⟩
    · simp [BatchResult.ofEntries, Except.toOption]
    · simp [BatchResult.ofEntries, Verdict.failure?]
    · simp [BatchResult.ofEntries]

end Batch

/-! ## A stem left behind -/

namespace StemLeftBehind

/-- A path that leads nowhere, and a source with the same stem. -/
def missing : Path := ⟨.here, ["missing", "m.xml"]⟩

def present : Path := ⟨.here, ["m.xml"]⟩

def content : String := "<Node Id=\"1\" Class=\"Ark:EndGame\"/>\n"

def session : Session :=
  .start
    ⟨.ofList [(["work"], .directory),
      (["work", "m.xml"], .file (Text.Utf8.encode content.toList))], ["work"]⟩
    [] .blank .standard

def plan : Plan := ⟨.standard, false, some ⟨.here, ["out"]⟩⟩

/-- What the failure to read the first path is called. -/
def cause : SystemError := Fault.missing.on missing

theorem readLines_missing :
    Tables.readLines session.tree missing = .error (.system cause) := by decide

theorem firstWith_missing : firstWith ([] ++ [missing]) missing.stem = some missing := by decide

/-- The sources that were processed, and those that failed. -/
def reported (batch : BatchResult) : List Path × List SourceFailure :=
  (batch.results.map SourceResult.source, batch.failures)

theorem exists_runs_both :
    ∃ batch after, Runs (runBatch plan ([] ++ missing :: [present])) session batch after ∧
      reported batch =
        ([], [⟨missing, cause.message⟩, ⟨present, stemTaken missing present⟩]) :=
  exists_runs_of_map (by decide)

theorem exists_runs_present :
    ∃ batch after, Runs (runBatch plan ([] ++ [present])) session batch after ∧
      reported batch = ([present], []) :=
  exists_runs_of_map (by decide +kernel)

end StemLeftBehind

open StemLeftBehind in
theorem stemLeftBehind_same_without_unread_iff :
    Runs (runBatch plan []) session .blank session ∧
      firstWith ([] ++ [missing]) missing.stem = some missing ∧
      Tables.readLines session.tree missing = .error (.system cause) ∧
      ∃ batch after, Runs (runBatch plan ([] ++ missing :: [present])) session batch after ∧
        ((∃ batch' after', Runs (runBatch plan ([] ++ [present])) session batch' after' ∧
            SameBut ⟨missing, cause.message⟩ .blank batch after batch' after') ↔
          ∀ y, firstWith ([] ++ [present]) missing.stem = some y → y = missing) := by
  have hfront : Runs (runBatch plan []) session .blank session := runs_pure.mpr ⟨rfl, rfl⟩
  obtain ⟨batch, after, h, -⟩ := exists_runs_both
  exact ⟨hfront, firstWith_missing, readLines_missing, batch, after, h,
    (same_without_unread_iff hfront firstWith_missing readLines_missing h).2⟩

open StemLeftBehind in
/-- A source that cannot be read may stand in the way of another one. -/
theorem not_forall_same_without_unread :
    ¬ ∀ (plan : Plan) (front rest : List Path) (x : Path) (before middle after : Session)
      (first batch : BatchResult) (e : SystemError),
      Runs (runBatch plan front) before first middle →
        firstWith (front ++ [x]) x.stem = some x →
        Tables.readLines middle.tree x = .error (.system e) →
        Runs (runBatch plan (front ++ x :: rest)) before batch after →
        ∃ batch' after', Runs (runBatch plan (front ++ rest)) before batch' after' ∧
          SameBut ⟨x, e.message⟩ first batch after batch' after' := by
  intro hall
  obtain ⟨batch, after, hboth, hreported⟩ := exists_runs_both
  obtain ⟨batch', after', hpresent, hreported'⟩ := exists_runs_present
  obtain ⟨other, _, hother, hsame⟩ := hall plan [] [present] missing session session after .blank
    batch cause (runs_pure.mpr ⟨rfl, rfl⟩) firstWith_missing readLines_missing hboth
  obtain ⟨rfl, -⟩ := hother.unique hpresent
  have hresults : (reported other).1 = (reported batch).1 := by
    unfold reported
    rw [hsame.results]
  rw [hreported, hreported'] at hresults
  cases hresults

end FlowAtlas
