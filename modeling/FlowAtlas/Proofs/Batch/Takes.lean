import FlowAtlas.Proofs.Batch.Course

/-!
# What a batch does with each source

A batch takes its sources one after the other.  The first source with a stem owns it: the others
with this stem are refused and write nothing.  So the file tree in the end is what all documents
leave that were written for the sources, in order.

Main facts: `Visit.documents` (what is written for one source) and `exists_takes`.
-/

namespace FlowAtlas

open Job FileTree

/-! ## One source -/

/-- What a batch did with one source: how it ended, and the documents written on the way. -/
structure Take where
  source : Path
  outcome : Except SourceFailure SourceResult
  documents : List Document

namespace Take

def result? (take : Take) : Option SourceResult := take.outcome.toOption

def failure? (take : Take) : Option SourceFailure :=
  match take.outcome with
  | .ok _ => none
  | .error failure => some failure

/-- Something was done for the source: it was processed, or documents were written before it
failed. -/
def Acts (take : Take) : Prop := take.documents ≠ [] ∨ ∃ result, take.result? = some result

/-- The documents are named after the source; if it was processed they are those of its scopes. -/
structure Sound (plan : Plan) (take : Take) : Prop where
  named : ∀ d ∈ take.documents, NamedAfter plan take.source d
  processed : ∀ {result}, take.result? = some result → result.source = take.source ∧
    ∃ before after lines, Documented plan take.source before result after lines take.documents

end Take

/-- A source is processed under its own name or not at all. -/
theorem Visit.documents {plan : Plan} {source : Path} {owner : Option Path}
    {before after : Session} {verdict : Verdict}
    (h : Visit plan source owner before verdict after) :
    ∃ documents, Written before.tree documents after.tree ∧
      Take.Sound plan ⟨source, verdict, documents⟩ ∧
      (Take.Acts ⟨source, verdict, documents⟩ → owner = some source) := by
  cases h with
  | @processed _ _ result run =>
    obtain ⟨lines, documents, hdocumented⟩ := runs_processSource run
    refine ⟨documents, hdocumented.written, ⟨fun d hd => hdocumented.namedAfter hd, ?_⟩,
      fun _ => rfl⟩
    intro other hother
    cases hother
    exact ⟨source_of_runs_processSource run, before, after, lines, hdocumented⟩
  | failed run =>
    have hwrote := keeps_processSource plan source before
    rw [run] at hwrote
    obtain ⟨documents, hnamed, hwritten⟩ := hwrote
    exact ⟨documents, hwritten, ⟨hnamed, fun hresult => by cases hresult⟩, fun _ => rfl⟩
  | refused other =>
    refine ⟨[], .nil _, ⟨by simp, fun hresult => by cases hresult⟩, ?_⟩
    rintro (hdocuments | ⟨result, hresult⟩)
    · exact absurd rfl hdocuments
    · cases hresult

/-! ## All sources -/

/-- What a batch did with its sources: who acted owns its stem, and the documents of all make the
tree. -/
structure Taken (plan : Plan) (owner : String → Option Path) (before : FileTree)
    (batch : BatchResult) (after : FileTree) (takes : List Take) : Prop where
  results : takes.filterMap Take.result? = batch.results
  failures : takes.filterMap Take.failure? = batch.failures
  sound : ∀ take ∈ takes, take.Sound plan
  owner : ∀ take ∈ takes, take.Acts → owner take.source.stem = some take.source
  written : Written before (takes.flatMap Take.documents) after

/-- A course takes its sources one after the other. -/
theorem Course.takes {plan : Plan} {owner : String → Option Path} {before after : Session}
    {entries : List (Path × Verdict)} (h : Course plan owner before entries after) :
    ∃ takes, takes.map Take.source = entries.map Prod.fst ∧
      Taken plan owner before.tree (.ofEntries entries) after.tree takes := by
  induction h with
  | nil s => exact ⟨[], rfl, rfl, rfl, by simp, by simp, .nil _⟩
  | @cons source verdict before middle after entries visit _ ih =>
    obtain ⟨documents, hwritten, hsound, howner⟩ := visit.documents
    obtain ⟨takes, hsources, htaken⟩ := ih
    refine ⟨⟨source, verdict, documents⟩ :: takes, ?_, ?_, ?_, ?_, ?_, ?_⟩
    · rw [List.map_cons, List.map_cons, hsources]
    · rw [List.filterMap_cons, htaken.results]
      cases verdict <;> rfl
    · rw [List.filterMap_cons, htaken.failures]
      cases verdict <;> rfl
    · intro take htake
      rcases List.mem_cons.mp htake with rfl | htake
      · exact hsound
      · exact htaken.sound take htake
    · intro take htake hacts
      rcases List.mem_cons.mp htake with rfl | htake
      · exact howner hacts
      · exact htaken.owner take htake hacts
    · rw [List.flatMap_cons]
      exact hwritten.append htaken.written

/-- **What a batch leaves is what its sources leave one after the other**, and of several sources
with one stem only the first does anything. -/
theorem exists_takes {plan : Plan} {sources : List Path} {before after : Session}
    {batch : BatchResult} (h : Runs (runBatch plan sources) before batch after) :
    ∃ takes, takes.map Take.source = sources ∧
      Taken plan (firstWith sources) before.tree batch after.tree takes := by
  obtain ⟨entries, rfl, hcourse, rfl⟩ := runs_runBatch_iff.mp h
  exact hcourse.takes

end FlowAtlas
