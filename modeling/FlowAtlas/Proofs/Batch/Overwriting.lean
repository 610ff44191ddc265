import FlowAtlas.Proofs.Batch.Documents

/-!
# When documents of one source overwrite each other

An entity's name stays current when a scope is closed, so a source may close several scopes under
one name.  Their documents share a path, and only the last of them is left.  Scopes keep their
documents exactly if these lie at different locations; for plain names this means different names.

Main facts: `Documented.nodup_locations` and `nodup_documents_iff`.
-/

namespace FlowAtlas

open Job FileTree

section Locations

variable {plan : Plan} {source : Path} {before after : Session} {result : SourceResult}
  {lines : List String} {documents : List Document}

theorem Documented.exists_paths (h : Documented plan source before result after lines documents) :
    ∃ directory, plan.directory = some directory ∧
      result.documents = (documents.map Document.scope).map fun scope =>
        SourceRun.documentPath directory (Dot.documentName source scope) := by
  obtain ⟨closed, last, hscopes, -⟩ := exists_closed_trailing lines
  have hlast : last ∈ documents.map Document.scope := by
    rw [h.scopes, hscopes]
    exact List.mem_append_right _ (List.mem_singleton_self last)
  obtain ⟨d, hd, -⟩ := List.mem_map.mp hlast
  obtain ⟨directory, hdirectory, -⟩ := (h.each d hd).path
  refine ⟨directory, hdirectory, ?_⟩
  rw [← h.paths, List.map_map]
  refine List.map_congr_left fun e he => ?_
  obtain ⟨directory', hdirectory', hpath⟩ := (h.each e he).path
  rw [hdirectory] at hdirectory'
  cases hdirectory'
  exact hpath

theorem Documented.location_eq (h : Documented plan source before result after lines documents)
    {d : Document} (hd : d ∈ documents) (hs : '/' ∉ source.stem.toList)
    (hending : '/' ∉ d.scope.ending.toList) :
    ∃ directory location, plan.directory = some directory ∧
      after.tree.walk (after.tree.start directory.anchor) directory.names = .ok location ∧
      d.location = location ++ [source.stem ++ d.scope.ending] :=
  (h.namedAfter hd).location_eq (h.written.leads d hd).2 hs hending

theorem Documented.location_inj (h : Documented plan source before result after lines documents)
    {d e : Document} (hd : d ∈ documents) (he : e ∈ documents) (hs : '/' ∉ source.stem.toList)
    (hdending : '/' ∉ d.scope.ending.toList) (heending : '/' ∉ e.scope.ending.toList) :
    d.location = e.location ↔ d.path = e.path := by
  obtain ⟨directory, location, hdirectory, hwalk, hdlocation⟩ := h.location_eq hd hs hdending
  obtain ⟨directory', location', hdirectory', hwalk', helocation⟩ := h.location_eq he hs heending
  obtain ⟨_, hd', hdpath⟩ := (h.each d hd).path
  obtain ⟨_, he', hepath⟩ := (h.each e he).path
  rw [hdirectory] at hdirectory' hd' he'
  cases hdirectory'
  cases hd'
  cases he'
  rw [hwalk] at hwalk'
  cases hwalk'
  rw [hdlocation, helocation, hdpath, hepath, Scope.documentPath_inj,
    Scope.route_inj_of_slash_not_mem hdending heending, List.append_right_inj]
  simp [← String.toList_inj]

/-- Documents at different locations have different paths. -/
theorem Documented.nodup_paths (h : Documented plan source before result after lines documents)
    (hn : (documents.map Document.location).Nodup) : result.documents.Nodup := by
  rw [← h.paths]
  unfold List.Nodup at hn ⊢
  rw [List.pairwise_map] at hn ⊢
  refine hn.imp_of_mem fun {d e} hd he hne hpath => hne ?_
  have hlocate := (h.written.leads d hd).2
  rw [hpath, (h.written.leads e he).2] at hlocate
  exact (Except.ok.inj hlocate).symm

/-- Documents with plain paths lie at different locations exactly if their paths differ. -/
theorem Documented.nodup_locations
    (h : Documented plan source before result after lines documents)
    (hs : '/' ∉ source.stem.toList)
    (hp : ∀ scope ∈ documents.map Document.scope, '/' ∉ scope.ending.toList) :
    (documents.map Document.location).Nodup ↔ result.documents.Nodup := by
  rw [← h.paths]
  unfold List.Nodup
  rw [List.pairwise_map, List.pairwise_map]
  refine List.Pairwise.iff_of_mem fun {d e} hd he => not_congr ?_
  exact h.location_inj hd he hs (hp _ (List.mem_map_of_mem hd)) (hp _ (List.mem_map_of_mem he))

end Locations

/-- **The documents of a source are distinct exactly if its closed scopes have distinct routes.**
In the end a document reads as the last one at its location, so all are kept if the locations are
distinct; for names without slashes it takes distinct names and nothing more. -/
theorem nodup_documents_iff {plan : Plan} {source : Path} {before after : Session}
    {result : SourceResult} (h : Runs (processSource plan source) before result after) :
    ∃ lines documents closed last,
      Documented plan source before result after lines documents ∧
      documents.map Document.scope = closed ++ [last] ∧
      (∀ scope ∈ closed, scope.IsClosed) ∧ last.trailing = true ∧
      (result.documents.Nodup ↔ (closed.map Scope.route).Nodup) ∧
      (∀ d ∈ documents, ∃ kept, Document.lastAt d.location documents = some kept ∧
        after.tree.read d.path = .ok kept.content) ∧
      ((documents.map Document.location).Nodup →
        result.documents.Nodup ∧ ∀ d ∈ documents, after.tree.read d.path = .ok d.content) ∧
      ('/' ∉ source.stem.toList → (∀ scope ∈ closed, scope.HasPlainName) →
        ((documents.map Document.location).Nodup ↔ (closed.map Scope.entity).Nodup)) := by
  obtain ⟨lines, documents, hdocumented⟩ := runs_processSource h
  obtain ⟨closed, last, hscopes, hclosed, hlast⟩ := exists_closed_trailing lines
  rw [← hdocumented.scopes] at hscopes
  have hnodup : result.documents.Nodup ↔ (closed.map Scope.route).Nodup := by
    obtain ⟨directory, -, hpaths⟩ := hdocumented.exists_paths
    rw [hpaths, hscopes]
    exact Scope.nodup_documentPaths directory source hclosed hlast
  refine ⟨lines, documents, closed, last, hdocumented, hscopes, hclosed, hlast, hnodup, ?_, ?_, ?_⟩
  · intro d hd
    obtain ⟨kept, hkept⟩ := Document.exists_lastAt hd
    exact ⟨kept, hkept, hdocumented.written.read hd hkept⟩
  · intro hlocations
    refine ⟨hdocumented.nodup_paths hlocations, fun d hd => ?_⟩
    exact hdocumented.written.read hd (Document.lastAt_of_nodup hd hlocations)
  · intro hstem hplain
    rw [hdocumented.nodup_locations hstem, hnodup, Scope.nodup_routes_of_plain hclosed hplain]
    intro scope hscope
    rw [hscopes] at hscope
    rcases List.mem_append.mp hscope with hscope | hscope
    · exact (hplain scope hscope).slash_not_mem_ending
    · rw [List.mem_singleton.mp hscope]
      exact Scope.slash_not_mem_ending_of_trailing hlast

/-! ## One name for two scopes -/

namespace ClosedTwice

/-- One entity, and two graphs behind it. -/
def content : String :=
  "<Entity Name=\"Door\">\n" ++
    "<Node Id=\"1\" Class=\"Ark:EndGame\"/>\n</FlowGraph>\n" ++
    "<Node Id=\"2\" Class=\"Ark:EndGame\"/>\n</FlowGraph>\n"

def source : Path := ⟨.here, ["m.xml"]⟩

def session : Session :=
  .start
    ⟨.ofList [(["work"], .directory),
      (["work", "m.xml"], .file (Text.Utf8.encode content.toList))], ["work"]⟩
    [] .blank .standard

def plan : Plan := ⟨.standard, false, some ⟨.here, ["out"]⟩⟩

/-- The paths of the documents, if there is a result. -/
def paths (outcome : Except Stop SourceResult × Session) : List Path :=
  match outcome.1 with
  | .ok result => result.documents
  | .error _ => []

theorem exists_runs_of_paths {job : Job SourceResult} {before : Session} {p : Path}
    {ps : List Path} (h : paths (job.run.run before) = p :: ps) :
    ∃ result after, Runs job before result after ∧ result.documents = p :: ps := by
  unfold Runs
  rcases hrun : job.run.run before with ⟨outcome, after⟩
  rw [hrun] at h
  cases outcome with
  | error stop => cases h
  | ok result => exact ⟨result, after, rfl, h⟩

theorem exists_runs :
    ∃ result after, Runs (processSource plan source) session result after ∧
      result.documents =
        [⟨.here, ["out", "m_Door.dot"]⟩, ⟨.here, ["out", "m_Door.dot"]⟩,
          ⟨.here, ["out", "m.dot"]⟩] :=
  exists_runs_of_paths (by decide +kernel)

end ClosedTwice

theorem closedTwice_nodup_documents_iff :
    ∃ result after, Runs (processSource ClosedTwice.plan ClosedTwice.source) ClosedTwice.session
        result after ∧
      ∃ closed : List Scope, (result.documents.Nodup ↔ (closed.map Scope.route).Nodup) := by
  obtain ⟨result, after, h, -⟩ := ClosedTwice.exists_runs
  obtain ⟨-, -, closed, -, -, -, -, -, hnodup, -⟩ := nodup_documents_iff h
  exact ⟨result, after, h, closed, hnodup⟩

/-- Distinct documents cannot be had for every source. -/
theorem not_forall_nodup_documents :
    ¬ ∀ (plan : Plan) (source : Path) (before after : Session) (result : SourceResult),
      Runs (processSource plan source) before result after → result.documents.Nodup := by
  intro hall
  obtain ⟨result, after, h, hdocuments⟩ := ClosedTwice.exists_runs
  have hnodup := hall _ _ _ _ _ h
  rw [hdocuments] at hnodup
  revert hnodup
  decide

end FlowAtlas
