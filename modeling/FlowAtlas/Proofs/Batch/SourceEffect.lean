import FlowAtlas.Proofs.Batch.Course
import FlowAtlas.Proofs.Batch.Effect

/-!
# What a source does

Where no images are made and documents go to a directory that is there, what a source does depends on
its lines and on the directory alone.  So a batch leaves the files and kinds of all its sources, if
none of them puts a file on the way of another.

Main facts: `doesAt_processSource` and `does_course`.
-/

namespace FlowAtlas

open Job FileTree

/-! ## Sources -/

/-- The scopes that have a graph, with their graphs. -/
def graphsOf (scopes : List Scope) : List (Scope × FlowGraph) :=
  scopes.filterMap fun scope => scope.graph.value.toOption.map fun graph => (scope, graph)

/-- What processing a source does, given what reading it gives. -/
def sourceEffect (plan : Plan) (ground : Ground) (source : Path) :
    Except FileError (List String) → Effect SourceResult
  | .error e => ⟨.error (.file e), [], []⟩
  | .ok lines =>
    let exports := exportEffect plan ground source (graphsOf (assembleScopes lines).value)
    ⟨exports.ending.map fun done => ⟨source, done.map Prod.fst, .of (done.map Prod.snd) []⟩,
      exports.files, exports.kinds⟩

section Source

variable {plan : Plan} {ground : Ground} {source : Path} {s : Session} {lines : List String}

theorem graphsOf_cons {scope : Scope} {graph : FlowGraph} (h : scope.graph.value = .ok graph)
    (scopes : List Scope) : graphsOf (scope :: scopes) = (scope, graph) :: graphsOf scopes := by
  unfold graphsOf
  rw [List.filterMap_cons, h]
  rfl

theorem map_fst_graphsOf {scopes : List Scope} (h : ∀ scope ∈ scopes, none ∉ scope.nodes.keys) :
    (graphsOf scopes).map Prod.fst = scopes := by
  induction scopes with
  | nil => rfl
  | cons scope scopes ih =>
    obtain ⟨graph, hgraph, -⟩ := Scope.exists_covering_graph (h scope (List.mem_cons_self ..))
    rw [graphsOf_cons hgraph, List.map_cons,
      ih fun later hmem => h later (List.mem_cons_of_mem _ hmem)]

/-- The names under which the documents of a source are written. -/
def Ground.written (ground : Ground) (source : Path) : Except FileError (List String) → List String
  | .error _ => []
  | .ok lines => ground.writable ((assembleScopes lines).value.map (fileName source))

theorem map_fileName_graphsOf (source : Path) (lines : List String) :
    ((graphsOf (assembleScopes lines).value).map fun g => fileName source g.1) =
      (assembleScopes lines).value.map (fileName source) := by
  have hscopes : (graphsOf (assembleScopes lines).value).map Prod.fst =
      (assembleScopes lines).value := map_fst_graphsOf fun scope hscope => none_not_mem_keys hscope
  conv_rhs => rw [← hscopes, List.map_map]
  rfl

theorem map_fst_sourceEffect (read : Except FileError (List String)) :
    (sourceEffect plan ground source read).files.map Prod.fst =
      (ground.written source read).map fun name => ground.place ++ [name] := by
  cases read with
  | error e => rfl
  | ok lines =>
    show (exportEffect plan ground source _).files.map Prod.fst = _
    rw [map_fst_exportEffect, map_fileName_graphsOf]
    rfl

theorem documents_sourceEffect {read : Except FileError (List String)} {result : SourceResult}
    (h : (sourceEffect plan ground source read).ending = .ok result) :
    result.documents = (ground.written source read).map ground.directory.entry := by
  cases read with
  | error e => cases h
  | ok lines =>
    unfold sourceEffect at h
    dsimp only at h
    cases hdone : (exportEffect plan ground source
        (graphsOf (assembleScopes lines).value)).ending with
    | error stop =>
      rw [hdone] at h
      cases h
    | ok done =>
      rw [hdone] at h
      cases h
      show done.map Prod.fst = _
      rw [paths_exportEffect hdone, map_fileName_graphsOf]
      rfl

theorem doesAt_mapM_graphOf {scopes : List Scope}
    (h : ∀ scope ∈ scopes, none ∉ scope.nodes.keys) (s : Session) :
    DoesAt (scopes.mapM SourceRun.graphOf) s ⟨.ok (graphsOf scopes), [], []⟩ := by
  induction scopes generalizing s with
  | nil =>
    rw [List.mapM_nil]
    exact doesAt_pure []
  | cons scope scopes ih =>
    obtain ⟨graph, hgraph, -⟩ := Scope.exists_covering_graph (h scope (List.mem_cons_self ..))
    have hfirst : DoesAt (SourceRun.graphOf scope) s ⟨.ok (scope, graph), [], []⟩ := by
      refine (doesAt_logged _).idle_bind fun log => ?_
      rw [hgraph]
      exact (doesAt_pure graph).idle_bind fun _ => doesAt_pure _
    rw [List.mapM_cons, graphsOf_cons hgraph]
    exact hfirst.idle_bind fun log =>
      (ih (fun later hmem => h later (List.mem_cons_of_mem _ hmem)) _).bind_idle
        fun _ => doesAt_pure _

theorem doesAt_ingest (h : Tables.readLines s.tree source = .ok lines) :
    DoesAt (SourceRun.start source).ingest s
      ⟨.ok { SourceRun.start source with graphs := graphsOf (assembleScopes lines).value },
        [], []⟩ := by
  unfold SourceRun.ingest
  refine (doesAt_logged _).idle_bind fun log => doesAt_get_bind ?_
  have hread : ∀ s', DoesAt (orStop Stop.file (Tables.readLines s.tree source)) s'
      ⟨.ok lines, [], []⟩ := by
    intro s'
    rw [h]
    exact doesAt_pure lines
  refine (hread _).idle_bind fun log' => (doesAt_logged _).idle_bind fun log'' => ?_
  have hscopes := fun scope (hscope : scope ∈ (assembleScopes lines).value) =>
    none_not_mem_keys hscope
  exact (doesAt_mapM_graphOf hscopes _).bind_idle fun _ => doesAt_pure _

theorem doesAt_exportAll (hdirectory : plan.directory = some ground.directory)
    (hnul : ground.directory.hasNul = false) {run : SourceRun}
    (hs : '/' ∉ run.source.stem.toList) (hscopes : ∀ g ∈ run.graphs, '/' ∉ g.1.ending.toList)
    (h : ground.Holds s) :
    DoesAt (run.exportAll plan) s
      ⟨(exportEffect plan ground run.source run.graphs).ending.map
          fun exports => { run with exports },
        (exportEffect plan ground run.source run.graphs).files,
        (exportEffect plan ground run.source run.graphs).kinds⟩ := by
  have hexports := doesAt_exports hdirectory hnul hs hscopes h
  rcases heffect : exportEffect plan ground run.source run.graphs with ⟨ending, files, kinds⟩
  rw [heffect] at hexports
  unfold SourceRun.exportAll
  cases ending with
  | error stop => exact hexports.bind_error
  | ok exports =>
    exact hexports.bind_idle fun log =>
      doesAt_get_bind ((doesAt_logged _).idle_bind fun _ => doesAt_pure _)

/-- **What a source does depends on its lines and on the ground alone.** -/
theorem doesAt_processSource (hrender : plan.render = false)
    (hdirectory : plan.directory = some ground.directory)
    (hnul : ground.directory.hasNul = false) (hs : '/' ∉ source.stem.toList)
    (hscopes : ∀ lines, Tables.readLines s.tree source = .ok lines →
      ∀ scope ∈ (assembleScopes lines).value, '/' ∉ scope.ending.toList)
    (h : ground.Holds s) :
    DoesAt (processSource plan source) s
      (sourceEffect plan ground source (Tables.readLines s.tree source)) := by
  cases hread : Tables.readLines s.tree source with
  | error e => exact run_processSource_of_unread plan hread
  | ok lines =>
    rw [processSource_eq]
    refine (doesAt_logged _).idle_bind fun log => ?_
    have hsame : Tables.readLines (s.after [] [] log).tree source = .ok lines := hread
    refine (doesAt_ingest hsame).idle_bind fun log' => (doesAt_logged _).idle_bind fun log'' => ?_
    have hgraphs : ∀ g ∈ graphsOf (assembleScopes lines).value, '/' ∉ g.1.ending.toList := by
      intro g hg
      have hmem : g.1 ∈ (graphsOf (assembleScopes lines).value).map Prod.fst :=
        List.mem_map_of_mem hg
      rw [map_fst_graphsOf fun scope hscope => none_not_mem_keys hscope] at hmem
      exact hscopes lines hread g.1 hmem
    have hholds : ground.Holds (((s.after [] [] log).after [] [] log').after [] [] log'') :=
      ((h.after allows_nil [] log).after allows_nil [] log').after allows_nil [] log''
    have hexports : DoesAt (SourceRun.exportAll plan
        { SourceRun.start source with graphs := graphsOf (assembleScopes lines).value }) _ _ :=
      doesAt_exportAll hdirectory hnul hs hgraphs hholds
    have hdraw : ∀ run : SourceRun, run.draw plan = pure run := by
      intro run
      unfold SourceRun.draw
      simp [hrender]
    unfold sourceEffect
    dsimp only [SourceRun.start] at hexports ⊢
    rcases heffect : exportEffect plan ground source (graphsOf (assembleScopes lines).value) with
      ⟨ending, files, kinds⟩
    rw [heffect] at hexports
    cases ending with
    | error stop => exact hexports.bind_error
    | ok exports =>
      refine hexports.bind_idle fun _ => (doesAt_logged _).idle_bind fun _ => ?_
      rw [hdraw]
      exact (doesAt_pure _).idle_bind fun _ => (doesAt_logged _).idle_bind fun _ => doesAt_pure _

end Source

/-! ## Visits that do what they do -/

/-- The failure that a batch enters for a source which the system has stopped. -/
def failureOf? (source : Path) (ending : Except Stop SourceResult) : Option SourceFailure :=
  match ending with
  | .error (.file (.system e)) => some ⟨source, e.message⟩
  | _ => none

/-- What a batch enters for a source tells how the source ends. -/
structure Tells (source : Path) (ending : Except Stop SourceResult) (verdict : Verdict) :
    Prop where
  result : verdict.toOption = ending.toOption
  failure : verdict.failure? = failureOf? source ending

section Course

variable {plan : Plan} {ground : Ground} {tree : FileTree} {source : Path} {s after : Session}

theorem DoesAt.tells {effect : Effect SourceResult} {verdict : Verdict}
    (hdoes : DoesAt (processSource plan source) s effect)
    (h : Visit plan source (some source) s verdict after) :
    Tells source effect.ending verdict ∧
      ∃ log, after = s.after effect.files effect.kinds log := by
  obtain ⟨log, hrun⟩ := hdoes
  obtain ⟨ending, files, kinds⟩ := effect
  cases h with
  | processed run =>
    obtain ⟨rfl, rfl⟩ := Prod.mk.inj (Eq.trans (Eq.symm run) hrun)
    exact ⟨⟨rfl, rfl⟩, log, rfl⟩
  | failed run =>
    obtain ⟨rfl, rfl⟩ := Prod.mk.inj (run.symm.trans hrun)
    exact ⟨⟨rfl, rfl⟩, _, rfl⟩
  | refused other => exact absurd rfl other

/-- What a source does in a tree. -/
def effectOn (plan : Plan) (ground : Ground) (tree : FileTree) (source : Path) :
    Effect SourceResult :=
  sourceEffect plan ground source (Tables.readLines tree source)

theorem allows_effectOn : ground.Allows (effectOn plan ground tree source).files := by
  unfold effectOn sourceEffect
  split
  · exact allows_nil
  · exact allows_exportEffect _

theorem readLines_congr {tree' : FileTree} (hhome : tree'.home = tree.home)
    (h : ∀ l ∈ tree.passes source, tree'.entryAt l = tree.entryAt l) :
    Tables.readLines tree' source = Tables.readLines tree source := by
  unfold Tables.readLines
  rw [read_congr hhome h]

/-- The sources do in every session on the ground what they do in the tree, if they read the same
there, and none passes by what another puts. -/
structure Apart (plan : Plan) (ground : Ground) (tree : FileTree) (sources : List Path) : Prop where
  does : ∀ source ∈ sources, ∀ s, ground.Holds s →
    Tables.readLines s.tree source = Tables.readLines tree source →
      DoesAt (processSource plan source) s (effectOn plan ground tree source)
  nodup : sources.Nodup
  clear : ∀ x ∈ sources, ∀ y ∈ sources, x ≠ y →
    ∀ location ∈ (effectOn plan ground tree y).files.map Prod.fst, location ∉ tree.passes x

theorem Apart.tail {sources : List Path} (h : Apart plan ground tree (source :: sources)) :
    Apart plan ground tree sources :=
  ⟨fun x hx => h.does x (List.mem_cons_of_mem _ hx), (List.nodup_cons.mp h.nodup).2,
    fun x hx y hy => h.clear x (List.mem_cons_of_mem _ hx) y (List.mem_cons_of_mem _ hy)⟩

/-- **A course leaves the files and kinds of all its sources**, and every entry tells how its source
ends. -/
theorem does_course {owner : String → Option Path} {entries : List (Path × Verdict)}
    (h : Course plan owner s entries after)
    (howner : ∀ entry ∈ entries, owner entry.1.stem = some entry.1)
    (hapart : Apart plan ground tree (entries.map Prod.fst)) (hs : ground.Holds s)
    (hhome : s.tree.home = tree.home)
    (hway : ∀ entry ∈ entries, ∀ l ∈ tree.passes entry.1, s.tree.entryAt l = tree.entryAt l) :
    (∀ entry ∈ entries,
        Tells entry.1 (effectOn plan ground tree entry.1).ending entry.2) ∧
      ∃ log, after = s.after
        ((entries.map Prod.fst).flatMap fun x => (effectOn plan ground tree x).files)
        ((entries.map Prod.fst).flatMap fun x => (effectOn plan ground tree x).kinds) log := by
  -- what is put for the first source lies off the ways of the others
  induction h with
  | nil s => exact ⟨by simp, s.log, rfl⟩
  | @cons source verdict before middle after entries visit _ ih =>
    have hread := readLines_congr hhome (hway (source, verdict) (List.mem_cons_self ..))
    have hdoes := hapart.does source (List.mem_cons_self ..) before hs hread
    rw [howner (source, verdict) (List.mem_cons_self ..)] at visit
    obtain ⟨htells, log, rfl⟩ := hdoes.tells visit
    have hne : ∀ file ∈ (effectOn plan ground tree source).files, file.1 ≠ [] := fun file hfile =>
      ne_nil_of_entryAt_ne (hs.entryAt_ne allows_effectOn file hfile)
    have hwayafter : ∀ entry ∈ entries, ∀ l ∈ tree.passes entry.1,
        (before.tree.puts (effectOn plan ground tree source).files).entryAt l =
          tree.entryAt l := by
      intro entry hentry l hl
      have hmem : entry.1 ∈ entries.map Prod.fst := List.mem_map_of_mem hentry
      have hother : entry.1 ≠ source := by
        rintro rfl
        exact (List.nodup_cons.mp hapart.nodup).1 hmem
      have hoff : l ∉ (effectOn plan ground tree source).files.map Prod.fst := fun hat =>
        hapart.clear entry.1 (List.mem_cons_of_mem _ hmem) source (List.mem_cons_self ..) hother l
          hat hl
      rw [entryAt_puts_of_not_mem hne hoff]
      exact hway entry (List.mem_cons_of_mem _ hentry) l hl
    obtain ⟨hlater, log', rfl⟩ := ih (fun entry hentry => howner entry (List.mem_cons_of_mem _ hentry))
      hapart.tail (hs.after allows_effectOn _ log) ((home_puts _ _).trans hhome) hwayafter
    refine ⟨?_, log', ?_⟩
    · intro entry hentry
      rcases List.mem_cons.mp hentry with rfl | hentry
      · exact htells
      · exact hlater entry hentry
    · rw [Session.after_after]
      rfl

end Course

end FlowAtlas
