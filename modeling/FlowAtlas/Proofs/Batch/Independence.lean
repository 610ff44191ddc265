import FlowAtlas.Proofs.Batch.SourceEffect
import FlowAtlas.Proofs.Files.PlainNames
import Mathlib.Data.List.Sort

/-!
# Sources that do not meet

Sources of a batch share the file tree, the labeller and the stems that are taken.  Where documents
go to a directory that is there, stems are distinct, no two sources write one document and none
reads what another writes, nothing of this shows: the batch gives what the sources give one by one,
each in the session before it, in any order.

Main facts: `Independent.as_alone`, `AsAlone.perm` and `independent_sources_as_alone`.
-/

namespace FlowAtlas

open Job FileTree

/-! ## Independent sources -/

/-- The documents that a source writes: those of its scopes up to the first that cannot be written.
-/
def outputs (tree : FileTree) (directory source : Path) : List Path :=
  match Tables.readLines tree source with
  | .error _ => []
  | .ok lines =>
    ((assembleScopes lines).value.map fun scope =>
      SourceRun.documentPath directory (Dot.documentName source scope)).takeWhile fun path =>
        (tree.write path []).1.isOk

/-- No images are made, the directory is there, stems are distinct and names have no slash, no two
sources write one document, and no path leads to or through a document of another source. -/
structure Independent (plan : Plan) (directory : Path) (tree : FileTree) (sources : List Path) :
    Prop where
  noImages : plan.render = false
  goesTo : plan.directory = some directory
  isThere : tree.isDirectory directory = .ok true
  plain : ∀ source ∈ sources, source.IsPlain
  stems : (sources.map Path.stem).Nodup
  names : ∀ source ∈ sources, ∀ lines, Tables.readLines tree source = .ok lines →
    ∀ scope ∈ (assembleScopes lines).value, scope.HasPlainName
  disjoint : ∀ x ∈ sources, ∀ y ∈ sources, x ≠ y →
    ∀ path ∈ outputs tree directory x, path ∉ outputs tree directory y
  unread : ∀ x ∈ sources, ∀ y ∈ sources, x ≠ y → ∀ path ∈ outputs tree directory y,
    ∀ location, tree.locate path = .ok location → location ∉ tree.passes x

instance (p : Path) : Decidable p.IsPlain :=
  inferInstanceAs (Decidable (∀ name ∈ p.names, '/' ∉ name.toList))

instance (scope : Scope) : Decidable scope.HasPlainName :=
  inferInstanceAs (Decidable (∀ name ∈ scope.entity, '/' ∉ name.toList))

instance decidableForallOk {ε α : Type} (result : Except ε α) (P : α → Prop) [DecidablePred P] :
    Decidable (∀ a, result = .ok a → P a) :=
  match result with
  | .error _ => isTrue nofun
  | .ok a => decidable_of_iff (P a) ⟨fun h _ heq => Except.ok.inj heq ▸ h, fun h => h a rfl⟩

section Independent

variable {plan : Plan} {ground : Ground} {s after : Session} {sources : List Path} {source : Path}

/-- The ground that a session gives. -/
def Ground.of (directory : Path) (place : Location) (s : Session) : Ground :=
  ⟨directory, place, fun name => s.tree.entryAt (place ++ [name]) = some .directory, s.labeller⟩

theorem holds_of {directory : Path} {place : Location} (h : LeadsTo s.tree directory place) :
    (Ground.of directory place s).Holds s :=
  ⟨h, fun _ => decide_eq_true_iff, [], rfl⟩

theorem fileName_ne_dots {name : String} {scopes : List Scope}
    (h : name ∈ scopes.map (fileName source)) : name ≠ ".." := by
  obtain ⟨scope, -, rfl⟩ := List.mem_map.mp h
  exact Scope.append_ending_ne source.stem scope

/-- A name that is written leads to its place in the directory. -/
theorem Ground.Holds.locate_written (hs : ground.Holds s) {read : Except FileError (List String)}
    {name : String} (h : name ∈ ground.written source read) :
    (ground.directory.entry name).hasNul = false ∧
      s.tree.locate (ground.directory.entry name) = .ok (ground.place ++ [name]) := by
  cases read with
  | error e => cases h
  | ok lines =>
    have hmem : name ∈ ((assembleScopes lines).value.map (fileName source)).takeWhile
        fun name => (ground.fault? name).isNone := h
    have hname : name ≠ ".." := fileName_ne_dots (List.takeWhile_subset _ hmem)
    have hfault : (ground.fault? name).isNone = true :=
      List.mem_takeWhile_imp (p := fun name => (ground.fault? name).isNone) hmem
    exact hs.leads.locate_entry_of_writable hname (Option.isNone_iff_eq_none.mp hfault)

theorem Ground.Holds.takeWhile_documentPaths (hs : ground.Holds s)
    (hsource : '/' ∉ source.stem.toList) {scopes : List Scope}
    (hscopes : ∀ scope ∈ scopes, '/' ∉ scope.ending.toList) :
    ((scopes.map fun scope =>
        SourceRun.documentPath ground.directory (Dot.documentName source scope)).takeWhile
          fun path => (s.tree.write path []).1.isOk) =
      (ground.writable (scopes.map (fileName source))).map ground.directory.entry := by
  induction scopes with
  | nil => rfl
  | cons scope scopes ih =>
    have hpath : SourceRun.documentPath ground.directory (Dot.documentName source scope) =
        ground.directory.entry (fileName source scope) :=
      Scope.documentPath_eq_entry ground.directory hsource (hscopes scope (List.mem_cons_self ..))
    have hname : fileName source scope ≠ ".." := Scope.append_ending_ne source.stem scope
    unfold Ground.writable at ih ⊢
    rw [List.map_cons, List.map_cons, List.takeWhile_cons, List.takeWhile_cons, hpath,
      hs.write_entry hname []]
    cases hfault : ground.fault? (fileName source scope) with
    | some error => rfl
    | none =>
      have hrest := ih fun later hlater => hscopes later (List.mem_cons_of_mem _ hlater)
      exact congrArg (_ :: ·) hrest

namespace Independent

theorem slash_not_mem_ending (h : Independent plan ground.directory s.tree sources)
    (hsource : source ∈ sources) {lines : List String}
    (hread : Tables.readLines s.tree source = .ok lines) :
    ∀ scope ∈ (assembleScopes lines).value, '/' ∉ scope.ending.toList := fun scope hscope =>
  (h.names source hsource lines hread scope hscope).slash_not_mem_ending

/-- The documents of a source lie under the names that it writes. -/
theorem outputs_eq (h : Independent plan ground.directory s.tree sources) (hs : ground.Holds s)
    (hsource : source ∈ sources) :
    outputs s.tree ground.directory source =
      (ground.written source (Tables.readLines s.tree source)).map ground.directory.entry := by
  unfold outputs
  cases hread : Tables.readLines s.tree source with
  | error e => rfl
  | ok lines =>
    exact hs.takeWhile_documentPaths (h.plain source hsource).slash_not_mem_stem
      (h.slash_not_mem_ending hsource hread)

/-- The files that a source puts are at its documents. -/
theorem mem_locations_iff (h : Independent plan ground.directory s.tree sources)
    (hs : ground.Holds s) (hsource : source ∈ sources) {location : Location} :
    location ∈ (effectOn plan ground s.tree source).files.map Prod.fst ↔
      ∃ path ∈ outputs s.tree ground.directory source, s.tree.locate path = .ok location := by
  unfold effectOn
  rw [map_fst_sourceEffect, h.outputs_eq hs hsource]
  simp only [List.mem_map]
  constructor
  · rintro ⟨name, hname, rfl⟩
    exact ⟨_, ⟨name, hname, rfl⟩, (hs.locate_written hname).2⟩
  · rintro ⟨_, ⟨name, hname, rfl⟩, hlocate⟩
    rw [(hs.locate_written hname).2] at hlocate
    cases hlocate
    exact ⟨name, hname, rfl⟩

/-- No two sources put a file at one location. -/
theorem location_unique (h : Independent plan ground.directory s.tree sources)
    (hs : ground.Holds s) {x y : Path} (hx : x ∈ sources) (hy : y ∈ sources) (hne : x ≠ y)
    {location : Location}
    (hlocation : location ∈ (effectOn plan ground s.tree x).files.map Prod.fst) :
    location ∉ (effectOn plan ground s.tree y).files.map Prod.fst := by
  intro hother
  have hdisjoint := h.disjoint x hx y hy hne
  unfold effectOn at hlocation hother
  rw [map_fst_sourceEffect] at hlocation hother
  obtain ⟨name, hname, rfl⟩ := List.mem_map.mp hlocation
  obtain ⟨name', hname', hsame⟩ := List.mem_map.mp hother
  obtain rfl : name' = name := List.singleton_inj.mp (List.append_cancel_left hsame)
  rw [h.outputs_eq hs hx, h.outputs_eq hs hy] at hdisjoint
  exact hdisjoint _ (List.mem_map_of_mem hname) (List.mem_map_of_mem hname')

theorem apart (h : Independent plan ground.directory s.tree sources) (hs : ground.Holds s) :
    Apart plan ground s.tree sources := by
  refine ⟨?_, h.stems.of_map, ?_⟩
  · intro source hsource s' hs' hread
    have hdoes := doesAt_processSource h.noImages h.goesTo (hasNul_of_isDirectory h.isThere)
      (h.plain source hsource).slash_not_mem_stem
      (fun lines hlines => h.slash_not_mem_ending hsource (hread.symm.trans hlines)) hs'
    rwa [hread] at hdoes
  · intro x hx y hy hne location hlocation
    obtain ⟨path, hpath, hlocate⟩ := (h.mem_locations_iff hs hy).mp hlocation
    exact h.unread x hx y hy hne path hpath location hlocate

theorem perm {directory : Path} {tree : FileTree} {sources' : List Path}
    (h : Independent plan directory tree sources) (hperm : sources'.Perm sources) :
    Independent plan directory tree sources' := by
  have hmem : ∀ {source}, source ∈ sources' → source ∈ sources := hperm.mem_iff.mp
  exact ⟨h.noImages, h.goesTo, h.isThere, fun x hx => h.plain x (hmem hx),
    (hperm.map Path.stem).nodup_iff.mpr h.stems, fun x hx => h.names x (hmem hx),
    fun x hx y hy => h.disjoint x (hmem hx) y (hmem hy),
    fun x hx y hy => h.unread x (hmem hx) y (hmem hy)⟩

end Independent

/-! ## Batches that give what their sources give alone -/

/-- Processing a source in a session, without the rest of the batch. -/
def alone (plan : Plan) (s : Session) (source : Path) : Except Stop SourceResult × Session :=
  (processSource plan source).run.run s

/-- The batch gives and leaves what its sources give and leave one by one, each in the session
before the batch. -/
structure AsAlone (plan : Plan) (directory : Path) (s : Session) (sources : List Path)
    (batch : BatchResult) (after : Session) : Prop where
  /-- Alone, a source gives a result or a failure. -/
  ends : ∀ source ∈ sources, (alone plan s source).1.toOption.isSome ∨
    (failureOf? source (alone plan s source).1).isSome
  results : batch.results = sources.filterMap fun source => (alone plan s source).1.toOption
  failures : batch.failures =
    sources.filterMap fun source => failureOf? source (alone plan s source).1
  documents : ∀ source ∈ sources, ∀ result, (alone plan s source).1 = .ok result →
    result.documents = outputs s.tree directory source
  /-- A document reads as it does after its source alone. -/
  texts : ∀ source ∈ sources, ∀ path ∈ outputs s.tree directory source, ∃ location content,
    s.tree.locate path = .ok location ∧ after.tree.entryAt location = some (.file content) ∧
      after.tree.read path = .ok content ∧ (alone plan s source).2.tree.read path = .ok content
  elsewhere : ∀ location,
    (∀ source ∈ sources, ∀ path ∈ outputs s.tree directory source,
      s.tree.locate path ≠ .ok location) → after.tree.entryAt location = s.tree.entryAt location
  aloneElsewhere : ∀ source ∈ sources, ∀ location,
    (∀ path ∈ outputs s.tree directory source, s.tree.locate path ≠ .ok location) →
      (alone plan s source).2.tree.entryAt location = s.tree.entryAt location
  sorted : after.labeller.unhandled.Pairwise (· < ·)
  unhandled : ∀ kind, kind ∈ after.labeller.unhandled ↔
    ∃ source ∈ sources, kind ∈ (alone plan s source).2.labeller.unhandled

/-- Two batches give the same in another order and leave the same. -/
structure SameInAnyOrder (batch batch' : BatchResult) (after after' : Session) : Prop where
  results : batch'.results.Perm batch.results
  failures : batch'.failures.Perm batch.failures
  tree : ∀ location, after'.tree.entryAt location = after.tree.entryAt location
  unhandled : after'.labeller.unhandled = after.labeller.unhandled

/-- **Batches that give what their sources give alone do not depend on the order of sources.** -/
theorem AsAlone.perm {directory : Path} {sources' : List Path} {batch batch' : BatchResult}
    {after' : Session} (h : AsAlone plan directory s sources batch after)
    (h' : AsAlone plan directory s sources' batch' after') (hperm : sources'.Perm sources) :
    SameInAnyOrder batch batch' after after' := by
  refine ⟨?_, ?_, ?_, ?_⟩
  · rw [h.results, h'.results]
    exact hperm.filterMap _
  · rw [h.failures, h'.failures]
    exact hperm.filterMap _
  · intro location
    by_cases hat : ∃ source ∈ sources, ∃ path ∈ outputs s.tree directory source,
        s.tree.locate path = .ok location
    · obtain ⟨source, hsource, path, hpath, hlocate⟩ := hat
      obtain ⟨place, content, hplace, hentry, -, hread⟩ := h.texts source hsource path hpath
      obtain ⟨place', content', hplace', hentry', -, hread'⟩ :=
        h'.texts source (hperm.mem_iff.mpr hsource) path hpath
      obtain rfl : location = place := Except.ok.inj (hlocate.symm.trans hplace)
      obtain rfl : location = place' := Except.ok.inj (hlocate.symm.trans hplace')
      obtain rfl : content = content' := Except.ok.inj (hread.symm.trans hread')
      rw [hentry, hentry']
    · push Not at hat
      rw [h.elsewhere location hat,
        h'.elsewhere location fun source hsource => hat source (hperm.mem_iff.mp hsource)]
  · refine h'.sorted.eq_of_mem_iff h.sorted fun kind => ?_
    rw [h.unhandled, h'.unhandled]
    simp only [hperm.mem_iff]

/-- The files that sources put in a tree, one source after the other. -/
def filesOf (plan : Plan) (ground : Ground) (tree : FileTree) (sources : List Path) : List Put :=
  sources.flatMap fun source => (effectOn plan ground tree source).files

theorem Ground.Holds.entryAt_ne_filesOf (hs : ground.Holds s) (plan : Plan)
    (sources : List Path) :
    ∀ file ∈ filesOf plan ground s.tree sources, s.tree.entryAt file.1 ≠ some .directory := by
  intro file hfile
  obtain ⟨source, -, hput⟩ := List.mem_flatMap.mp hfile
  exact hs.entryAt_ne allows_effectOn file hput

theorem mem_unhandled_after (hfresh : s.labeller.unhandled = []) {files : List Put}
    {kinds : List String} {log : Log} {kind : String} :
    kind ∈ (s.after files kinds log).labeller.unhandled ↔ kind ∈ kinds := by
  show kind ∈ (s.labeller.noting kinds).unhandled ↔ _
  rw [Labeller.mem_noting, hfresh]
  simp

namespace Independent

theorem alone_eq (h : Independent plan ground.directory s.tree sources) (hs : ground.Holds s)
    (hsource : source ∈ sources) :
    ∃ log, alone plan s source = ((effectOn plan ground s.tree source).ending,
      s.after (effectOn plan ground s.tree source).files
        (effectOn plan ground s.tree source).kinds log) :=
  (h.apart hs).does source hsource s hs rfl

/-- Whatever else is put, a document reads as it does after its source alone. -/
theorem read_documents (h : Independent plan ground.directory s.tree sources)
    (hs : ground.Holds s) (hsource : source ∈ sources) {path : Path}
    (hpath : path ∈ outputs s.tree ground.directory source) :
    ∃ location content, s.tree.locate path = .ok location ∧
      (s.tree.puts (filesOf plan ground s.tree sources)).entryAt location =
        some (.file content) ∧
      (s.tree.puts (filesOf plan ground s.tree sources)).read path = .ok content ∧
      (s.tree.puts (effectOn plan ground s.tree source).files).read path = .ok content := by
  obtain ⟨name, hname, rfl⟩ := List.mem_map.mp (h.outputs_eq hs hsource ▸ hpath)
  obtain ⟨hnul, hlocate⟩ := hs.locate_written hname
  have hlocation : ground.place ++ [name] ∈
      (effectOn plan ground s.tree source).files.map Prod.fst :=
    (h.mem_locations_iff hs hsource).mpr ⟨_, hpath, hlocate⟩
  obtain ⟨last, hlast⟩ := exists_lastPut hlocation
  have hsame : lastPut (ground.place ++ [name]) (filesOf plan ground s.tree sources) =
      lastPut (ground.place ++ [name]) (effectOn plan ground s.tree source).files :=
    lastPut_flatMap hsource h.stems.of_map fun _ hother hne =>
      h.location_unique hs hsource hother (Ne.symm hne) hlocation
  have hlastall := hsame.trans hlast
  have hall := hs.entryAt_ne_filesOf plan sources
  exact ⟨_, last.2, hlocate, entryAt_puts_of_lastPut hall hlastall,
    read_puts hall hnul hlocate hlastall,
    read_puts (hs.entryAt_ne allows_effectOn) hnul hlocate hlast⟩

/-- Off the documents of some sources, nothing changes where their files are put. -/
theorem entryAt_off_documents (h : Independent plan ground.directory s.tree sources)
    (hs : ground.Holds s) {chosen : List Path} (hchosen : chosen ⊆ sources) {location : Location}
    (hoff : ∀ source ∈ chosen, ∀ path ∈ outputs s.tree ground.directory source,
      s.tree.locate path ≠ .ok location) :
    (s.tree.puts (filesOf plan ground s.tree chosen)).entryAt location =
      s.tree.entryAt location := by
  have hne := hs.entryAt_ne_filesOf plan chosen
  refine entryAt_puts_of_not_mem (fun file hfile => ne_nil_of_entryAt_ne (hne file hfile)) ?_
  intro hat
  obtain ⟨file, hfile, rfl⟩ := List.mem_map.mp hat
  obtain ⟨source, hsource, hput⟩ := List.mem_flatMap.mp hfile
  obtain ⟨path, hpath, hlocate⟩ :=
    (h.mem_locations_iff hs (hchosen hsource)).mp (List.mem_map_of_mem hput)
  exact hoff source hsource path hpath hlocate

/-- A batch of independent sources gives what its sources give alone. -/
theorem as_alone (h : Independent plan ground.directory s.tree sources) (hs : ground.Holds s)
    (hfresh : s.labeller.unhandled = []) {batch : BatchResult}
    (hrun : Runs (runBatch plan sources) s batch after) :
    AsAlone plan ground.directory s sources batch after := by
  obtain ⟨entries, rfl, hcourse, rfl⟩ := runs_runBatch_iff.mp hrun
  have howner : ∀ entry ∈ entries, firstWith (entries.map Prod.fst) entry.1.stem = some entry.1 :=
    fun entry hentry => firstWith_of_nodup h.stems (List.mem_map_of_mem hentry)
  obtain ⟨htells, log, rfl⟩ :=
    does_course hcourse howner (h.apart hs) hs rfl fun _ _ _ _ => rfl
  have hending : ∀ entry ∈ entries, Tells entry.1 (alone plan s entry.1).1 entry.2 := by
    intro entry hentry
    obtain ⟨_, hdone⟩ := h.alone_eq hs (List.mem_map_of_mem hentry)
    rw [hdone]
    exact htells entry hentry
  refine ⟨?_, ?_, ?_, ?_, ?_, ?_, ?_, ?_, ?_⟩
  · intro source hsource
    obtain ⟨⟨path, verdict⟩, hentry, rfl⟩ := List.mem_map.mp hsource
    obtain ⟨hresult, hfailure⟩ := hending _ hentry
    rw [← hresult, ← hfailure]
    cases verdict with
    | ok result => exact Or.inl rfl
    | error failure => exact Or.inr rfl
  · rw [List.filterMap_map]
    exact List.filterMap_congr fun entry hentry => (hending entry hentry).result
  · rw [List.filterMap_map]
    exact List.filterMap_congr fun entry hentry => (hending entry hentry).failure
  · intro source hsource result hresult
    obtain ⟨_, hdone⟩ := h.alone_eq hs hsource
    rw [hdone] at hresult
    rw [h.outputs_eq hs hsource]
    exact documents_sourceEffect hresult
  · intro source hsource path hpath
    obtain ⟨_, hdone⟩ := h.alone_eq hs hsource
    rw [hdone]
    exact h.read_documents hs hsource hpath
  · intro location hoff
    exact h.entryAt_off_documents hs (List.Subset.refl _) hoff
  · intro source hsource location hoff
    obtain ⟨_, hdone⟩ := h.alone_eq hs hsource
    have hone : (s.tree.puts (filesOf plan ground s.tree [source])).entryAt location =
        s.tree.entryAt location :=
      h.entryAt_off_documents hs (by simpa using hsource) (by simpa using hoff)
    unfold filesOf at hone
    rw [List.flatMap_singleton] at hone
    rw [hdone]
    exact hone
  · refine Labeller.pairwise_noting _ _ ?_
    rw [hfresh]
    exact List.Pairwise.nil
  · intro kind
    rw [mem_unhandled_after hfresh, List.mem_flatMap]
    refine exists_congr fun source => and_congr_right fun hsource => ?_
    obtain ⟨_, hdone⟩ := h.alone_eq hs hsource
    rw [hdone, mem_unhandled_after hfresh]

/-- A batch of independent sources comes to its end exactly if no path of them holds a NUL. -/
theorem runs_iff {directory : Path} (h : Independent plan directory s.tree sources)
    (hends : ∀ batch after, Runs (runBatch plan sources) s batch after →
      AsAlone plan directory s sources batch after) :
    (∃ batch after, Runs (runBatch plan sources) s batch after) ↔
      ∀ source ∈ sources, source.hasNul = false := by
  constructor
  · rintro ⟨batch, after, hrun⟩ source hsource
    by_contra hnul
    have hread : Tables.readLines s.tree source = .error .nulInPath := by
      unfold Tables.readLines FileTree.read
      rw [if_pos (Bool.not_eq_false _ ▸ hnul)]
      rfl
    obtain ⟨log, hstop⟩ := run_processSource_of_unread plan hread
    have hend := (hends batch after hrun).ends source hsource
    unfold alone at hend
    rw [hstop] at hend
    simp [failureOf?, Except.toOption] at hend
  · intro hnul
    have hsound : plan.IsSound :=
      ⟨⟨directory, h.goesTo, hasNul_of_isDirectory h.isThere⟩, by simp [h.noImages]⟩
    obtain ⟨entries, after, hsources, hcourse⟩ := exists_course hsound hnul s
    exact ⟨_, after, runs_runBatch_iff.mpr ⟨entries, hsources, hcourse, rfl⟩⟩

end Independent

end Independent

/-- **A batch of independent sources gives what its sources give one by one, in any order**: each
ends as it does alone, its documents read as they do then, nothing else changes, and the kinds
without a rule are those of all sources in code point order.  The batch comes to its end unless a
path holds a NUL. -/
theorem independent_sources_as_alone {plan : Plan} {directory : Path} {s : Session}
    {sources : List Path} (h : Independent plan directory s.tree sources)
    (hfresh : s.labeller.unhandled = []) :
    ((∃ batch after, Runs (runBatch plan sources) s batch after) ↔
        ∀ source ∈ sources, source.hasNul = false) ∧
      ∀ batch after, Runs (runBatch plan sources) s batch after →
        AsAlone plan directory s sources batch after ∧
          ∀ sources', sources'.Perm sources → ∃ batch' after',
            Runs (runBatch plan sources') s batch' after' ∧
              AsAlone plan directory s sources' batch' after' ∧
              SameInAnyOrder batch batch' after after' := by
  obtain ⟨place, hleads⟩ := leadsTo_of_isDirectory h.isThere
  have hs : (Ground.of directory place s).Holds s := holds_of hleads
  have hends : ∀ sources', sources'.Perm sources → ∀ batch after,
      Runs (runBatch plan sources') s batch after →
        AsAlone plan directory s sources' batch after := by
    intro sources' hperm batch after hrun
    have hthese : Independent plan (Ground.of directory place s).directory s.tree sources' :=
      h.perm hperm
    exact hthese.as_alone hs hfresh hrun
  have hruns := h.runs_iff (hends sources (List.Perm.refl _))
  refine ⟨hruns, fun batch after hrun => ⟨hends sources (List.Perm.refl _) batch after hrun, ?_⟩⟩
  intro sources' hperm
  have hnul : ∀ source ∈ sources', source.hasNul = false := fun source hsource =>
    hruns.mp ⟨batch, after, hrun⟩ source (hperm.mem_iff.mp hsource)
  obtain ⟨batch', after', hrun'⟩ := ((h.perm hperm).runs_iff (hends sources' hperm)).mpr hnul
  have halone := hends sources (List.Perm.refl _) batch after hrun
  have halone' := hends sources' hperm batch' after' hrun'
  exact ⟨batch', after', hrun', halone', halone.perm halone' hperm⟩

/-! ## Sources that share nothing -/

namespace Strangers

def out : Path := ⟨.here, ["out"]⟩

/-- Two sources with stray kinds, and a path that leads nowhere. -/
def sources : List Path := [⟨.here, ["gate.xml"]⟩, ⟨.here, ["hatch.xml"]⟩, ⟨.here, ["lost.xml"]⟩]

def gate : String :=
  "<Entity Name=\"b\">\n<Node Id=\"1\" Class=\"Stray:Z\"/>\n</FlowGraph>\n"

def hatch : String := "<Node Id=\"1\" Class=\"Stray:A\"/>\n"

def session : Session :=
  .start
    ⟨.ofList [(["work"], .directory), (["work", "out"], .directory),
      (["work", "gate.xml"], .file (Text.Utf8.encode gate.toList)),
      (["work", "hatch.xml"], .file (Text.Utf8.encode hatch.toList))], ["work"]⟩
    [] .blank .standard

def plan : Plan := ⟨.standard, false, some out⟩

/-- The documents of the results, and the sources that failed. -/
def reported (batch : BatchResult) : List (List Path) × List Path :=
  (batch.results.map SourceResult.documents, batch.failures.map SourceFailure.source)

theorem independent : Independent plan out session.tree sources where
  noImages := rfl
  goesTo := rfl
  isThere := by decide
  plain := by decide
  stems := by decide
  names := by decide +kernel
  disjoint := by decide +kernel
  unread := by decide +kernel

theorem exists_runs_forward :
    ∃ batch after, Runs (runBatch plan sources) session batch after ∧
      reported batch = ([[out.entry "gate_b.dot", out.entry "gate.dot"], [out.entry "hatch.dot"]],
        [⟨.here, ["lost.xml"]⟩]) :=
  exists_runs_of_map (by decide +kernel)

end Strangers

open Strangers in
theorem strangers_as_alone :
    Independent plan out session.tree sources ∧ session.labeller.unhandled = [] ∧
      sources.reverse.Perm sources ∧
      ∃ batch after, Runs (runBatch plan sources) session batch after ∧
        reported batch = ([[out.entry "gate_b.dot", out.entry "gate.dot"],
          [out.entry "hatch.dot"]], [⟨.here, ["lost.xml"]⟩]) ∧
        AsAlone plan out session sources batch after ∧
        ∃ batch' after', Runs (runBatch plan sources.reverse) session batch' after' ∧
          AsAlone plan out session sources.reverse batch' after' ∧
          SameInAnyOrder batch batch' after after' := by
  have hreverse : sources.reverse.Perm sources := List.reverse_perm sources
  obtain ⟨batch, after, hrun, hreported⟩ := exists_runs_forward
  obtain ⟨-, hall⟩ := independent_sources_as_alone independent rfl
  obtain ⟨halone, hsame⟩ := hall batch after hrun
  exact ⟨independent, rfl, hreverse, batch, after, hrun, hreported, halone, hsame _ hreverse⟩

end FlowAtlas
