import Mathlib.Data.List.Nodup
import FlowAtlas.Proofs.Batch.Job
import FlowAtlas.Proofs.Batch.Naming
import FlowAtlas.Proofs.Dot.Reader
import FlowAtlas.Proofs.Files.Frame

/-!
# The documents of one source

A source that is processed leaves one document for each of its scopes, written one after the other.
Documents at one location overwrite each other, so in the end a path reads as the last of them.

Main facts: `runs_exportGraph` (what one export does), `written_mapM_exportGraph` (what all of them
leave) and `runs_processSource` (what a whole source leaves).
-/

namespace FlowAtlas

open Job FileTree

/-- The document of a scope: where it was written, and as what. -/
structure Document where
  scope : Scope
  graph : FlowGraph
  path : Path
  location : Location
  text : String

namespace Document

/-- The bytes of a document. -/
def content (d : Document) : List UInt8 := Text.Utf8.encode d.text.toList

/-- The last document at a location. -/
def lastAt (location : Location) (documents : List Document) : Option Document :=
  (documents.filter fun d => d.location = location).getLast?

theorem lastAt_cons (location : Location) (d : Document) (documents : List Document) :
    lastAt location (d :: documents) =
      (lastAt location documents).or (if d.location = location then some d else none) := by
  unfold lastAt
  rw [List.filter_cons]
  by_cases hd : d.location = location
  · rw [if_pos (decide_eq_true hd), if_pos hd, List.getLast?_cons]
    cases (documents.filter fun d => d.location = location).getLast? <;> rfl
  · rw [if_neg (by simpa using hd), if_neg hd, Option.or_none]

theorem exists_lastAt {d : Document} {documents : List Document} (h : d ∈ documents) :
    ∃ last, lastAt d.location documents = some last := by
  have hmem : d ∈ documents.filter fun e => e.location = d.location := by simp [h]
  exact ⟨_, List.getLast?_eq_some_getLast (List.ne_nil_of_mem hmem)⟩

/-- Where documents do not share locations, each is the last at its own. -/
theorem lastAt_of_nodup {d : Document} {documents : List Document} (h : d ∈ documents)
    (hn : (documents.map location).Nodup) : lastAt d.location documents = some d := by
  obtain ⟨last, hlast⟩ := exists_lastAt h
  obtain ⟨hmem, hlocation⟩ := List.mem_filter.mp (List.mem_of_getLast? hlast)
  rw [hlast, List.inj_on_of_nodup_map hn hmem h (of_decide_eq_true hlocation)]

end Document

/-! ## Writing documents one after the other -/

/-- What documents written one after the other leave in a file tree. -/
structure Written (before : FileTree) (documents : List Document) (after : FileTree) : Prop where
  keeps : KeepsDirectories before after
  leads : ∀ d ∈ documents, d.path.hasNul = false ∧ after.locate d.path = .ok d.location
  /-- The last document at a location stands there. -/
  stands : ∀ {location last}, Document.lastAt location documents = some last →
    after.entryAt location = some (.file last.content)
  /-- Where there is no document nothing is lost. -/
  others : ∀ {location entry}, Document.lastAt location documents = none →
    before.entryAt location = some entry → after.entryAt location = some entry

theorem Written.nil (tree : FileTree) : Written tree [] tree := by
  refine ⟨.refl tree, by simp, ?_, fun _ h => h⟩
  intro location last h
  cases h

theorem Written.cons {before made tree after : FileTree} {d : Document}
    {documents : List Document} (hmade : Extends before made)
    (hnul : d.path.hasNul = false) (hlocate : made.locate d.path = .ok d.location)
    (hentry : made.entryAt d.location ≠ some .directory)
    (htree : tree = made.set d.location (.file d.content))
    (h : Written tree documents after) : Written before (d :: documents) after := by
  have hset : KeepsDirectories made tree := htree ▸ keepsDirectories_set hentry _
  have hkeeps : KeepsDirectories made after := hset.trans h.keeps
  have hat : ∀ location, tree.entryAt location =
      if location = d.location then some (.file d.content) else made.entryAt location :=
    fun location => htree ▸ entryAt_set (ne_nil_of_entryAt_ne hentry) _ location
  refine ⟨hmade.keepsDirectories.trans hkeeps, ?_, ?_, ?_⟩
  · intro e he
    rcases List.mem_cons.mp he with rfl | he
    · exact ⟨hnul, hkeeps.locate hlocate⟩
    · exact h.leads e he
  · intro location last hlast
    rw [Document.lastAt_cons] at hlast
    cases hrest : Document.lastAt location documents with
    | some other =>
      rw [hrest] at hlast
      cases hlast
      exact h.stands hrest
    | none =>
      rw [hrest, Option.none_or] at hlast
      split_ifs at hlast with hd
      cases hlast
      refine h.others hrest ?_
      rw [hat, if_pos hd.symm]
  · intro location entry hlast hbefore
    rw [Document.lastAt_cons, Option.or_eq_none_iff] at hlast
    refine h.others hlast.1 ?_
    rw [hat, if_neg]
    · exact hmade.entry hbefore
    · rintro rfl
      simp at hlast

theorem Written.append {a b c : FileTree} {first second : List Document} (h : Written a first b)
    (h' : Written b second c) : Written a (first ++ second) c := by
  have hlast : ∀ location, Document.lastAt location (first ++ second) =
      (Document.lastAt location second).or (Document.lastAt location first) := by
    intro location
    unfold Document.lastAt
    rw [List.filter_append, List.getLast?_append]
  refine ⟨h.keeps.trans h'.keeps, ?_, ?_, ?_⟩
  · intro d hd
    rcases List.mem_append.mp hd with hd | hd
    · obtain ⟨hnul, hlocate⟩ := h.leads d hd
      exact ⟨hnul, h'.keeps.locate hlocate⟩
    · exact h'.leads d hd
  · intro location last hl
    rw [hlast] at hl
    cases hsecond : Document.lastAt location second with
    | some other =>
      rw [hsecond, Option.some_or] at hl
      cases hl
      exact h'.stands hsecond
    | none =>
      rw [hsecond, Option.none_or] at hl
      exact h'.others hsecond (h.stands hl)
  · intro location entry hl hentry
    rw [hlast, Option.or_eq_none_iff] at hl
    exact h'.others hl.1 (h.others hl.2 hentry)

theorem Written.of_extends {before after : FileTree} (h : Extends before after) :
    Written before [] after := by
  refine ⟨h.keepsDirectories, by simp, ?_, fun _ hentry => h.entry hentry⟩
  intro location last hlast
  cases hlast

/-- A path reads as the last document at its location. -/
theorem Written.read {before after : FileTree} {documents : List Document}
    (h : Written before documents after) {d last : Document} (hd : d ∈ documents)
    (hlast : Document.lastAt d.location documents = some last) :
    after.read d.path = .ok last.content := by
  obtain ⟨hnul, hlocate⟩ := h.leads d hd
  exact read_eq_ok hnul hlocate (h.stands hlast)

/-! ## Documents of a source -/

/-- The document lies in the directory of the plan and is named after the source. -/
def NamedAfter (plan : Plan) (source : Path) (d : Document) : Prop :=
  ∃ directory, plan.directory = some directory ∧
    d.path = SourceRun.documentPath directory (Dot.documentName source d.scope)

/-- A document whose path has no slashes lies in the directory of all documents. -/
theorem NamedAfter.location_eq {plan : Plan} {source : Path} {d : Document} {tree : FileTree}
    (h : NamedAfter plan source d) (hlocate : tree.locate d.path = .ok d.location)
    (hs : '/' ∉ source.stem.toList) (hending : '/' ∉ d.scope.ending.toList) :
    ∃ directory location, plan.directory = some directory ∧
      tree.walk (tree.start directory.anchor) directory.names = .ok location ∧
      d.location = location ++ [source.stem ++ d.scope.ending] := by
  obtain ⟨directory, hdirectory, hpath⟩ := h
  rw [hpath, Scope.documentPath_eq_entry directory hs hending] at hlocate
  obtain ⟨location, hwalk, hlocation⟩ :=
    locate_entry (Scope.append_ending_ne source.stem d.scope) hlocate
  exact ⟨directory, location, hdirectory, hwalk, hlocation⟩

namespace SourceRun

variable {plan : Plan} {source : Path} {before after : Session}

theorem runs_writeDocument {directory : Path} {name text : String} {path : Path} :
    Runs (writeDocument directory name text) before path after ↔
      ∃ made tree, before.tree.provideDirectories directory = (.ok (), made) ∧
        made.write (documentPath directory name) (Text.Utf8.encode text.toList) = (.ok (), tree) ∧
        path = documentPath directory name ∧
        after = { before with
          tree
          log := before.log ++ [⟨.info, "Writing " ++ (documentPath directory name).text⟩] } := by
  unfold writeDocument
  simp only [runs_bind, runs_onTree, runs_logged, runs_pure]
  constructor
  · rintro ⟨_, _, ⟨made, hmade, rfl⟩, _, _, ⟨-, rfl⟩, _, _, ⟨tree, htree, rfl⟩, rfl, rfl⟩
    exact ⟨made, tree, hmade, htree, rfl, rfl⟩
  · rintro ⟨made, tree, hmade, htree, rfl, rfl⟩
    exact ⟨(), _, ⟨made, hmade, rfl⟩, (), _, ⟨trivial, rfl⟩, (), _, ⟨tree, htree, rfl⟩, rfl, rfl⟩

/-- What the report needs of the document of a scope. -/
def exportOf (source : Path) (scope : Scope) (graph : FlowGraph) : Export where
  name := Dot.documentName source scope
  nodeCount := graph.network.vertices.size
  edgeCount := graph.network.arcs.length
  declaredCount := scope.edges.length
  danglingCount := graph.dangling

/-- An export makes the directory, writes the serialized graph under the name of the scope and keeps
what the labeller has noted. -/
theorem runs_exportGraph {scope : Scope} {graph : FlowGraph} {result : Path × Export} :
    Runs (exportGraph plan source scope graph) before result after ↔
      ∃ directory made tree, plan.directory = some directory ∧
        before.tree.provideDirectories directory = (.ok (), made) ∧
        made.write (documentPath directory (Dot.documentName source scope))
          (Text.Utf8.encode
            (Dot.serialize graph plan.settings.yScale before.labeller).value.1.toList) =
              (.ok (), tree) ∧
        result = (documentPath directory (Dot.documentName source scope),
          exportOf source scope graph) ∧
        after = { before with
          tree
          labeller := (Dot.serialize graph plan.settings.yScale before.labeller).value.2
          log := before.log ++ (Dot.serialize graph plan.settings.yScale before.labeller).log ++
            [⟨.info, "Writing " ++
              (documentPath directory (Dot.documentName source scope)).text⟩] } := by
  unfold exportGraph
  simp only [runs_bind, runs_get, runs_modify, runs_logged, runs_orStop, runs_writeDocument,
    runs_pure]
  constructor
  · rintro ⟨_, _, ⟨rfl, rfl⟩, _, _, ⟨rfl, rfl⟩, _, _, rfl, directory, _, ⟨hdirectory, rfl⟩, _, _,
      ⟨made, tree, hmade, htree, rfl, rfl⟩, rfl, rfl⟩
    refine ⟨directory, made, tree, ?_, hmade, htree, rfl, rfl⟩
    cases hplan : plan.directory with
    | none =>
      rw [hplan] at hdirectory
      cases hdirectory
    | some d =>
      rw [hplan] at hdirectory
      cases hdirectory
      rfl
  · rintro ⟨directory, made, tree, hdirectory, hmade, htree, rfl, rfl⟩
    refine ⟨_, _, ⟨rfl, rfl⟩, _, _, ⟨rfl, rfl⟩, ⟨⟩, _, rfl, directory, _, ⟨?_, rfl⟩, _, _,
      ⟨made, tree, hmade, htree, rfl, rfl⟩, rfl, rfl⟩
    rw [hdirectory]
    rfl

/-- What a document is under a plan, for a labeller. -/
structure IsDocument (plan : Plan) (source : Path) (labeller : Labeller) (d : Document) :
    Prop where
  path : ∃ directory, plan.directory = some directory ∧
    d.path = documentPath directory (Dot.documentName source d.scope)
  text : d.text = (Dot.serialize d.graph plan.settings.yScale labeller).value.1

/-- The exports of graphs write their documents in order; the labels do not depend on the kinds
noted on the way. -/
theorem written_mapM_exportGraph {graphs : List (Scope × FlowGraph)}
    {exports : List (Path × Export)} {labeller : Labeller} {unhandled : List String}
    (hlabeller : before.labeller = { labeller with unhandled })
    (h : Runs (graphs.mapM fun g => exportGraph plan source g.1 g.2) before exports after) :
    ∃ documents, Written before.tree documents after.tree ∧
      documents.map (fun d => (d.scope, d.graph)) = graphs ∧
      documents.map Document.path = exports.map Prod.fst ∧
      ∀ d ∈ documents, IsDocument plan source labeller d := by
  induction graphs generalizing before exports unhandled with
  | nil =>
    obtain ⟨rfl, rfl⟩ := runs_mapM_nil.mp h
    exact ⟨[], .nil _, rfl, rfl, by simp⟩
  | cons g graphs ih =>
    obtain ⟨result, middle, rest, hfirst, hrest, rfl⟩ := runs_mapM_cons.mp h
    obtain ⟨directory, made, tree, hdirectory, hmade, hwrite, rfl, rfl⟩ :=
      runs_exportGraph.mp hfirst
    obtain ⟨noted, hnoted⟩ := Dot.value_serialize_labeller plan.settings.yScale before.labeller g.2
    rw [hlabeller] at hnoted hrest
    obtain ⟨documents, hwritten, hgraphs, hpaths, hdocuments⟩ := ih hnoted hrest
    obtain ⟨hnul, location, hlocate, hentry, htree⟩ := write_eq_ok hwrite
    have hextends : Extends before.tree made := by
      have hx := extends_provideDirectories before.tree directory
      rw [hmade] at hx
      exact hx
    refine ⟨⟨g.1, g.2, documentPath directory (Dot.documentName source g.1), location,
      (Dot.serialize g.2 plan.settings.yScale before.labeller).value.1⟩ :: documents,
      .cons hextends hnul hlocate hentry htree hwritten, ?_, ?_, ?_⟩
    · rw [List.map_cons, hgraphs]
    · rw [List.map_cons, hpaths]
      rfl
    · intro d hd
      rcases List.mem_cons.mp hd with rfl | hd
      · refine ⟨⟨directory, hdirectory, rfl⟩, ?_⟩
        show (Dot.serialize g.2 _ before.labeller).value.1 = _
        rw [hlabeller, Dot.value_serialize, Dot.value_serialize]
        rfl
      · exact hdocuments d hd

theorem runs_graphOf {scope : Scope} {g : Scope × FlowGraph}
    (h : Runs (graphOf scope) before g after) :
    g.1 = scope ∧ scope.graph.value = .ok g.2 ∧ after.tree = before.tree ∧
      after.labeller = before.labeller := by
  unfold graphOf at h
  simp only [runs_bind, runs_logged, runs_orStop, runs_pure] at h
  obtain ⟨_, _, ⟨rfl, rfl⟩, graph, _, ⟨hgraph, rfl⟩, rfl, rfl⟩ := h
  exact ⟨rfl, hgraph, rfl, rfl⟩

theorem runs_mapM_graphOf {scopes : List Scope} {graphs : List (Scope × FlowGraph)}
    (h : Runs (scopes.mapM graphOf) before graphs after) :
    graphs.map Prod.fst = scopes ∧ (∀ g ∈ graphs, g.1.graph.value = .ok g.2) ∧
      after.tree = before.tree ∧ after.labeller = before.labeller := by
  induction scopes generalizing before graphs with
  | nil =>
    obtain ⟨rfl, rfl⟩ := runs_mapM_nil.mp h
    exact ⟨rfl, by simp, rfl, rfl⟩
  | cons scope scopes ih =>
    obtain ⟨g, middle, rest, hfirst, hrest, rfl⟩ := runs_mapM_cons.mp h
    obtain ⟨rfl, hgraph, htree, hlabeller⟩ := runs_graphOf hfirst
    obtain ⟨rfl, hgraphs, htree', hlabeller'⟩ := ih hrest
    refine ⟨rfl, ?_, htree'.trans htree, hlabeller'.trans hlabeller⟩
    intro e he
    rcases List.mem_cons.mp he with rfl | he
    · exact hgraph
    · exact hgraphs e he

theorem runs_ingest {run next : SourceRun} (h : Runs run.ingest before next after) :
    ∃ lines, Tables.readLines before.tree run.source = .ok lines ∧
      next.source = run.source ∧ next.graphs.map Prod.fst = (assembleScopes lines).value ∧
      (∀ g ∈ next.graphs, g.1.graph.value = .ok g.2) ∧ after.tree = before.tree ∧
      after.labeller = before.labeller := by
  unfold ingest at h
  simp only [runs_bind, runs_get, runs_logged, runs_orStop, runs_pure] at h
  obtain ⟨_, _, ⟨-, rfl⟩, _, _, ⟨rfl, rfl⟩, lines, _, ⟨hlines, rfl⟩, _, _, ⟨rfl, rfl⟩, graphs, _,
    hgraphs, rfl, rfl⟩ := h
  obtain ⟨hscopes, hall, htree, hlabeller⟩ := runs_mapM_graphOf hgraphs
  exact ⟨lines, hlines, rfl, hscopes, hall, htree, hlabeller⟩

theorem runs_exportAll {run next : SourceRun} (h : Runs (run.exportAll plan) before next after) :
    ∃ documents, Written before.tree documents after.tree ∧
      documents.map (fun d => (d.scope, d.graph)) = run.graphs ∧
      documents.map Document.path = next.exports.map Prod.fst ∧
      ∀ d ∈ documents, IsDocument plan run.source before.labeller d := by
  unfold exportAll at h
  simp only [runs_bind, runs_get, runs_logged, runs_pure] at h
  obtain ⟨exports, _, hexports, _, _, ⟨rfl, rfl⟩, _, _, ⟨rfl, rfl⟩, rfl, rfl⟩ := h
  obtain ⟨documents, hdocuments⟩ := written_mapM_exportGraph rfl hexports
  exact ⟨documents, hdocuments⟩

theorem runs_draw {run next : SourceRun} (h : Runs (run.draw plan) before next after) :
    next.exports = run.exports ∧ after.tree = before.tree := by
  unfold draw at h
  split_ifs at h
  · simp only [runs_bind, runs_get, runs_modify, runs_logged, runs_orStop, runs_pure] at h
    obtain ⟨_, _, ⟨rfl, rfl⟩, _, _, ⟨rfl, rfl⟩, _, _, rfl, _, _, ⟨-, rfl⟩, rfl, rfl⟩ := h
    exact ⟨rfl, rfl⟩
  · obtain ⟨rfl, rfl⟩ := runs_pure.mp h
    exact ⟨rfl, rfl⟩

/-- The session when a stage is announced. -/
def announcing (s : Session) (stage : String) (run : SourceRun) : Session :=
  { s with log := s.log ++ [⟨.debug, "Running phase " ++ stage ++ " on " ++ run.source.text⟩] }

@[simp] theorem tree_announcing (s : Session) (stage : String) (run : SourceRun) :
    (announcing s stage run).tree = s.tree := rfl

@[simp] theorem labeller_announcing (s : Session) (stage : String) (run : SourceRun) :
    (announcing s stage run).labeller = s.labeller := rfl

/-- A source that comes to the end of its stages has gone through each of them. -/
theorem runs_stages {start : SourceRun} {run : StageRun SourceRun}
    (h : Runs (runStages (fun run => run.source.text) (stages plan) start) before (.ok run) after) :
    ∃ read wrote drew s₁ s₂ s₃,
      Runs start.ingest (announcing before "ingestion" start) read s₁ ∧
      Runs (read.exportAll plan) (announcing s₁ "export" read) wrote s₂ ∧
      Runs (wrote.draw plan) (announcing s₂ "rendering" wrote) drew s₃ ∧
      run.context = drew.assess ∧ after = announcing s₃ "validation" drew := by
  unfold stages at h
  obtain ⟨read, s₁, _, hingest, hstages₁, rfl⟩ := runs_runStages_cons.mp h
  obtain ⟨wrote, s₂, _, hexport, hstages₂, rfl⟩ := runs_runStages_cons.mp hstages₁
  obtain ⟨drew, s₃, _, hdraw, hstages₃, rfl⟩ := runs_runStages_cons.mp hstages₂
  obtain ⟨assessed, _, _, hassess, hstages₄, rfl⟩ := runs_runStages_cons.mp hstages₃
  obtain ⟨hlast, rfl⟩ := runs_runStages_nil.mp hstages₄
  cases hlast
  obtain ⟨_, hingest, hread⟩ := runs_map.mp hingest
  obtain ⟨_, hexport, hwrote⟩ := runs_map.mp hexport
  obtain ⟨_, hdraw, hdrew⟩ := runs_map.mp hdraw
  obtain ⟨hassessed, rfl⟩ := runs_pure.mp hassess
  cases hread
  cases hwrote
  cases hdrew
  cases hassessed
  exact ⟨read, wrote, drew, s₁, s₂, s₃, hingest, hexport, hdraw, rfl, rfl⟩

end SourceRun

/-- What a processed source leaves: a document of every scope, in order, of which the last at a
location stands. -/
structure Documented (plan : Plan) (source : Path) (before : Session) (result : SourceResult)
    (after : Session) (lines : List String) (documents : List Document) : Prop where
  reads : Tables.readLines before.tree source = .ok lines
  scopes : documents.map Document.scope = (assembleScopes lines).value
  paths : documents.map Document.path = result.documents
  graphs : ∀ d ∈ documents, d.scope.graph.value = .ok d.graph
  each : ∀ d ∈ documents, SourceRun.IsDocument plan source before.labeller d
  written : Written before.tree documents after.tree

theorem Documented.namedAfter {plan : Plan} {source : Path} {before after : Session}
    {result : SourceResult} {lines : List String} {documents : List Document}
    (h : Documented plan source before result after lines documents) {d : Document}
    (hd : d ∈ documents) : NamedAfter plan source d :=
  (h.each d hd).path

/-- **A source that is processed leaves the documents of its scopes.** -/
theorem runs_processSource {plan : Plan} {source : Path} {before after : Session}
    {result : SourceResult} (h : Runs (processSource plan source) before result after) :
    ∃ lines documents, Documented plan source before result after lines documents := by
  unfold processSource at h
  obtain ⟨outcome, _, hstages, hrest⟩ := runs_bind.mp h
  obtain ⟨run, _, hrun, hresult⟩ := runs_bind.mp hrest
  obtain ⟨rfl, rfl⟩ := runs_orStop.mp hrun
  obtain ⟨rfl, rfl⟩ := runs_pure.mp hresult
  obtain ⟨read, wrote, drew, _, _, s, hingest, hexport, hdraw, hcontext, rfl⟩ :=
    SourceRun.runs_stages hstages
  obtain ⟨lines, hlines, hsource, hscopes, hgraphs, htree, hlabeller⟩ :=
    SourceRun.runs_ingest hingest
  obtain ⟨documents, hwritten, hpairs, hpaths, hdocuments⟩ := SourceRun.runs_exportAll hexport
  obtain ⟨hexports, hdrawn⟩ := SourceRun.runs_draw hdraw
  simp only [SourceRun.tree_announcing, SourceRun.labeller_announcing] at *
  refine ⟨lines, documents, hlines, ?_, ?_, ?_, ?_, ?_⟩
  · rw [← hscopes, ← hpairs, List.map_map]
    rfl
  · rw [hpaths, hcontext, ← hexports]
    rfl
  · intro d hd
    refine hgraphs (d.scope, d.graph) ?_
    rw [← hpairs]
    exact List.mem_map_of_mem hd
  · intro d hd
    have hdocument := hdocuments d hd
    rw [hsource, hlabeller] at hdocument
    exact hdocument
  · rw [SourceRun.tree_announcing, hdrawn, ← htree]
    exact hwritten

end FlowAtlas
