import Mathlib.Algebra.Ring.Nat
import FlowAtlas.Proofs.Batch.Drawings
import FlowAtlas.Proofs.FlowGraph.Partition

/-!
# Reports account for their sources

The report on a source is drawn up last, from the exports and drawings alone.  What it counts are
nonetheless the nodes and edges that the scan of the source declared: every scope has one graph and
one export, which counts the scope's nodes and takes its edges apart, and one drawing, whose outcome
is the renderer's next.

Main facts: `map_result_drawingsOf` (which outcome a drawing has), `report_processSource` (what a
report is drawn up from) and `report_accounts`.
-/

namespace FlowAtlas

open Job

/-! ## Results of drawings -/

namespace Drawing

/-- What a report learns of the call for a document. -/
def resultOf (style : Style) (document : Path) (outcome : Outcome) : DrawingResult :=
  ⟨document, isSuccess outcome, if isSuccess outcome then "" else failureDetail style outcome⟩

theorem result_ofOutcome (style : Style) (document image : Path) (outcome : Outcome) :
    (ofOutcome style document image outcome).result = resultOf style document outcome := by
  unfold ofOutcome resultOf result ok detail
  cases isSuccess outcome <;> rfl

/-- Drawings take the next outcomes, one each. -/
theorem map_result_drawingsOf (style : Style) (outcomes : List Outcome) (documents : List Path) :
    (drawingsOf style outcomes documents).map result =
      List.zipWith (resultOf style) documents (Renderer.upcoming outcomes documents.length) := by
  have hresult : (fun document outcome => (drawingFor style document outcome).result) =
      resultOf style := by
    funext document outcome
    exact result_ofOutcome style document _ outcome
  rw [drawingsOf, List.map_zipWith, hresult]

end Drawing

/-! ## What a report is drawn up from -/

namespace Job

/-- A view of the session that each job of a row keeps is kept by the row. -/
theorem view_mapM {α β γ : Type} (view : Session → γ) {f : α → Job β}
    (hf : ∀ a before b after, Runs (f a) before b after → view after = view before) {as : List α}
    {bs : List β} {before after : Session} (h : Runs (as.mapM f) before bs after) :
    view after = view before := by
  induction as generalizing before bs with
  | nil =>
    obtain ⟨-, rfl⟩ := runs_mapM_nil.mp h
    rfl
  | cons a as ih =>
    obtain ⟨b, middle, rest, hfirst, hrest, -⟩ := runs_mapM_cons.mp h
    exact (ih hrest).trans (hf a before b middle hfirst)

end Job

namespace SourceRun

variable {plan : Plan} {source : Path} {before after : Session}

theorem renderer_graphOf {scope : Scope} {g : Scope × FlowGraph}
    (h : Runs (graphOf scope) before g after) : after.renderer = before.renderer := by
  unfold graphOf at h
  simp only [runs_bind, runs_logged, runs_orStop, runs_pure] at h
  obtain ⟨_, _, ⟨-, rfl⟩, _, _, ⟨-, rfl⟩, -, rfl⟩ := h
  rfl

/-- Reading a source draws nothing. -/
theorem undrawn_ingest {run next : SourceRun} (h : Runs run.ingest before next after) :
    next.drawings = run.drawings ∧ after.renderer = before.renderer := by
  unfold ingest at h
  simp only [runs_bind, runs_get, runs_logged, runs_orStop, runs_pure] at h
  obtain ⟨_, _, ⟨-, rfl⟩, _, _, ⟨rfl, rfl⟩, _, _, ⟨-, rfl⟩, _, _, ⟨rfl, rfl⟩, graphs, _, hgraphs,
    rfl, rfl⟩ := h
  exact ⟨rfl, (view_mapM Session.renderer (fun _ _ _ _ => renderer_graphOf) hgraphs :)⟩

/-- Every graph is exported once, in order. -/
theorem exports_mapM_exportGraph {directory : Path} (hdirectory : plan.directory = some directory)
    {graphs : List (Scope × FlowGraph)} {exports : List (Path × Export)}
    (h : Runs (graphs.mapM fun g => exportGraph plan source g.1 g.2) before exports after) :
    exports = graphs.map fun g =>
      (documentPath directory (Dot.documentName source g.1), exportOf source g.1 g.2) := by
  induction graphs generalizing before exports with
  | nil =>
    obtain ⟨rfl, -⟩ := runs_mapM_nil.mp h
    rfl
  | cons g graphs ih =>
    obtain ⟨first, middle, rest, hfirst, hrest, rfl⟩ := runs_mapM_cons.mp h
    obtain ⟨directory', made, tree, hdirectory', -, -, rfl, -⟩ := runs_exportGraph.mp hfirst
    rw [hdirectory, Option.some.injEq] at hdirectory'
    rw [← hdirectory', ih hrest, List.map_cons]

theorem directory_of_mapM_exportGraph {graphs : List (Scope × FlowGraph)}
    {exports : List (Path × Export)} (hne : graphs ≠ [])
    (h : Runs (graphs.mapM fun g => exportGraph plan source g.1 g.2) before exports after) :
    ∃ directory, plan.directory = some directory := by
  obtain ⟨g, graphs, rfl⟩ := List.exists_cons_of_ne_nil hne
  obtain ⟨first, middle, rest, hfirst, -, -⟩ := runs_mapM_cons.mp h
  obtain ⟨directory, -, -, hdirectory, -⟩ := runs_exportGraph.mp hfirst
  exact ⟨directory, hdirectory⟩

theorem renderer_mapM_exportGraph {graphs : List (Scope × FlowGraph)}
    {exports : List (Path × Export)}
    (h : Runs (graphs.mapM fun g => exportGraph plan source g.1 g.2) before exports after) :
    after.renderer = before.renderer := by
  refine view_mapM Session.renderer (fun g s first s' hg => ?_) h
  obtain ⟨directory, made, tree, -, -, -, -, rfl⟩ := runs_exportGraph.mp hg
  rfl

/-- The results of the drawings of documents: none if no images are made, else one each with the
next outcomes. -/
def drawingResults (plan : Plan) (outcomes : List Outcome) (documents : List Path) :
    List DrawingResult :=
  if plan.render then
    List.zipWith (Drawing.resultOf plan.settings.style) documents
      (Renderer.upcoming outcomes documents.length)
  else []

theorem results_draw {run next : SourceRun} (h : Runs (run.draw plan) before next after)
    (hnone : run.drawings = []) :
    next.drawings.map Drawing.result =
      drawingResults plan before.renderer.outcomes (run.exports.map Prod.fst) := by
  unfold drawingResults
  split_ifs with hrender
  · rw [drawings_of_runs_draw hrender h, Drawing.map_result_drawingsOf]
  · unfold draw at h
    rw [if_neg hrender] at h
    obtain ⟨rfl, rfl⟩ := runs_pure.mp h
    rw [hnone]
    rfl

end SourceRun

/-! ## What the report says of the scopes -/

namespace Report

/-- The warning about a scope with edges that dangle. -/
def danglingText (source : Path) (scope : Scope) : String :=
  Dot.documentName source scope ++ ": " ++ Text.decimal scope.danglingEdges.length ++ " of " ++
    Text.decimal scope.edges.length ++ " edges reference undeclared nodes"

/-- The warning about a document whose image was not made. -/
def failureText (style : Drawing.Style) (document : Path) (outcome : Outcome) : String :=
  document.name ++ ": render failed (" ++ Drawing.failureDetail style outcome ++ ")"

/-- The scopes whose image was not made, each with the outcome of its call. -/
def failedCalls (plan : Plan) (outcomes : List Outcome) (scopes : List Scope) :
    List (Scope × Outcome) :=
  if plan.render then
    (scopes.zip (Renderer.upcoming outcomes scopes.length)).filter fun call =>
      !Drawing.isSuccess call.2
  else []

/-- The report accounts for the scopes of a source and the outcomes that its calls had. -/
structure AccountsFor (plan : Plan) (directory source : Path) (outcomes : List Outcome)
    (scopes : List Scope) (report : Report) : Prop where
  scopeCount : report.scopeCount = scopes.length
  nodeCount : report.nodeCount = ((scopes.map fun scope => scope.nodes.size).sum : Nat)
  /-- Every declared edge is counted once, as an edge of the graph or as one that dangles. -/
  edgeCount : report.edgeCount + report.danglingCount =
    ((scopes.map fun scope => scope.edges.length).sum : Nat)
  danglingCount : report.danglingCount =
    ((scopes.map fun scope => scope.danglingEdges.length).sum : Nat)
  failureCount : report.failureCount = (failedCalls plan outcomes scopes).length
  /-- First one for each scope with edges that dangle, then one for each failed call. -/
  warnings : report.warnings =
    (scopes.filter fun scope => !scope.danglingEdges.isEmpty).map (danglingText source) ++
      (failedCalls plan outcomes scopes).map fun call =>
        failureText plan.settings.style
          (SourceRun.documentPath directory (Dot.documentName source call.1)) call.2

section Counts

variable {plan : Plan} {directory source : Path} {graphs : List (Scope × FlowGraph)}

/-- A count of exports that goes by the scopes is a sum over these. -/
theorem total_exportOf {count : Export → Int} (size : Scope → Nat)
    (h : ∀ g ∈ graphs, count (SourceRun.exportOf source g.1 g.2) = size g.1) :
    total count (graphs.map fun g => SourceRun.exportOf source g.1 g.2) =
      (((graphs.map Prod.fst).map size).sum : Nat) := by
  induction graphs with
  | nil => rfl
  | cons g graphs ih =>
    have hrest := ih fun g' hg' => h g' (List.mem_cons_of_mem _ hg')
    have hfirst := h g (List.mem_cons_self ..)
    unfold total at hrest ⊢
    rw [List.map_cons, List.foldr_cons, hrest, hfirst, List.map_cons, List.map_cons, List.sum_cons]
    exact (Int.natCast_add _ _).symm

theorem total_add (count count' : Export → Int) (exports : List Export) :
    total count exports + total count' exports = total (fun e => count e + count' e) exports := by
  induction exports with
  | nil => rfl
  | cons e exports ih =>
    unfold total at ih ⊢
    rw [List.foldr_cons, List.foldr_cons, List.foldr_cons, ← ih]
    dsimp only
    omega

/-- The export of a scope is warned of exactly if edges of the scope dangle. -/
theorem danglingWarning?_exportOf (source : Path) {scope : Scope} {graph : FlowGraph}
    (h : Scope.Partition scope graph) :
    danglingWarning? (SourceRun.exportOf source scope graph) =
      if scope.danglingEdges.isEmpty then none else some (danglingText source scope) := by
  unfold danglingWarning?
  rw [show (SourceRun.exportOf source scope graph).danglingCount = (scope.danglingEdges.length : Nat)
    from congrArg Nat.cast h.dangling]
  cases hdangling : scope.danglingEdges with
  | nil => rfl
  | cons edge edges =>
    unfold danglingText
    rw [hdangling]
    rfl

theorem filterMap_danglingWarning? (h : ∀ g ∈ graphs, Scope.Partition g.1 g.2) :
    (graphs.map fun g => SourceRun.exportOf source g.1 g.2).filterMap danglingWarning? =
      ((graphs.map Prod.fst).filter fun scope => !scope.danglingEdges.isEmpty).map
        (danglingText source) := by
  induction graphs with
  | nil => rfl
  | cons g graphs ih =>
    have hrest := ih fun g' hg' => h g' (List.mem_cons_of_mem _ hg')
    have hfirst := danglingWarning?_exportOf source (h g (List.mem_cons_self ..))
    rw [List.map_cons, List.filterMap_cons, hfirst, List.map_cons, List.filter_cons]
    cases g.1.danglingEdges.isEmpty with
    | true => simpa using hrest
    | false => simpa using hrest

theorem drawingWarning?_resultOf (style : Drawing.Style) (document : Path) (outcome : Outcome) :
    drawingWarning? (Drawing.resultOf style document outcome) =
      if Drawing.isSuccess outcome then none else some (failureText style document outcome) := by
  unfold drawingWarning? Drawing.resultOf failureText
  cases Drawing.isSuccess outcome <;> rfl

/-- The drawings of scopes' documents are those of the calls with the next outcomes. -/
theorem drawingResults_eq (outcomes : List Outcome) (document : Scope → Path)
    (scopes : List Scope) :
    SourceRun.drawingResults plan outcomes (scopes.map document) =
      if plan.render then
        (scopes.zip (Renderer.upcoming outcomes scopes.length)).map fun call =>
          Drawing.resultOf plan.settings.style (document call.1) call.2
      else [] := by
  unfold SourceRun.drawingResults
  rw [List.length_map, List.zipWith_map_left, List.zip, List.map_zipWith]

theorem length_failed_drawingResults (outcomes : List Outcome) (document : Scope → Path)
    (scopes : List Scope) :
    ((SourceRun.drawingResults plan outcomes (scopes.map document)).filter fun d => !d.ok).length =
      (failedCalls plan outcomes scopes).length := by
  rw [drawingResults_eq]
  unfold failedCalls
  split_ifs
  · rw [List.filter_map, List.length_map]
    rfl
  · rfl

theorem filterMap_drawingWarning? (outcomes : List Outcome) (document : Scope → Path)
    (scopes : List Scope) :
    (SourceRun.drawingResults plan outcomes (scopes.map document)).filterMap drawingWarning? =
      (failedCalls plan outcomes scopes).map fun call =>
        failureText plan.settings.style (document call.1) call.2 := by
  rw [drawingResults_eq]
  unfold failedCalls
  split_ifs
  · induction scopes.zip (Renderer.upcoming outcomes scopes.length) with
    | nil => rfl
    | cons call calls ih =>
      rw [List.map_cons, List.filterMap_cons, drawingWarning?_resultOf, List.filter_cons]
      cases Drawing.isSuccess call.2 with
      | true => simpa using ih
      | false => simpa using ih
  · rfl

end Counts

/-- What is reported of graphs that take the edges of their scopes apart. -/
theorem accountsFor_of {plan : Plan} {directory source : Path} {outcomes : List Outcome}
    {graphs : List (Scope × FlowGraph)} (h : ∀ g ∈ graphs, Scope.Partition g.1 g.2) :
    AccountsFor plan directory source outcomes (graphs.map Prod.fst)
      (.of (graphs.map fun g => SourceRun.exportOf source g.1 g.2)
        (SourceRun.drawingResults plan outcomes ((graphs.map Prod.fst).map fun scope =>
          SourceRun.documentPath directory (Dot.documentName source scope)))) where
  scopeCount := by
    show (graphs.map _).length = _
    rw [List.length_map, List.length_map]
  nodeCount := by
    refine total_exportOf (fun scope => scope.nodes.size) fun g hg => ?_
    have hnodes := congrArg List.length (h g hg).nodes
    rw [List.length_map] at hnodes
    exact congrArg Nat.cast hnodes
  edgeCount := by
    show total Export.edgeCount _ + total Export.danglingCount _ = _
    rw [total_add]
    refine total_exportOf (fun scope => scope.edges.length) fun g hg => ?_
    have htotal := (h g hg).total
    have hdangling := (h g hg).dangling
    show (g.2.network.arcs.length : Int) + (g.2.dangling : Int) = g.1.edges.length
    omega
  danglingCount :=
    total_exportOf (fun scope => scope.danglingEdges.length) fun g hg =>
      congrArg Nat.cast (h g hg).dangling
  failureCount := length_failed_drawingResults outcomes _ _
  warnings := by
    show List.filterMap danglingWarning? _ ++ List.filterMap drawingWarning? _ = _
    rw [filterMap_danglingWarning? h, filterMap_drawingWarning?]

end Report

/-! ## The report on a source -/

theorem Scope.partition_of_graph {scope : Scope} {graph : FlowGraph} (h : none ∉ scope.nodes.keys)
    (hgraph : scope.graph.value = .ok graph) : Partition scope graph := by
  obtain ⟨vertices, hv, hclosed⟩ := exists_graph h
  rw [hclosed] at hgraph
  cases hgraph
  exact partition_addArcs h hv

namespace SourceRun

theorem exports_exportAll {plan : Plan} {run next : SourceRun} {before after : Session}
    (hne : run.graphs ≠ []) (h : Runs (run.exportAll plan) before next after) :
    ∃ directory, plan.directory = some directory ∧
      next.exports = run.graphs.map (fun g =>
        (documentPath directory (Dot.documentName run.source g.1), exportOf run.source g.1 g.2)) ∧
      next.drawings = run.drawings ∧ after.renderer = before.renderer := by
  unfold exportAll at h
  simp only [runs_bind, runs_get, runs_logged, runs_pure] at h
  obtain ⟨exports, _, hexports, _, _, ⟨rfl, rfl⟩, _, _, ⟨rfl, rfl⟩, rfl, rfl⟩ := h
  obtain ⟨directory, hdirectory⟩ := directory_of_mapM_exportGraph hne hexports
  exact ⟨directory, hdirectory, exports_mapM_exportGraph hdirectory hexports, rfl,
    (renderer_mapM_exportGraph hexports :)⟩

end SourceRun

/-- The report on a source is drawn up from one export for each of its graphs and, if images are
made, one drawing for each. -/
theorem report_processSource {plan : Plan} {source : Path} {before after : Session}
    {result : SourceResult} (h : Runs (processSource plan source) before result after) :
    ∃ (lines : List String) (directory : Path) (graphs : List (Scope × FlowGraph)),
      Tables.readLines before.tree source = .ok lines ∧
      plan.directory = some directory ∧ graphs.map Prod.fst = (assembleScopes lines).value ∧
      (∀ g ∈ graphs, g.1.graph.value = .ok g.2) ∧
      result.report = .of (graphs.map fun g => SourceRun.exportOf source g.1 g.2)
        (SourceRun.drawingResults plan before.renderer.outcomes ((graphs.map Prod.fst).map
          fun scope => SourceRun.documentPath directory (Dot.documentName source scope))) := by
  unfold processSource at h
  obtain ⟨outcome, _, hstages, hrest⟩ := runs_bind.mp h
  obtain ⟨run, _, hrun, hresult⟩ := runs_bind.mp hrest
  obtain ⟨rfl, rfl⟩ := runs_orStop.mp hrun
  obtain ⟨rfl, rfl⟩ := runs_pure.mp hresult
  obtain ⟨read, wrote, drew, _, _, _, hingest, hexport, hdraw, hcontext, -⟩ :=
    SourceRun.runs_stages hstages
  obtain ⟨lines, hlines, hsource, hscopes, hgraphs, -, -⟩ := SourceRun.runs_ingest hingest
  have hne : read.graphs ≠ [] := by
    intro hnil
    obtain ⟨closed, last, hall, -, -⟩ := exists_closed_trailing lines
    rw [hnil, hall] at hscopes
    simp at hscopes
  obtain ⟨directory, hdirectory, hexports, hdrawings, hrenderer⟩ :=
    SourceRun.exports_exportAll hne hexport
  obtain ⟨hundrawn, hread⟩ := SourceRun.undrawn_ingest hingest
  rw [hundrawn] at hdrawings
  have hresults := SourceRun.results_draw hdraw hdrawings
  obtain ⟨hkept, -⟩ := SourceRun.runs_draw hdraw
  have houtcomes : ∀ s stage run, (SourceRun.announcing s stage run).renderer = s.renderer :=
    fun _ _ _ => rfl
  rw [houtcomes, hrenderer, houtcomes, hread, houtcomes] at hresults
  refine ⟨lines, directory, read.graphs, hlines, hdirectory, hscopes, hgraphs, ?_⟩
  rw [hcontext]
  show Report.of (drew.exports.map Prod.snd) (drew.drawings.map Drawing.result) = _
  rw [hresults, hkept, hexports, hsource, List.map_map, List.map_map, List.map_map]
  rfl

/-- **The report on a source accounts for exactly what its lines declare** and for how the calls of
the renderer ended: no node, edge or failed call is left out or counted twice, and there is no
further warning. -/
theorem report_accounts {plan : Plan} {source : Path} {before after : Session}
    {result : SourceResult} (h : Runs (processSource plan source) before result after) :
    ∃ lines directory, Tables.readLines before.tree source = .ok lines ∧
      plan.directory = some directory ∧
      result.report.AccountsFor plan directory source before.renderer.outcomes
        (assembleScopes lines).value := by
  obtain ⟨lines, directory, graphs, hlines, hdirectory, hscopes, hgraphs, hreport⟩ :=
    report_processSource h
  have hpartition : ∀ g ∈ graphs, Scope.Partition g.1 g.2 := by
    intro g hg
    have hscope : g.1 ∈ (assembleScopes lines).value := by
      rw [← hscopes]
      exact List.mem_map_of_mem hg
    exact Scope.partition_of_graph (none_not_mem_keys hscope) (hgraphs g hg)
  refine ⟨lines, directory, hlines, hdirectory, ?_⟩
  rw [hreport, ← hscopes]
  exact Report.accountsFor_of hpartition

/-! ## A source with a stray edge -/

namespace StrayEdge

def source : Path := ⟨.here, ["m.xml"]⟩

/-- A door whose node is declared twice, with parallel edges and two that dangle, and one more edge
behind it. -/
def text : String :=
  "<Entity Name=\"Door\">\n<Node Id=\"1\" Class=\"Ark:EndGame\"/>\n" ++
    "<Node Id=\"1\" Class=\"Ark:EndGame\"/>\n<Edge nodeOut=\"1\" nodeIn=\"1\"/>\n" ++
      "<Edge nodeOut=\"1\" nodeIn=\"1\"/>\n<Edge nodeOut=\"1\" nodeIn=\"2\"/>\n" ++
        "<Edge nodeOut=\"1\"/>\n</FlowGraph>\n<Edge nodeIn=\"1\"/>\n"

/-- The first call succeeds, the second does not. -/
def session : Session :=
  .start
    ⟨.ofList [(["work"], .directory),
      (["work", "m.xml"], .file (Text.Utf8.encode text.toList))], ["work"]⟩
    [.exited 0 "", .exited 1 " no space \n"] .blank .standard

def plan : Plan := ⟨.standard, true, some ⟨.here, ["out"]⟩⟩

def report : Report where
  scopeCount := 2
  nodeCount := 1
  edgeCount := 2
  danglingCount := 3
  failureCount := 1
  warnings := ["m_Door: 2 of 4 edges reference undeclared nodes",
    "m: 1 of 1 edges reference undeclared nodes", "m.dot: render failed (no space)"]

theorem exists_runs :
    ∃ result after, Runs (processSource plan source) session result after ∧
      result.report = report :=
  exists_runs_of_map (by decide +kernel)

end StrayEdge

theorem strayEdge_report_accounts :
    ∃ result after, Runs (processSource StrayEdge.plan StrayEdge.source) StrayEdge.session result
        after ∧ result.report = StrayEdge.report ∧
      ∃ lines directory,
        Tables.readLines StrayEdge.session.tree StrayEdge.source = .ok lines ∧
        StrayEdge.plan.directory = some directory ∧
        StrayEdge.report.AccountsFor StrayEdge.plan directory StrayEdge.source
          StrayEdge.session.renderer.outcomes (assembleScopes lines).value := by
  obtain ⟨result, after, hrun, hreport⟩ := StrayEdge.exists_runs
  have haccounts := report_accounts hrun
  rw [hreport] at haccounts
  exact ⟨result, after, hrun, hreport, haccounts⟩

end FlowAtlas
