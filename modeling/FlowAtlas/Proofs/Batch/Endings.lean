import FlowAtlas.Proofs.Batch.Placement
import FlowAtlas.Proofs.Batch.Progress
import FlowAtlas.Proofs.Files.SoundPaths

/-!
# What can stop a source

A source that is processed can be stopped by the system only, if the paths hold no NUL and images
are made in a format that can be a suffix: its scopes have graphs because no node without an id is
recorded, its documents have names, and every stage hands on a context.

Main facts: `processSource_eq` (a source goes straight through its stages) and
`stopsOnly_processSource`.
-/

namespace FlowAtlas

open FileTree

namespace Job

variable {α β γ : Type} {P : Stop → Prop}

/-! ## Jobs that stop for known causes -/

/-- The job stops for a cause of this kind or not at all. -/
def StopsOnly (P : Stop → Prop) (job : Job α) : Prop :=
  ∀ before stop after, job.run.run before = (.error stop, after) → P stop

/-- What follows the first part may use that this part ran. -/
theorem StopsOnly.bind {x : Job α} {f : α → Job β} (hx : StopsOnly P x)
    (hf : ∀ a before middle, Runs x before a middle → StopsOnly P (f a)) :
    StopsOnly P (x >>= f) := by
  intro before stop after h
  rw [run_bind] at h
  rcases hrun : x.run.run before with ⟨result, middle⟩
  rw [hrun] at h
  cases result with
  | error first =>
    cases h
    exact hx before _ _ hrun
  | ok a => exact hf a before middle hrun middle stop after h

theorem stopsOnly_pure (a : α) : StopsOnly P (pure a) := by
  intro before stop after h
  cases h

theorem stopsOnly_get : StopsOnly P get := by
  intro before stop after h
  cases h

theorem stopsOnly_modify (f : Session → Session) : StopsOnly P (modify f) := by
  intro before stop after h
  cases h

theorem stopsOnly_logged (x : Logged α) : StopsOnly P (logged x) := by
  intro before stop after h
  cases h

theorem stopsOnly_orStop {ε : Type} {stop : ε → Stop} {result : Except ε α}
    (h : ∀ e, result = .error e → P (stop e)) : StopsOnly P (orStop stop result) := by
  cases result with
  | ok a => exact stopsOnly_pure a
  | error e =>
    intro before cause after hrun
    cases hrun
    exact h e rfl

theorem stopsOnly_onTree {change : FileTree → Except FileError Unit × FileTree}
    (h : ∀ tree e after, change tree = (.error e, after) → P (.file e)) :
    StopsOnly P (onTree change) := by
  unfold onTree
  refine stopsOnly_get.bind fun s _ _ _ => ?_
  rcases hchange : change s.tree with ⟨result, tree⟩
  refine (stopsOnly_modify _).bind fun _ _ _ _ => ?_
  refine stopsOnly_orStop fun e he => ?_
  subst he
  exact h s.tree e tree hchange

theorem stopsOnly_mapM {f : α → Job β} {as : List α} (h : ∀ a ∈ as, StopsOnly P (f a)) :
    StopsOnly P (as.mapM f) := by
  induction as with
  | nil =>
    rw [List.mapM_nil]
    exact stopsOnly_pure []
  | cons a as ih =>
    rw [List.mapM_cons]
    refine (h a (List.mem_cons_self ..)).bind fun b _ _ _ => ?_
    refine (ih fun a' ha' => h a' (List.mem_cons_of_mem _ ha')).bind fun bs _ _ _ => ?_
    exact stopsOnly_pure (b :: bs)

/-! ## Straight through the stages -/

theorem runStages_nil (source : γ → String) (context : γ) :
    runStages source [] context = (pure (.ok ⟨context, []⟩) : Job _) := rfl

theorem runStages_cons (source : γ → String) (name : String) (job : γ → Job γ)
    (rest : List (Stage Job γ)) (context : γ) :
    runStages source (⟨name, fun c => some <$> job c⟩ :: rest) context = (do
      MonadLog.emit .debug ("Running phase " ++ name ++ " on " ++ source context)
      let next ← job context
      let run ← runStages source rest next
      pure (run.map (.after name)) : Job _) := by
  simp [runStages]

end Job

open Job

/-- Say which stage of a source comes next. -/
def announce (stage : String) (source : Path) : Job Unit :=
  MonadLog.emit .debug ("Running phase " ++ stage ++ " on " ++ source.text)

theorem runs_announce (stage : String) (source : Path) (before : Session) :
    Runs (announce stage source) before ()
      { before with
        log := before.log ++ [⟨.debug, "Running phase " ++ stage ++ " on " ++ source.text⟩] } :=
  runs_logged.mpr ⟨rfl, rfl⟩

/-- Every stage of a source hands on a context, so one comes behind the other. -/
theorem processSource_eq (plan : Plan) (source : Path) :
    processSource plan source = (do
      announce "ingestion" source
      let read ← (SourceRun.start source).ingest
      announce "export" read.source
      let wrote ← read.exportAll plan
      announce "rendering" wrote.source
      let drew ← wrote.draw plan
      announce "validation" drew.source
      pure ⟨source, drew.exports.map Prod.fst, drew.assess.report⟩ : Job _) := by
  have hassess : (fun run : SourceRun => (pure (some run.assess) : Job _)) =
      fun run => some <$> pure run.assess := by
    funext run
    simp
  unfold processSource SourceRun.stages
  rw [hassess]
  simp only [runStages_cons, runStages_nil, bind_assoc, pure_bind, announce]
  rfl

/-! ## Scopes of a source -/

namespace Transcript

theorem none_not_mem_keys_nodesOf (piece : List Reading) : none ∉ (nodesOf piece).keys := by
  rw [keys_nodesOf, OrderedMap.mem_distinct]
  intro h
  obtain ⟨pair, hpair, hnone⟩ := List.mem_map.mp h
  obtain ⟨r, -, hr⟩ := List.mem_filterMap.mp hpair
  unfold Reading.declaration? at hr
  split at hr
  · split at hr
    · cases hr
    · rename_i hid
      cases hr
      exact hid hnone
  · cases hr

end Transcript

/-- No node of a source is without an id. -/
theorem none_not_mem_keys {lines : List String} {scope : Scope}
    (h : scope ∈ (assembleScopes lines).value) : none ∉ scope.nodes.keys := by
  rw [value_assembleScopes] at h
  rcases List.mem_append.mp h with h | h
  · obtain ⟨piece, -, rfl⟩ := List.mem_map.mp h
    exact Transcript.none_not_mem_keys_nodesOf piece
  · rw [List.mem_singleton.mp h]
    exact Transcript.none_not_mem_keys_nodesOf _

/-! ## The stages -/

/-- The system has refused something. -/
def Stop.IsSystem (stop : Stop) : Prop := ∃ e, stop = .file (.system e)

/-- Where documents go is a path that the system can be asked for, and images have a format that can
be a suffix. -/
structure Plan.IsSound (plan : Plan) : Prop where
  directory : ∃ directory, plan.directory = some directory ∧ directory.hasNul = false
  format : plan.render = true → plan.settings.format ≠ "" ∧ '/' ∉ plan.settings.format.toList

namespace Scope

theorem nul_not_mem_ending {lines : List String} {scope : Scope}
    (h : scope ∈ (assembleScopes lines).value) : '\x00' ∉ scope.ending.toList := by
  rcases scope.ending_cases with hending | ⟨name, hentity, hending⟩
  · rw [hending]
    decide
  · have hname : '\x00' ∉ name.toList := (isValue_entity h hentity).not_mem (by decide)
    rw [hending]
    simp [hname]

theorem hasNul_documentPath {directory source : Path} (hd : directory.hasNul = false)
    (hs : source.hasNul = false) {lines : List String} {scope : Scope}
    (h : scope ∈ (assembleScopes lines).value) :
    (SourceRun.documentPath directory (Dot.documentName source scope)).hasNul = false := by
  unfold SourceRun.documentPath Path.child
  rw [documentName_append]
  refine Path.hasNul_join hd (Path.hasNul_ofText ?_)
  rw [String.toList_append, List.mem_append, not_or]
  exact ⟨Path.nul_not_mem_stem hs, nul_not_mem_ending h⟩

end Scope

/-- A document has a name, so an image can lie beside it. -/
theorem SourceRun.name_documentPath_ne (directory : Path) (name : String) :
    (documentPath directory name).name ≠ "" := by
  obtain ⟨names, last, htext⟩ := Path.ofText_append name
  apply Path.name_join_ofText_ne
  rw [htext Scope.continues_dot]
  simp

namespace Drawing

/-- A row of images stops at a document only that has no path for its image. -/
theorem exists_of_makeAll {style : Style} {renderer : Renderer} {documents : List Path}
    {e : Path.SuffixError} (h : (makeAll style renderer documents).value.1 = .error e) :
    ∃ document ∈ documents, document.withSuffix ("." ++ style.format) = .error e := by
  induction documents generalizing renderer with
  | nil => cases h
  | cons document rest ih =>
    unfold makeAll at h
    cases hsuffix : document.withSuffix ("." ++ style.format) with
    | error first =>
      rw [hsuffix] at h
      cases h
      exact ⟨document, List.mem_cons_self .., hsuffix⟩
    | ok image =>
      rw [hsuffix] at h
      simp only [Logged.value_bind, Logged.value_pure] at h
      cases hrest : (makeAll style (make style document image renderer).value.2 rest).value.1 with
      | ok drawings =>
        rw [hrest] at h
        cases h
      | error later =>
        rw [hrest] at h
        cases h
        obtain ⟨other, hother, herror⟩ := ih hrest
        exact ⟨other, List.mem_cons_of_mem _ hother, herror⟩

/-- A row of images is made if all documents have names. -/
theorem exists_ok_makeAll {style : Style} (hformat : style.format ≠ "")
    (hslash : '/' ∉ style.format.toList) {documents : List Path}
    (hnames : ∀ document ∈ documents, document.name ≠ "") (renderer : Renderer) :
    ∃ drawings, (makeAll style renderer documents).value.1 = .ok drawings := by
  cases hmade : (makeAll style renderer documents).value.1 with
  | ok drawings => exact ⟨drawings, rfl⟩
  | error e =>
    obtain ⟨document, hdocument, herror⟩ := exists_of_makeAll hmade
    obtain ⟨image, himage⟩ := Path.exists_withSuffix (hnames document hdocument) hformat hslash
    have hcontra : Except.ok image = Except.error e := himage.symm.trans herror
    cases hcontra

end Drawing

namespace SourceRun

variable {plan : Plan} {source : Path}

theorem stopsOnly_ingest {run : SourceRun} (hs : run.source.hasNul = false) :
    StopsOnly Stop.IsSystem run.ingest := by
  unfold ingest
  refine (stopsOnly_logged _).bind fun _ _ _ _ => stopsOnly_get.bind fun s _ _ _ => ?_
  have hread : ∀ e, Tables.readLines s.tree run.source = .error e → (Stop.file e).IsSystem := by
    intro e he
    obtain ⟨cause, rfl⟩ := exists_system_of_readLines hs he
    exact ⟨cause, rfl⟩
  refine (stopsOnly_orStop hread).bind fun lines _ _ _ => ?_
  refine (stopsOnly_logged _).bind fun scopes before middle hscopes => ?_
  obtain ⟨rfl, -⟩ := runs_logged.mp hscopes
  have hgraphs : ∀ scope ∈ (assembleScopes lines).value,
      StopsOnly Stop.IsSystem (graphOf scope) := by
    intro scope hscope
    obtain ⟨graph, hgraph, -⟩ := Scope.exists_covering_graph (none_not_mem_keys hscope)
    refine (stopsOnly_logged _).bind fun result _ _ hresult => ?_
    obtain ⟨rfl, -⟩ := runs_logged.mp hresult
    refine (stopsOnly_orStop fun e he => ?_).bind fun _ _ _ _ => stopsOnly_pure _
    rw [hgraph] at he
    cases he
  exact (stopsOnly_mapM hgraphs).bind fun _ _ _ _ => stopsOnly_pure _

theorem stopsOnly_writeDocument {directory : Path} {name text : String}
    (hd : directory.hasNul = false) (hp : (documentPath directory name).hasNul = false) :
    StopsOnly Stop.IsSystem (writeDocument directory name text) := by
  have hprovide : ∀ (tree : FileTree) e after,
      tree.provideDirectories directory = (.error e, after) → (Stop.file e).IsSystem := by
    intro tree e after he
    obtain ⟨cause, rfl⟩ := exists_system_of_provideDirectories hd he
    exact ⟨cause, rfl⟩
  have hwrite : ∀ (tree : FileTree) e after,
      tree.write (documentPath directory name) (Text.Utf8.encode text.toList) = (.error e, after) →
        (Stop.file e).IsSystem := by
    intro tree e after he
    obtain ⟨cause, rfl⟩ := exists_system_of_write hp he
    exact ⟨cause, rfl⟩
  refine (stopsOnly_onTree hprovide).bind fun _ _ _ _ => ?_
  refine (stopsOnly_logged _).bind fun _ _ _ _ => ?_
  exact (stopsOnly_onTree hwrite).bind fun _ _ _ _ => stopsOnly_pure _

theorem stopsOnly_exportAll (hplan : plan.IsSound) {run : SourceRun}
    (hs : run.source.hasNul = false) {lines : List String}
    (hscopes : ∀ g ∈ run.graphs, g.1 ∈ (assembleScopes lines).value) :
    StopsOnly Stop.IsSystem (run.exportAll plan) := by
  obtain ⟨directory, hdirectory, hnul⟩ := hplan.directory
  have hexports : ∀ g ∈ run.graphs,
      StopsOnly Stop.IsSystem (exportGraph plan run.source g.1 g.2) := by
    intro g hg
    refine stopsOnly_get.bind fun _ _ _ _ => (stopsOnly_logged _).bind fun serialized _ _ _ => ?_
    obtain ⟨text, labeller⟩ := serialized
    refine (stopsOnly_modify _).bind fun _ _ _ _ => ?_
    rw [hdirectory]
    refine (stopsOnly_orStop fun e he => by cases he).bind fun found _ _ hfound => ?_
    obtain ⟨hok, -⟩ := runs_orStop.mp hfound
    cases hok
    have hpath := Scope.hasNul_documentPath hnul hs (hscopes g hg)
    exact (stopsOnly_writeDocument hnul hpath).bind fun _ _ _ _ => stopsOnly_pure _
  unfold exportAll
  refine (stopsOnly_mapM hexports).bind fun _ _ _ _ => stopsOnly_get.bind fun _ _ _ _ => ?_
  exact (stopsOnly_logged _).bind fun _ _ _ _ => stopsOnly_pure _

theorem stopsOnly_draw (hplan : plan.IsSound) {run : SourceRun}
    (hnames : ∀ path ∈ run.exports.map Prod.fst, path.name ≠ "") :
    StopsOnly Stop.IsSystem (run.draw plan) := by
  unfold draw
  split_ifs with hrender
  · obtain ⟨hformat, hslash⟩ := hplan.format hrender
    refine stopsOnly_get.bind fun s _ _ _ => (stopsOnly_logged _).bind fun made _ _ hmade => ?_
    obtain ⟨rfl, -⟩ := runs_logged.mp hmade
    refine (stopsOnly_modify _).bind fun _ _ _ _ => ?_
    refine (stopsOnly_orStop fun e he => ?_).bind fun _ _ _ _ => stopsOnly_pure _
    have hmakes : ∃ drawings, (Drawing.makeAll plan.settings.style s.renderer
        (run.exports.map Prod.fst)).value.1 = .ok drawings :=
      Drawing.exists_ok_makeAll hformat hslash hnames s.renderer
    obtain ⟨drawings, hok⟩ := hmakes
    cases hok.symm.trans he
  · exact stopsOnly_pure run

end SourceRun

/-- **A source can be stopped by the system only**, whatever it holds. -/
theorem stopsOnly_processSource {plan : Plan} (hplan : plan.IsSound) {source : Path}
    (hs : source.hasNul = false) : StopsOnly Stop.IsSystem (processSource plan source) := by
  rw [processSource_eq]
  refine (stopsOnly_logged _).bind fun _ _ _ _ => ?_
  refine (SourceRun.stopsOnly_ingest hs).bind fun read _ _ hread => ?_
  obtain ⟨lines, -, hsource, hscopes, -⟩ := SourceRun.runs_ingest hread
  have hmem : ∀ g ∈ read.graphs, g.1 ∈ (assembleScopes lines).value := by
    intro g hg
    rw [← hscopes]
    exact List.mem_map_of_mem hg
  have hsread : read.source.hasNul = false := by rwa [hsource]
  refine (stopsOnly_logged _).bind fun _ _ _ _ => ?_
  refine (SourceRun.stopsOnly_exportAll hplan hsread hmem).bind fun wrote _ _ hwrote => ?_
  obtain ⟨documents, -, -, hpaths, hdocuments⟩ := SourceRun.runs_exportAll hwrote
  have hnames : ∀ path ∈ wrote.exports.map Prod.fst, path.name ≠ "" := by
    intro path hpath
    rw [← hpaths] at hpath
    obtain ⟨d, hd, rfl⟩ := List.mem_map.mp hpath
    obtain ⟨directory, -, hdpath⟩ := (hdocuments d hd).path
    rw [hdpath]
    exact SourceRun.name_documentPath_ne directory _
  refine (stopsOnly_logged _).bind fun _ _ _ _ => ?_
  refine (SourceRun.stopsOnly_draw hplan hnames).bind fun _ _ _ _ => ?_
  exact (stopsOnly_logged _).bind fun _ _ _ _ => stopsOnly_pure _

/-- A source that cannot be read stops at once. -/
theorem run_processSource_of_unread (plan : Plan) {source : Path} {before : Session}
    {e : FileError}
    (h : Tables.readLines before.tree source = .error e) :
    ∃ log, (processSource plan source).run.run before = (.error (.file e), { before with log }) := by
  have hingest : ∀ log, ∃ log', (SourceRun.start source).ingest.run.run { before with log } =
      (.error (.file e), { before with log := log' }) := by
    intro log
    refine ⟨log ++ [⟨.info, "Processing file " ++ source.name⟩], ?_⟩
    unfold SourceRun.ingest
    rw [run_bind_of_runs (runs_logged.mpr ⟨rfl, rfl⟩), run_bind_of_runs (runs_get.mpr ⟨rfl, rfl⟩)]
    refine run_bind_of_stop ?_
    show (orStop Stop.file (Tables.readLines before.tree source)).run.run _ = _
    rw [h]
    rfl
  obtain ⟨log, hstop⟩ := hingest _
  refine ⟨log, ?_⟩
  rw [processSource_eq, run_bind_of_runs (runs_announce "ingestion" source before)]
  exact run_bind_of_stop hstop

end FlowAtlas
