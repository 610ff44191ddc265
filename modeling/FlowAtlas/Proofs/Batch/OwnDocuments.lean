import FlowAtlas.Proofs.Batch.Independence
import FlowAtlas.Proofs.Batch.Provided

/-!
# A document for every scope

Where the closed scopes of a source have distinct names without slashes and no directory is in the
way, every scope gets a document of its own.  The source then fails for one reason only: the system
takes no name and no path that is too long, and the name of a document grows with that of its
entity.

Main facts: `exportEffect_of_writable` (what graphs leave that can all be written),
`HasOwnPlaces.fault?_eq_none_iff` and `own_documents_iff`.
-/

namespace FlowAtlas

open Job FileTree

/-! ## Documents that can all be written -/

/-- Neither the path nor its last name is too long for the system. -/
def Path.Fits (path : Path) : Prop :=
  path.name.utf8ByteSize ≤ maxNameBytes ∧ path.byteCount ≤ maxPathBytes

/-- A name without a dot is its own stem. -/
theorem Path.stem_eq_name {path : Path} (h : '.' ∉ path.name.toList) : path.stem = path.name := by
  have hdot : path.name.toList.reverse.dropWhile (· ≠ '.') = [] := by
    rw [List.dropWhile_eq_nil_iff]
    intro c hc
    exact decide_eq_true fun heq => h (heq ▸ List.mem_reverse.mp hc)
  unfold Path.stem Path.splitName
  dsimp only
  rw [hdot]

namespace FileTree

/-- A name in a directory can be written if its path is sound and fits and no directory has it. -/
theorem entryFault?_eq_none_iff {path : Path} {name : String} {occupied : Bool} :
    entryFault? path name occupied = none ↔
      (path.entry name).hasNul = false ∧ (path.entry name).Fits ∧ occupied = false := by
  unfold entryFault? Path.Fits
  rw [Path.name_entry]
  split_ifs with hnul hlong hthere
  · simp [hnul]
  · simp only [false_iff]
    omega
  · simp [hthere]
  · simp only [true_iff]
    exact ⟨Bool.eq_false_iff.mpr hnul, by omega, Bool.eq_false_iff.mpr hthere⟩

/-- Where no two files are put at one location, each is the last at its own. -/
theorem lastPut_of_nodup {files : List Put} {file : Put} (h : file ∈ files)
    (hn : (files.map Prod.fst).Nodup) : lastPut file.1 files = some file := by
  obtain ⟨last, hlast⟩ := exists_lastPut (List.mem_map_of_mem (f := Prod.fst) h)
  obtain ⟨hmem, hat⟩ := List.mem_filter.mp (List.mem_of_getLast? hlast)
  rw [hlast, List.inj_on_of_nodup_map hn hmem h (of_decide_eq_true hat)]

end FileTree

section Exports

variable {plan : Plan} {ground : Ground} {source : Path} {graphs : List (Scope × FlowGraph)}

/-- The file that the document of a graph is. -/
def documentPut (plan : Plan) (ground : Ground) (source : Path) (g : Scope × FlowGraph) : Put :=
  (ground.place ++ [fileName source g.1], Text.Utf8.encode (documentText plan ground g.2).toList)

theorem exportEffect_of_writable (plan : Plan)
    (h : ∀ g ∈ graphs, ground.fault? (fileName source g.1) = none) :
    (exportEffect plan ground source graphs).ending =
        .ok (graphs.map fun g => (ground.directory.entry (fileName source g.1),
          SourceRun.exportOf source g.1 g.2)) ∧
      (exportEffect plan ground source graphs).files =
        graphs.map (documentPut plan ground source) := by
  induction graphs with
  | nil => exact ⟨rfl, rfl⟩
  | cons g rest ih =>
    obtain ⟨hending, hfiles⟩ := ih fun later hlater => h later (List.mem_cons_of_mem _ hlater)
    unfold exportEffect
    rw [h g (List.mem_cons_self ..)]
    dsimp only
    rw [hending, hfiles]
    exact ⟨rfl, rfl⟩

/-- One document that cannot be written ends the export. -/
theorem exists_error_of_fault (plan : Plan) {g : Scope × FlowGraph} (hg : g ∈ graphs)
    {error : FileError} (h : ground.fault? (fileName source g.1) = some error) :
    ∃ stop, (exportEffect plan ground source graphs).ending = .error stop := by
  induction graphs with
  | nil => cases hg
  | cons first rest ih =>
    unfold exportEffect
    cases hfault : ground.fault? (fileName source first.1) with
    | some other => exact ⟨_, rfl⟩
    | none =>
      rcases List.mem_cons.mp hg with rfl | hg
      · rw [h] at hfault
        cases hfault
      · obtain ⟨stop, hstop⟩ := ih hg
        dsimp only
        rw [hstop]
        exact ⟨stop, rfl⟩

theorem mem_scopes_of_mem_graphsOf {scopes : List Scope} {g : Scope × FlowGraph}
    (h : g ∈ graphsOf scopes) : g.1 ∈ scopes := by
  obtain ⟨scope, hscope, hg⟩ := List.mem_filterMap.mp h
  obtain ⟨graph, -, rfl⟩ := Option.map_eq_some_iff.mp hg
  exact hscope

theorem exists_mem_graphsOf {lines : List String} {scope : Scope}
    (h : scope ∈ (assembleScopes lines).value) :
    ∃ graph, scope.graph.value = .ok graph ∧
      (scope, graph) ∈ graphsOf (assembleScopes lines).value := by
  obtain ⟨graph, hgraph, -⟩ := Scope.exists_covering_graph (none_not_mem_keys h)
  exact ⟨graph, hgraph, List.mem_filterMap.mpr ⟨scope, h, by rw [hgraph]; rfl⟩⟩

end Exports

/-! ## Places of their own -/

/-- Where the documents of the scopes of some lines go, in order. -/
def targets (directory source : Path) (lines : List String) : List Path :=
  (assembleScopes lines).value.map fun scope =>
    SourceRun.documentPath directory (Dot.documentName source scope)

/-- Nothing but the name of a closed scope can bring a slash into the name of a document. -/
theorem Scope.slash_not_mem_ending_of_imp {scope : Scope}
    (h : scope.trailing = false → scope.HasPlainName) : '/' ∉ scope.ending.toList := by
  cases htrailing : scope.trailing with
  | true => exact Scope.slash_not_mem_ending_of_trailing htrailing
  | false => exact (h htrailing).slash_not_mem_ending

/-- The documents of a source have places of their own: its closed scopes have distinct names
without slashes, and the directory is there or can be made and has no directories under the names of
the documents. -/
structure HasOwnPlaces (plan : Plan) (directory source : Path) (before : Session)
    (lines : List String) (made : FileTree) : Prop where
  noImages : plan.render = false
  goesTo : plan.directory = some directory
  plain : source.IsPlain
  reads : Tables.readLines before.tree source = .ok lines
  distinct : (((assembleScopes lines).value.filter fun scope => !scope.trailing).map
    Scope.entity).Nodup
  names : ∀ scope ∈ (assembleScopes lines).value, scope.trailing = false → scope.HasPlainName
  provided : before.tree.provideDirectories directory = (.ok (), made)
  free : ∀ path ∈ targets directory source lines, made.isDirectory path ≠ .ok true

/-- Every scope has a document of its own, and nothing else is touched. -/
structure OwnDocuments (plan : Plan) (directory source : Path) (before : Session)
    (lines : List String) (made : FileTree) (result : SourceResult) (after : Session) : Prop where
  /-- One document for each scope, in order. -/
  documents : result.documents = targets directory source lines
  distinct : result.documents.Nodup
  /-- The document of a scope is the serialization of its graph. -/
  each : ∀ scope ∈ (assembleScopes lines).value, ∃ graph, scope.graph.value = .ok graph ∧
    after.tree.read (SourceRun.documentPath directory (Dot.documentName source scope)) =
      .ok (Text.Utf8.encode
        (Dot.serialize graph plan.settings.yScale before.labeller).value.1.toList)
  /-- Off the documents everything is as it was when the directory had been provided. -/
  others : ∀ location, (∀ path ∈ targets directory source lines, made.locate path ≠ .ok location) →
    after.tree.entryAt location = made.entryAt location
  /-- No other file comes, goes or changes. -/
  files : ∀ location content,
    (∀ path ∈ targets directory source lines, made.locate path ≠ .ok location) →
      (after.tree.entryAt location = some (.file content) ↔
        before.tree.entryAt location = some (.file content))
  renderer : after.renderer = before.renderer

namespace HasOwnPlaces

variable {plan : Plan} {directory source : Path} {before : Session} {lines : List String}
  {made : FileTree} {scope : Scope}

theorem slash_not_mem_ending (h : HasOwnPlaces plan directory source before lines made)
    (hscope : scope ∈ (assembleScopes lines).value) : '/' ∉ scope.ending.toList :=
  Scope.slash_not_mem_ending_of_imp (h.names scope hscope)

theorem documentPath_eq (h : HasOwnPlaces plan directory source before lines made)
    (hscope : scope ∈ (assembleScopes lines).value) :
    SourceRun.documentPath directory (Dot.documentName source scope) =
      directory.entry (fileName source scope) :=
  Scope.documentPath_eq_entry directory h.plain.slash_not_mem_stem (h.slash_not_mem_ending hscope)

theorem targets_eq (h : HasOwnPlaces plan directory source before lines made) :
    targets directory source lines =
      ((assembleScopes lines).value.map (fileName source)).map directory.entry := by
  unfold targets
  rw [List.map_map]
  exact List.map_congr_left fun scope hscope => h.documentPath_eq hscope

theorem nodup_targets (h : HasOwnPlaces plan directory source before lines made) :
    (targets directory source lines).Nodup := by
  obtain ⟨closed, last, hscopes, hclosed, hlast⟩ := exists_closed_trailing lines
  have hfilter : (closed ++ [last]).filter (fun scope => !scope.trailing) = closed := by
    rw [List.filter_append, List.filter_eq_self.mpr fun scope hscope => by
      simp [(hclosed scope hscope).trailing]]
    simp [hlast]
  have hdistinct := h.distinct
  have hplain : ∀ scope ∈ closed, scope.HasPlainName := by
    intro scope hscope
    refine h.names scope ?_ (hclosed scope hscope).trailing
    rw [hscopes]
    exact List.mem_append_left _ hscope
  rw [hscopes, hfilter, ← Scope.nodup_routes_of_plain hclosed hplain] at hdistinct
  unfold targets
  rw [hscopes]
  exact (Scope.nodup_documentPaths directory source hclosed hlast).mpr hdistinct

/-- The only thing that can be wrong with a document is the length of its path. -/
theorem fault?_eq_none_iff (h : HasOwnPlaces plan directory source before lines made)
    {place : Location} (hleads : LeadsTo made directory place)
    (hscope : scope ∈ (assembleScopes lines).value) :
    (Ground.of directory place { before with tree := made }).fault? (fileName source scope) =
        none ↔
      (SourceRun.documentPath directory (Dot.documentName source scope)).Fits := by
  have hread := h.reads
  have hsource : source.hasNul = false := by
    unfold Tables.readLines at hread
    cases hcontent : before.tree.read source with
    | error e =>
      rw [hcontent] at hread
      cases hread
    | ok content => exact (exists_of_read_eq_ok hcontent).1
  have hnul : (SourceRun.documentPath directory (Dot.documentName source scope)).hasNul = false :=
    Scope.hasNul_documentPath (hasNul_of_provideDirectories h.provided) hsource hscope
  have hfree := h.free _ (List.mem_map_of_mem hscope)
  have hname : fileName source scope ≠ ".." := Scope.append_ending_ne source.stem scope
  rw [h.documentPath_eq hscope] at hnul hfree ⊢
  unfold Ground.fault?
  rw [entryFault?_eq_none_iff]
  refine ⟨fun hfault => hfault.2.1, fun hfits => ⟨hnul, hfits, decide_eq_false fun hthere => ?_⟩⟩
  -- a directory in the way would be seen
  refine hfree (LeadsTo.isDirectory ⟨?_, hthere⟩ hnul)
  rw [hleads.locate_entry_eq hname, if_neg]
  obtain ⟨hshort, hpath⟩ := hfits
  rw [Path.name_entry] at hshort
  omega

/-- What the source does, in the directory that it provides. -/
theorem run_processSource (h : HasOwnPlaces plan directory source before lines made)
    {place : Location} (hleads : LeadsTo made directory place) :
    ∃ log, (processSource plan source).run.run before =
      ((sourceEffect plan (.of directory place { before with tree := made }) source
          (.ok lines)).ending,
        { before with tree := made }.after
          (sourceEffect plan (.of directory place { before with tree := made }) source
            (.ok lines)).files
          (sourceEffect plan (.of directory place { before with tree := made }) source
            (.ok lines)).kinds log) := by
  obtain ⟨hread, hrun⟩ := run_processSource_provided h.goesTo h.provided h.reads
  have hscopes : ∀ lines', Tables.readLines made source = .ok lines' →
      ∀ scope ∈ (assembleScopes lines').value, '/' ∉ scope.ending.toList := by
    intro lines' hread' scope hscope
    cases hread.symm.trans hread'
    exact h.slash_not_mem_ending hscope
  have hholds : (Ground.of directory place { before with tree := made }).Holds
      { before with tree := made } := holds_of hleads
  obtain ⟨log, hdoes⟩ := doesAt_processSource h.noImages h.goesTo
    (hasNul_of_provideDirectories h.provided) h.plain.slash_not_mem_stem hscopes hholds
  refine ⟨log, ?_⟩
  rw [hrun, hdoes]
  dsimp only
  rw [hread]

/-- The graphs of the source, each of which has a document that can be written. -/
theorem fault?_of_fits (h : HasOwnPlaces plan directory source before lines made)
    {place : Location} (hleads : LeadsTo made directory place)
    (hfits : ∀ path ∈ targets directory source lines, path.Fits) {g : Scope × FlowGraph}
    (hg : g ∈ graphsOf (assembleScopes lines).value) :
    (Ground.of directory place { before with tree := made }).fault? (fileName source g.1) =
      none := by
  have hscope := mem_scopes_of_mem_graphsOf hg
  exact (h.fault?_eq_none_iff hleads hscope).mpr (hfits _ (List.mem_map_of_mem hscope))

/-- The source is processed exactly if no document has too long a path. -/
theorem runs_iff (h : HasOwnPlaces plan directory source before lines made) :
    (∃ result after, Runs (processSource plan source) before result after) ↔
      ∀ path ∈ targets directory source lines, path.Fits := by
  obtain ⟨place, hleads⟩ := leadsTo_provideDirectories h.provided
  obtain ⟨log, hrun⟩ := h.run_processSource hleads
  constructor
  · rintro ⟨result, after, hruns⟩ path hpath
    obtain ⟨scope, hscope, rfl⟩ := List.mem_map.mp hpath
    rw [← h.fault?_eq_none_iff hleads hscope]
    by_contra hfault
    obtain ⟨error, herror⟩ := Option.ne_none_iff_exists'.mp hfault
    obtain ⟨graph, -, hg⟩ := exists_mem_graphsOf hscope
    obtain ⟨stop, hstop⟩ := exists_error_of_fault plan hg herror
    have hending : (sourceEffect plan (.of directory place { before with tree := made }) source
        (.ok lines)).ending = .error stop := by
      unfold sourceEffect
      dsimp only
      rw [hstop]
      rfl
    rw [show (processSource plan source).run.run before = _ from hruns, hending] at hrun
    cases hrun
  · intro hfits
    have hending := (exportEffect_of_writable plan
      fun g hg => h.fault?_of_fits hleads hfits hg).1
    unfold sourceEffect at hrun
    dsimp only at hrun
    rw [hending] at hrun
    exact ⟨_, _, hrun⟩

/-- The files of the documents lie at distinct locations. -/
theorem nodup_locations (h : HasOwnPlaces plan directory source before lines made)
    (ground : Ground) :
    (((graphsOf (assembleScopes lines).value).map (documentPut plan ground source)).map
      Prod.fst).Nodup := by
  have hnames : ((assembleScopes lines).value.map (fileName source)).Nodup :=
    List.Nodup.of_map directory.entry (h.targets_eq ▸ h.nodup_targets)
  have hlocations : ((graphsOf (assembleScopes lines).value).map
      (documentPut plan ground source)).map Prod.fst =
        ((assembleScopes lines).value.map (fileName source)).map
          fun name => ground.place ++ [name] := by
    rw [← map_fileName_graphsOf, List.map_map, List.map_map]
    rfl
  rw [hlocations]
  refine hnames.map fun name name' hsame => ?_
  exact List.singleton_inj.mp (List.append_cancel_left hsame)

/-- Where the file of a document lies. -/
theorem locate_document (h : HasOwnPlaces plan directory source before lines made)
    {place : Location} (hleads : LeadsTo made directory place)
    (hfits : ∀ path ∈ targets directory source lines, path.Fits)
    (hscope : scope ∈ (assembleScopes lines).value) :
    (SourceRun.documentPath directory (Dot.documentName source scope)).hasNul = false ∧
      made.locate (SourceRun.documentPath directory (Dot.documentName source scope)) =
        .ok (place ++ [fileName source scope]) := by
  have hfault := (h.fault?_eq_none_iff hleads hscope).mpr (hfits _ (List.mem_map_of_mem hscope))
  rw [h.documentPath_eq hscope]
  exact hleads.locate_entry_of_writable (Scope.append_ending_ne source.stem scope) hfault

/-- What a source leaves that is processed. -/
theorem ownDocuments (h : HasOwnPlaces plan directory source before lines made)
    {result : SourceResult} {after : Session}
    (hruns : Runs (processSource plan source) before result after) :
    OwnDocuments plan directory source before lines made result after := by
  have hfits := h.runs_iff.mp ⟨result, after, hruns⟩
  obtain ⟨place, hleads⟩ := leadsTo_provideDirectories h.provided
  obtain ⟨log, hrun⟩ := h.run_processSource hleads
  let ground : Ground := .of directory place { before with tree := made }
  have hholds : ground.Holds { before with tree := made } := holds_of hleads
  obtain ⟨hending, hfiles⟩ := exportEffect_of_writable plan
    fun g hg => h.fault?_of_fits hleads hfits hg
  have hallowed : ground.Allows
      (exportEffect plan ground source (graphsOf (assembleScopes lines).value)).files :=
    allows_exportEffect _
  have hfree := hholds.entryAt_ne hallowed
  unfold sourceEffect at hrun
  dsimp only at hrun
  rw [hending, show (processSource plan source).run.run before = _ from hruns] at hrun
  obtain ⟨hresult, rfl⟩ := Prod.mk.inj hrun
  have hdocuments : result.documents = targets directory source lines := by
    rw [Except.ok.inj hresult, h.targets_eq, ← map_fileName_graphsOf]
    simp only [List.map_map]
    rfl
  have hothers : ∀ location, (∀ path ∈ targets directory source lines,
      made.locate path ≠ .ok location) →
        (made.puts (exportEffect plan ground source
          (graphsOf (assembleScopes lines).value)).files).entryAt location =
            made.entryAt location := by
    intro location hoff
    refine entryAt_puts_of_not_mem (fun file hfile => ne_nil_of_entryAt_ne (hfree file hfile)) ?_
    intro hmem
    rw [hfiles, List.map_map] at hmem
    obtain ⟨g, hg, rfl⟩ := List.mem_map.mp hmem
    have hscope := mem_scopes_of_mem_graphsOf hg
    exact hoff _ (List.mem_map_of_mem hscope) (h.locate_document hleads hfits hscope).2
  refine ⟨hdocuments, hdocuments ▸ h.nodup_targets, ?_, hothers, ?_, rfl⟩
  · intro scope hscope
    obtain ⟨graph, hgraph, hg⟩ := exists_mem_graphsOf hscope
    obtain ⟨hnul, hlocate⟩ := h.locate_document hleads hfits hscope
    have hnodup := h.nodup_locations ground
    have hmem := List.mem_map_of_mem (f := documentPut plan ground source) hg
    rw [← hfiles] at hnodup hmem
    exact ⟨graph, hgraph, read_puts hfree hnul hlocate (lastPut_of_nodup hmem hnodup)⟩
  · intro location content hoff
    rw [← (addsDirectories_of_provided h.provided).file_iff, ← hothers location hoff]
    rfl

end HasOwnPlaces

/-- **A source whose documents have places of their own is processed exactly if the system takes
their paths**, and then every scope has its own document and no other file is touched. -/
theorem own_documents_iff {plan : Plan} {directory source : Path} {before : Session}
    {lines : List String} {made : FileTree}
    (h : HasOwnPlaces plan directory source before lines made) :
    ((∃ result after, Runs (processSource plan source) before result after) ↔
      ∀ path ∈ targets directory source lines, path.Fits) ∧
    ∀ result after, Runs (processSource plan source) before result after →
      OwnDocuments plan directory source before lines made result after :=
  ⟨h.runs_iff, fun _ _ hruns => h.ownDocuments hruns⟩

/-! ## Two doors, under a short name and under a long one -/

namespace TwoDoors

def directory : Path := ⟨.here, ["out", "dot"]⟩

def plan : Plan := ⟨.standard, false, some directory⟩

/-- Two closed scopes and a trailing one, all with nodes. -/
def lines : List String :=
  ["<Entity Name=\"Front door\">", "<Node Id=\"1\" Class=\"Ark:EndGame\"/>", "</FlowGraph>",
    "<Entity Name=\"Back door\">", "<Node Id=\"2\" Class=\"Ark:EndGame\"/>", "</FlowGraph>",
    "<Node Id=\"3\" Class=\"Ark:EndGame\"/>"]

/-- A node as the lines declare it. -/
def endGame (id : String) : Node :=
  { id := some id, name := none, kind := some "Ark:EndGame", position := .origin, inputs := .empty }

def source : Path := ⟨.here, ["m.xml"]⟩

/-- A name that leaves no room for that of an entity. -/
def longName : String := String.ofList (List.replicate 250 'm')

def longSource : Path := ⟨.here, [longName]⟩

/-- A working directory with the source alone. -/
def session (source : Path) : Session :=
  .start
    ⟨.ofList [(["work"], .directory),
      ("work" :: source.names, .file (Text.Utf8.encode (Dot.document lines).toList))], ["work"]⟩
    [] .blank .standard

/-- The working directory with the output directory made in it. -/
def made (source : Path) : FileTree :=
  ((session source).tree.provideDirectories directory).2

/-- What the lines declare. -/
def scopes : List Scope :=
  [⟨some "Front door", .ofList [(some "1", endGame "1")], [], false⟩,
    ⟨some "Back door", .ofList [(some "2", endGame "2")], [], false⟩,
    ⟨some "Back door", .ofList [(some "3", endGame "3")], [], true⟩]

theorem read_content :
    Text.linesOfBytes (Text.Utf8.encode (Dot.document lines).toList) = lines ∧
      (assembleScopes lines).value = scopes := by decide +kernel

theorem value_lines : (assembleScopes lines).value = scopes := read_content.2

/-- Either source is found, and the output directory is made as the deepest thing that is there. -/
theorem ready : ∀ path ∈ [source, longSource],
    (session path).tree.locate path = .ok ("work" :: path.names) ∧
      ((session path).tree.provideDirectories directory).1 = .ok () ∧
      (made path).locate directory = .ok ["work", "out", "dot"] ∧
      (made path).entryAt ["work", "out", "dot"] = some .directory ∧
      ∀ key ∈ (made path).entries.keys, key.length ≤ 3 := by decide +kernel

section Either

variable {path : Path}

/-- The source is read where it lies. -/
theorem reads (hnul : path.hasNul = false)
    (hlocate : (session path).tree.locate path = .ok ("work" :: path.names))
    (hname : path.names ≠ []) : Tables.readLines (session path).tree path = .ok lines := by
  have hentry : (session path).tree.entryAt ("work" :: path.names) =
      some (.file (Text.Utf8.encode (Dot.document lines).toList)) := by
    show (if "work" :: path.names = [] then _ else OrderedMap.get? (.ofList _) _) = _
    rw [if_neg (List.cons_ne_nil _ _), OrderedMap.ofList_eq_latest, OrderedMap.get?_latest]
    simp [OrderedMap.valuesOf, hname]
  have hread : (session path).tree.read path =
      .ok (Text.Utf8.encode (Dot.document lines).toList) := by
    unfold FileTree.read
    rw [hnul, hlocate]
    simp only [hentry]
    rfl
  unfold Tables.readLines
  rw [hread]
  exact congrArg Except.ok read_content.1

theorem names : ∀ scope ∈ (assembleScopes lines).value, scope.trailing = false →
    scope.HasPlainName := by
  rw [value_lines]
  decide

/-- The names of the documents lie deeper than anything that is there. -/
theorem free (hplain : path.IsPlain)
    (hmade : LeadsTo (made path) directory ["work", "out", "dot"])
    (hdeep : ∀ key ∈ (made path).entries.keys, key.length ≤ 3) :
    ∀ target ∈ targets directory path lines, (made path).isDirectory target ≠ .ok true := by
  intro target htarget hthere
  obtain ⟨scope, hscope, rfl⟩ := List.mem_map.mp htarget
  have hending := Scope.slash_not_mem_ending_of_imp (names scope hscope)
  rw [Scope.documentPath_eq_entry directory hplain.slash_not_mem_stem hending] at hthere
  obtain ⟨location, hlocate, hentry⟩ := leadsTo_of_isDirectory hthere
  rw [hmade.locate_entry_eq (Scope.append_ending_ne _ scope)] at hlocate
  split_ifs at hlocate
  cases hlocate
  rw [entryAt, if_neg (by simp)] at hentry
  have hkey : ["work", "out", "dot"] ++ [path.stem ++ scope.ending] ∈
      (made path).entries.keys := by
    by_contra hnone
    rw [OrderedMap.get?_eq_none_iff.mpr hnone] at hentry
    cases hentry
  exact absurd (hdeep _ hkey) (by simp)

theorem hasOwnPlaces_of_mem (hpath : path ∈ [source, longSource]) (hplain : path.IsPlain)
    (hnul : path.hasNul = false) (hname : path.names ≠ []) :
    HasOwnPlaces plan directory path (session path) lines (made path) := by
  obtain ⟨hlocate, hprovided, hleads, hthere, hdeep⟩ := ready path hpath
  have hdistinct : (((assembleScopes lines).value.filter fun scope => !scope.trailing).map
      Scope.entity).Nodup := by
    rw [value_lines]
    decide
  exact
    { noImages := rfl
      goesTo := rfl
      plain := hplain
      reads := reads hnul hlocate hname
      distinct := hdistinct
      names := names
      provided := Prod.ext hprovided rfl
      free := free hplain ⟨hleads, hthere⟩ hdeep }

end Either

theorem hasOwnPlaces :
    HasOwnPlaces plan directory source (session source) lines (made source) :=
  hasOwnPlaces_of_mem (by simp) (by decide) (by decide) (by decide)

theorem fits : ∀ path ∈ targets directory source lines, path.Fits := by
  unfold targets Path.Fits
  rw [value_lines]
  decide

theorem eq_of_mem_longName {c : Char} (h : c ∈ longName.toList) : c = 'm' := by
  unfold longName at h
  rw [String.toList_ofList] at h
  exact List.eq_of_mem_replicate h

theorem stem_longSource : longSource.stem = longName :=
  Path.stem_eq_name fun h => absurd (eq_of_mem_longName h) (by decide)

theorem not_mem_names_longSource {c : Char} (hc : c ≠ 'm') :
    ∀ name ∈ longSource.names, c ∉ name.toList := by
  intro name hname hmem
  rw [List.mem_singleton.mp hname] at hmem
  exact hc (eq_of_mem_longName hmem)

theorem hasOwnPlaces_longSource :
    HasOwnPlaces plan directory longSource (session longSource) lines (made longSource) :=
  hasOwnPlaces_of_mem (by simp) (not_mem_names_longSource (by decide))
    (Path.hasNul_eq_false_iff.mpr (not_mem_names_longSource (by decide)))
    (List.cons_ne_nil _ _)

theorem not_fits_longSource : ¬ ∀ path ∈ targets directory longSource lines, path.Fits := by
  intro hfits
  have hlong : ∃ scope ∈ (assembleScopes lines).value, 5 < scope.ending.utf8ByteSize := by
    rw [value_lines]
    decide
  obtain ⟨scope, hscope, hlong⟩ := hlong
  have hname := (hfits _ (List.mem_map_of_mem hscope)).1
  rw [hasOwnPlaces_longSource.documentPath_eq hscope, Path.name_entry] at hname
  unfold fileName at hname
  rw [stem_longSource, String.utf8ByteSize_append] at hname
  have hsize : longName.utf8ByteSize = 250 := by decide +kernel
  unfold maxNameBytes at hname
  omega

end TwoDoors

open TwoDoors in
theorem twoDoors_own_documents_iff :
    HasOwnPlaces plan directory source (session source) lines (made source) ∧
      (∀ path ∈ targets directory source lines, path.Fits) ∧
      ∃ result after, Runs (processSource plan source) (session source) result after ∧
        OwnDocuments plan directory source (session source) lines (made source) result after := by
  obtain ⟨hruns, hown⟩ := own_documents_iff hasOwnPlaces
  obtain ⟨result, after, hrun⟩ := hruns.mpr fits
  exact ⟨hasOwnPlaces, fits, result, after, hrun, hown result after hrun⟩

open TwoDoors in
/-- Places of their own are not enough: the name of a document may be too long. -/
theorem not_forall_runs_of_hasOwnPlaces :
    ¬ ∀ (plan : Plan) (directory source : Path) (before : Session) (lines : List String)
      (made : FileTree), HasOwnPlaces plan directory source before lines made →
        ∃ result after, Runs (processSource plan source) before result after := by
  intro hall
  exact not_fits_longSource
    (hasOwnPlaces_longSource.runs_iff.mp (hall _ _ _ _ _ _ hasOwnPlaces_longSource))

end FlowAtlas
