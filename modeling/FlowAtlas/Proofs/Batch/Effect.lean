import FlowAtlas.Proofs.Batch.Endings
import FlowAtlas.Proofs.Files.Puts
import FlowAtlas.Proofs.Label.Noted

/-!
# What a job does

A job ends somehow, puts files and notes kinds; what it does is told without the session that it
works on.  Where documents go to a directory that is there, what the export of graphs does depends on
the graphs and on the directory alone: what has been put or noted before does not show.

Main facts: `DoesAt.bind` and `doesAt_exports` (documents in order up to the first that cannot be
written).
-/

namespace FlowAtlas

open Job FileTree

/-! ## Effects -/

/-- What a job does: how it ends, the files that it puts and the kinds that it notes. -/
structure Effect (α : Type) where
  ending : Except Stop α
  files : List Put
  kinds : List String

/-- The session after files were put and kinds noted; the log is as it may be. -/
def Session.after (s : Session) (files : List Put) (kinds : List String) (log : Log) : Session :=
  { s with tree := s.tree.puts files, labeller := s.labeller.noting kinds, log }

theorem Session.after_after (s : Session) (files files' : List Put) (kinds kinds' : List String)
    (log log' : Log) :
    (s.after files kinds log).after files' kinds' log' =
      s.after (files ++ files') (kinds ++ kinds') log' := by
  unfold Session.after
  rw [puts_append, Labeller.noting_append]

/-- The job, done on the session, has the effect. -/
def DoesAt {α : Type} (job : Job α) (s : Session) (effect : Effect α) : Prop :=
  ∃ log, job.run.run s = (effect.ending, s.after effect.files effect.kinds log)

section DoesAt

variable {α β : Type} {s : Session}

theorem doesAt_pure (a : α) : DoesAt (pure a) s ⟨.ok a, [], []⟩ := ⟨s.log, rfl⟩

theorem doesAt_logged (x : Logged α) : DoesAt (logged x) s ⟨.ok x.value, [], []⟩ :=
  ⟨s.log ++ x.log, rfl⟩

theorem doesAt_modify_labeller {labeller : Labeller} {kinds : List String}
    (h : labeller = s.labeller.noting kinds) :
    DoesAt (modify fun s => { s with labeller }) s ⟨.ok ⟨⟩, [], kinds⟩ := by
  refine ⟨s.log, ?_⟩
  rw [h]
  rfl

theorem doesAt_get_bind {f : Session → Job β} {effect : Effect β} (h : DoesAt (f s) s effect) :
    DoesAt (get >>= f) s effect := h

theorem doesAt_onTree {change : FileTree → Except FileError Unit × FileTree} {files : List Put}
    (h : change s.tree = (.ok (), s.tree.puts files)) :
    DoesAt (onTree change) s ⟨.ok (), files, []⟩ := by
  refine ⟨s.log, ?_⟩
  show (orStop Stop.file (change s.tree).1).run.run { s with tree := (change s.tree).2 } = _
  rw [h]
  rfl

theorem doesAt_onTree_error {change : FileTree → Except FileError Unit × FileTree} {e : FileError}
    (h : change s.tree = (.error e, s.tree)) :
    DoesAt (onTree change) s ⟨.error (.file e), [], []⟩ := by
  refine ⟨s.log, ?_⟩
  show (orStop Stop.file (change s.tree).1).run.run { s with tree := (change s.tree).2 } = _
  rw [h]
  rfl

/-- What comes behind a job is done where that one has left the session. -/
theorem DoesAt.bind {x : Job α} {f : α → Job β} {a : α} {ending : Except Stop β}
    {files files' : List Put} {kinds kinds' : List String}
    (hx : DoesAt x s ⟨.ok a, files, kinds⟩)
    (hf : ∀ log, DoesAt (f a) (s.after files kinds log) ⟨ending, files', kinds'⟩) :
    DoesAt (x >>= f) s ⟨ending, files ++ files', kinds ++ kinds'⟩ := by
  obtain ⟨log, hx⟩ := hx
  obtain ⟨log', hf⟩ := hf log
  refine ⟨log', ?_⟩
  rw [run_bind_of_runs hx, hf, Session.after_after]

/-- Behind a job that does nothing. -/
theorem DoesAt.idle_bind {x : Job α} {f : α → Job β} {a : α} {effect : Effect β}
    (hx : DoesAt x s ⟨.ok a, [], []⟩)
    (hf : ∀ log, DoesAt (f a) (s.after [] [] log) effect) : DoesAt (x >>= f) s effect :=
  hx.bind hf

/-- Before a job that does nothing. -/
theorem DoesAt.bind_idle {x : Job α} {f : α → Job β} {a : α} {ending : Except Stop β}
    {files : List Put} {kinds : List String} (hx : DoesAt x s ⟨.ok a, files, kinds⟩)
    (hf : ∀ log, DoesAt (f a) (s.after files kinds log) ⟨ending, [], []⟩) :
    DoesAt (x >>= f) s ⟨ending, files, kinds⟩ := by
  have hboth := hx.bind hf
  rwa [List.append_nil, List.append_nil] at hboth

/-- Behind a job that only notes kinds, before one that notes none. -/
theorem DoesAt.noting_bind {x : Job α} {f : α → Job β} {a : α} {ending : Except Stop β}
    {files : List Put} {kinds : List String} (hx : DoesAt x s ⟨.ok a, [], kinds⟩)
    (hf : ∀ log, DoesAt (f a) (s.after [] kinds log) ⟨ending, files, []⟩) :
    DoesAt (x >>= f) s ⟨ending, files, kinds⟩ := by
  have hboth := hx.bind hf
  rwa [List.append_nil] at hboth

theorem DoesAt.bind_error {x : Job α} {f : α → Job β} {stop : Stop} {files : List Put}
    {kinds : List String} (hx : DoesAt x s ⟨.error stop, files, kinds⟩) :
    DoesAt (x >>= f) s ⟨.error stop, files, kinds⟩ := by
  obtain ⟨log, hx⟩ := hx
  exact ⟨log, run_bind_of_stop hx⟩

theorem DoesAt.bind_pure {x : Job α} {effect : Effect α} (hx : DoesAt x s effect) (f : α → β) :
    DoesAt (x >>= fun a => pure (f a)) s
      ⟨effect.ending.map f, effect.files, effect.kinds⟩ := by
  obtain ⟨ending, files, kinds⟩ := effect
  cases ending with
  | error stop => exact hx.bind_error
  | ok a => exact hx.bind_idle fun _ => doesAt_pure (f a)

end DoesAt

/-! ## Settings in which sources work -/

/-- The directory of all documents, where it lies, which names in it are taken by directories, and a
labeller. -/
structure Ground where
  directory : Path
  place : Location
  occupied : String → Bool
  labeller : Labeller

namespace Ground

/-- The session has the directory, and its labeller has only noted kinds. -/
structure Holds (ground : Ground) (s : Session) : Prop where
  leads : LeadsTo s.tree ground.directory ground.place
  occupied : ∀ name,
    ground.occupied name = true ↔ s.tree.entryAt (ground.place ++ [name]) = some .directory
  labeller : ∃ kinds, s.labeller = ground.labeller.noting kinds

/-- The files lie in the directory, under names that no directory has. -/
def Allows (ground : Ground) (files : List Put) : Prop :=
  ∀ file ∈ files, ∃ name, file.1 = ground.place ++ [name] ∧ ground.occupied name = false

/-- Why a name cannot be written, if it cannot. -/
def fault? (ground : Ground) (name : String) : Option FileError :=
  entryFault? ground.directory name (ground.occupied name)

variable {ground : Ground} {s : Session} {files : List Put}

theorem Allows.append {more : List Put} (h : ground.Allows files) (h' : ground.Allows more) :
    ground.Allows (files ++ more) := by
  intro file hfile
  rcases List.mem_append.mp hfile with hfile | hfile
  · exact h file hfile
  · exact h' file hfile

theorem Holds.entryAt_ne (h : ground.Holds s) (hfiles : ground.Allows files) :
    ∀ file ∈ files, s.tree.entryAt file.1 ≠ some .directory := by
  intro file hfile
  obtain ⟨name, hat, hfree⟩ := hfiles file hfile
  rw [hat, ne_eq, ← h.occupied, hfree]
  exact Bool.false_ne_true

/-- A name is written in the directory unless there is a fault. -/
theorem Holds.write_entry (h : ground.Holds s) {name : String} (hname : name ≠ "..")
    (content : List UInt8) :
    s.tree.write (ground.directory.entry name) content =
      match ground.fault? name with
      | some error => (.error error, s.tree)
      | none => (.ok (), s.tree.set (ground.place ++ [name]) (.file content)) :=
  h.leads.write_entry hname (h.occupied name) content

theorem Holds.after (h : ground.Holds s) (hfiles : ground.Allows files) (kinds : List String)
    (log : Log) : ground.Holds (s.after files kinds log) := by
  have hne := h.entryAt_ne hfiles
  obtain ⟨noted, hnoted⟩ := h.labeller
  refine ⟨h.leads.puts hne, fun name => ?_, noted ++ kinds, ?_⟩
  · exact (h.occupied name).trans (directory_puts_iff hne).symm
  · show s.labeller.noting kinds = _
    rw [hnoted, Labeller.noting_append]

end Ground

/-! ## Documents -/

section Exports

variable {plan : Plan} {ground : Ground} {source : Path} {s : Session}

/-- The name of a scope's document. -/
def fileName (source : Path) (scope : Scope) : String := source.stem ++ scope.ending

/-- The text of a graph's document. -/
def documentText (plan : Plan) (ground : Ground) (graph : FlowGraph) : String :=
  (Dot.serialize graph plan.settings.yScale ground.labeller).value.1

/-- What exporting graphs does: their documents are written up to the first that cannot be, and the
kinds of this one are noted too. -/
def exportEffect (plan : Plan) (ground : Ground) (source : Path) :
    List (Scope × FlowGraph) → Effect (List (Path × Export))
  | [] => ⟨.ok [], [], []⟩
  | g :: rest =>
    let kinds := Dot.strayKinds ground.labeller.book g.2
    match ground.fault? (fileName source g.1) with
    | some error => ⟨.error (.file error), [], kinds⟩
    | none =>
      let later := exportEffect plan ground source rest
      ⟨later.ending.map
          ((ground.directory.entry (fileName source g.1), SourceRun.exportOf source g.1 g.2) :: ·),
        (ground.place ++ [fileName source g.1],
          Text.Utf8.encode (documentText plan ground g.2).toList) :: later.files,
        kinds ++ later.kinds⟩

/-- The names before the first that cannot be written. -/
def Ground.writable (ground : Ground) (names : List String) : List String :=
  names.takeWhile fun name => (ground.fault? name).isNone

/-- The files of an export lie under the names that can be written. -/
theorem map_fst_exportEffect (graphs : List (Scope × FlowGraph)) :
    (exportEffect plan ground source graphs).files.map Prod.fst =
      (ground.writable (graphs.map fun g => fileName source g.1)).map
        fun name => ground.place ++ [name] := by
  induction graphs with
  | nil => rfl
  | cons g rest ih =>
    unfold exportEffect Ground.writable
    rw [List.map_cons, List.takeWhile_cons]
    cases hfault : ground.fault? (fileName source g.1) with
    | some error => rfl
    | none => exact congrArg (_ :: ·) ih

/-- An export that comes to its end has the paths of its files. -/
theorem paths_exportEffect {graphs : List (Scope × FlowGraph)} {done : List (Path × Export)}
    (h : (exportEffect plan ground source graphs).ending = .ok done) :
    done.map Prod.fst =
      (ground.writable (graphs.map fun g => fileName source g.1)).map ground.directory.entry := by
  induction graphs generalizing done with
  | nil =>
    cases h
    rfl
  | cons g rest ih =>
    unfold exportEffect at h
    unfold Ground.writable
    rw [List.map_cons, List.takeWhile_cons]
    cases hfault : ground.fault? (fileName source g.1) with
    | some error =>
      rw [hfault] at h
      cases h
    | none =>
      rw [hfault] at h
      dsimp only at h
      cases hlater : (exportEffect plan ground source rest).ending with
      | error stop =>
        rw [hlater] at h
        cases h
      | ok later =>
        rw [hlater] at h
        cases h
        exact congrArg (_ :: ·) (ih hlater)

theorem allows_nil : ground.Allows [] := fun file hfile => by cases hfile

theorem allows_of_fault {name : String} (h : ground.fault? name = none) (content : List UInt8) :
    ground.Allows [(ground.place ++ [name], content)] := by
  intro file hfile
  rw [List.mem_singleton.mp hfile]
  refine ⟨name, rfl, ?_⟩
  unfold Ground.fault? entryFault? at h
  split_ifs at h with hnul hlong hoccupied
  exact Bool.eq_false_iff.mpr hoccupied

theorem allows_exportEffect (graphs : List (Scope × FlowGraph)) :
    ground.Allows (exportEffect plan ground source graphs).files := by
  induction graphs with
  | nil => exact allows_nil
  | cons g rest ih =>
    unfold exportEffect
    dsimp only
    cases hfault : ground.fault? (fileName source g.1) with
    | some error => exact allows_nil
    | none => exact (allows_of_fault hfault _).append ih

/-- A document is written under its name, unless there is a fault. -/
theorem doesAt_writeDocument (h : ground.Holds s) (hnul : ground.directory.hasNul = false)
    {name file text : String}
    (hpath : SourceRun.documentPath ground.directory name = ground.directory.entry file)
    (hfile : file ≠ "..") :
    DoesAt (SourceRun.writeDocument ground.directory name text) s
      (match ground.fault? file with
        | some error => ⟨.error (.file error), [], []⟩
        | none => ⟨.ok (ground.directory.entry file),
            [(ground.place ++ [file], Text.Utf8.encode text.toList)], []⟩) := by
  have hprovide : DoesAt (onTree fun tree => tree.provideDirectories ground.directory) s
      ⟨.ok (), [], []⟩ := doesAt_onTree (h.leads.provideDirectories_eq hnul)
  unfold SourceRun.writeDocument
  refine hprovide.idle_bind fun log => (doesAt_logged _).idle_bind fun log' => ?_
  have hlater : ground.Holds ((s.after [] [] log).after [] [] log') :=
    (h.after allows_nil [] log).after allows_nil [] log'
  have hwrite := hlater.write_entry hfile (Text.Utf8.encode text.toList)
  rw [hpath]
  cases hfault : ground.fault? file with
  | some error =>
    rw [hfault] at hwrite
    exact (doesAt_onTree_error hwrite).bind_error
  | none =>
    rw [hfault] at hwrite
    have hput : DoesAt (onTree fun tree => tree.write (ground.directory.entry file)
        (Text.Utf8.encode text.toList)) ((s.after [] [] log).after [] [] log')
          ⟨.ok (), [(ground.place ++ [file], Text.Utf8.encode text.toList)], []⟩ :=
      doesAt_onTree hwrite
    exact hput.bind_idle fun _ => doesAt_pure _

/-- An export notes the kinds of its graph and then writes the document, unless there is a fault. -/
theorem doesAt_exportGraph (hdirectory : plan.directory = some ground.directory)
    (hnul : ground.directory.hasNul = false) (hs : '/' ∉ source.stem.toList) {scope : Scope}
    (hscope : '/' ∉ scope.ending.toList) (graph : FlowGraph) (h : ground.Holds s) :
    DoesAt (SourceRun.exportGraph plan source scope graph) s
      (match ground.fault? (fileName source scope) with
        | some error => ⟨.error (.file error), [], Dot.strayKinds ground.labeller.book graph⟩
        | none => ⟨.ok (ground.directory.entry (fileName source scope),
              SourceRun.exportOf source scope graph),
            [(ground.place ++ [fileName source scope],
              Text.Utf8.encode (documentText plan ground graph).toList)],
            Dot.strayKinds ground.labeller.book graph⟩) := by
  obtain ⟨kinds, hkinds⟩ := h.labeller
  have hpath : SourceRun.documentPath ground.directory (Dot.documentName source scope) =
      ground.directory.entry (fileName source scope) :=
    Scope.documentPath_eq_entry ground.directory hs hscope
  have hname : fileName source scope ≠ ".." := Scope.append_ending_ne source.stem scope
  have htext : (Dot.serialize graph plan.settings.yScale s.labeller).value.1 =
      documentText plan ground graph := by
    rw [hkinds]
    exact Dot.value_serialize_noting _ _ graph kinds
  have hnoted : (Dot.serialize graph plan.settings.yScale s.labeller).value.2 =
      s.labeller.noting (Dot.strayKinds ground.labeller.book graph) := by
    rw [Dot.value_serialize_snd, hkinds]
    rfl
  have hfound : ∀ s : Session,
      DoesAt (orStop id (plan.directory.elim (.error .noDirectory) .ok)) s
        ⟨.ok ground.directory, [], []⟩ := by
    intro s
    rw [hdirectory]
    exact doesAt_pure _
  unfold SourceRun.exportGraph
  refine doesAt_get_bind ((doesAt_logged _).idle_bind fun log => ?_)
  rcases hserialize : (Dot.serialize graph plan.settings.yScale s.labeller).value with
    ⟨text, labeller⟩
  rw [hserialize] at htext hnoted
  obtain rfl : text = documentText plan ground graph := htext
  have hmodify : DoesAt (modify fun s => { s with labeller }) (s.after [] [] log)
      ⟨.ok ⟨⟩, [], Dot.strayKinds ground.labeller.book graph⟩ := doesAt_modify_labeller hnoted
  have hwrite : ∀ log' log'', DoesAt (SourceRun.writeDocument ground.directory
      (Dot.documentName source scope) (documentText plan ground graph)) _ _ := fun log' log'' =>
    doesAt_writeDocument (((h.after allows_nil [] log).after allows_nil
      (Dot.strayKinds ground.labeller.book graph) log').after allows_nil [] log'') hnul hpath hname
  cases hfault : ground.fault? (fileName source scope) with
  | some error =>
    rw [hfault] at hwrite
    exact hmodify.noting_bind fun log' => (hfound _).idle_bind fun log'' =>
      (hwrite log' log'').bind_error
  | none =>
    rw [hfault] at hwrite
    exact hmodify.noting_bind fun log' => (hfound _).idle_bind fun log'' =>
      (hwrite log' log'').bind_idle fun _ => doesAt_pure _

/-- **Graphs are exported in order up to the first whose document cannot be written.** -/
theorem doesAt_exports (hdirectory : plan.directory = some ground.directory)
    (hnul : ground.directory.hasNul = false) (hs : '/' ∉ source.stem.toList)
    {graphs : List (Scope × FlowGraph)} (hscopes : ∀ g ∈ graphs, '/' ∉ g.1.ending.toList)
    (h : ground.Holds s) :
    DoesAt (graphs.mapM fun g => SourceRun.exportGraph plan source g.1 g.2) s
      (exportEffect plan ground source graphs) := by
  induction graphs generalizing s with
  | nil =>
    rw [List.mapM_nil]
    exact doesAt_pure []
  | cons g rest ih =>
    have hfirst := doesAt_exportGraph hdirectory hnul hs (hscopes g (List.mem_cons_self ..)) g.2 h
    rw [List.mapM_cons]
    unfold exportEffect
    dsimp only
    cases hfault : ground.fault? (fileName source g.1) with
    | some error =>
      rw [hfault] at hfirst
      exact hfirst.bind_error
    | none =>
      rw [hfault] at hfirst
      refine hfirst.bind fun log => ?_
      have hlater := ih (fun later hmem => hscopes later (List.mem_cons_of_mem _ hmem))
        (h.after (allows_of_fault hfault (Text.Utf8.encode (documentText plan ground g.2).toList))
          (Dot.strayKinds ground.labeller.book g.2) log)
      exact hlater.bind_pure _

end Exports

end FlowAtlas
