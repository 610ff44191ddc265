import Mathlib.Data.List.Nodup
import FlowAtlas.Proofs.Batch.Course
import FlowAtlas.Proofs.Batch.Drawings

/-!
# Where images lie

An image lies beside its document, under the document's title with the format of images for a
suffix.  The format is any text.  If it cannot be a suffix, the first document stops the run; if it
ends like a document, an image can take the place of one.  And the document `.dot` keeps the whole
of its name for a title, so it shares its image with the document `.dot.dot`.

Main facts: `Path.imageOf_inj` (which documents share an image), `Path.mem_of_imageOf` (which images
are documents) and `images_apart_iff`.
-/

namespace FlowAtlas

open Job

/-! ## Titles -/

namespace Path

/-- A name beside the last one of a path. -/
def beside (p : Path) (name : String) : Path := { p with names := p.names.dropLast ++ [name] }

/-- What an image is called that lies beside the document of a title.  A dot at the start of a name
starts no suffix, so the document without a title lends its whole name. -/
def imageTitle (title : String) : String := if title = "" then ".dot" else title

variable {p q : Path} {title title' format : String}

theorem beside_entry (p : Path) (name other : String) :
    (p.entry name).beside other = p.entry other := by
  simp [entry, beside]

theorem entry_inj {name name' : String} : p.entry name = q.entry name' ↔ p = q ∧ name = name' := by
  cases p
  cases q
  simp [entry, and_assoc]

theorem splitName_append_dot (title : String) :
    (splitName (title ++ ".dot")).1 = imageTitle title := by
  have hback : (title ++ ".dot").toList.reverse =
      't' :: 'o' :: 'd' :: '.' :: title.toList.reverse := by
    simp
  unfold splitName imageTitle
  rw [hback]
  by_cases htitle : title = ""
  · subst htitle
    rfl
  · have hne : title.toList.reverse.isEmpty = false := by simpa using htitle
    simp [hne, htitle]

theorem stem_entry_document (p : Path) (title : String) :
    (p.entry (title ++ ".dot")).stem = imageTitle title := by
  unfold stem
  rw [name_entry, splitName_append_dot]

/-- Every document has a title, and a directory that it lies in. -/
theorem exists_title (directory : Path) (name : String) :
    ∃ (parent : Path) (title : String),
      SourceRun.documentPath directory name = parent.entry (title ++ ".dot") := by
  obtain ⟨names, last, htext⟩ := ofText_append name
  have hlast : String.ofList (last ++ ".dot".toList) = String.ofList last ++ ".dot" := by
    rw [String.ofList_append, String.ofList_toList]
  have hnames : (ofText (name ++ ".dot")).names =
      names.map String.ofList ++ [String.ofList last ++ ".dot"] := by
    rw [htext Scope.continues_dot, ← hlast]
    simp
  unfold SourceRun.documentPath child join
  split
  · refine ⟨⟨directory.anchor, directory.names ++ names.map String.ofList⟩, String.ofList last, ?_⟩
    rw [hnames, entry, List.append_assoc]
  · refine ⟨⟨(ofText (name ++ ".dot")).anchor, names.map String.ofList⟩, String.ofList last, ?_⟩
    rw [entry, ← hnames]

theorem imageOf_eq_beside (format : String) (p : Path) :
    Drawing.imageOf format p = p.beside (p.stem ++ ("." ++ format)) := rfl

theorem imageOf_entry (p : Path) (title format : String) :
    Drawing.imageOf format (p.entry (title ++ ".dot")) =
      p.entry (imageTitle title ++ ("." ++ format)) := by
  rw [imageOf_eq_beside, stem_entry_document, beside_entry]

/-! ## Shared images -/

theorem imageTitle_inj :
    imageTitle title = imageTitle title' ↔
      title = title' ∨ (title = "" ∧ title' = ".dot") ∨ (title = ".dot" ∧ title' = "") := by
  unfold imageTitle
  by_cases h : title = "" <;> by_cases h' : title' = ""
  · simp [h, h']
  · simp [h, h', Ne.symm h', @eq_comm _ ".dot" title']
  · simp [h, h']
  · simp [h, h']

/-- **Two documents share an image only if they are the documents `.dot` and `.dot.dot` of one
directory.** -/
theorem imageOf_inj :
    Drawing.imageOf format (p.entry (title ++ ".dot")) =
        Drawing.imageOf format (q.entry (title' ++ ".dot")) ↔
      p.entry (title ++ ".dot") = q.entry (title' ++ ".dot") ∨
        p = q ∧ ((title = "" ∧ title' = ".dot") ∨ (title = ".dot" ∧ title' = "")) := by
  rw [imageOf_entry, imageOf_entry, entry_inj, entry_inj, String.append_left_inj,
    String.append_left_inj, imageTitle_inj]
  tauto

/-- The documents are named as documents are. -/
def AreTitled (documents : List Path) : Prop :=
  ∀ document ∈ documents, ∃ (parent : Path) (title : String),
    document = parent.entry (title ++ ".dot")

theorem nodup_images_iff {documents : List Path} (htitled : AreTitled documents)
    (hnodup : documents.Nodup) (format : String) :
    (documents.map (Drawing.imageOf format)).Nodup ↔
      ∀ parent : Path,
        ¬ (parent.entry ".dot" ∈ documents ∧ parent.entry ".dot.dot" ∈ documents) := by
  rw [List.nodup_map_iff_inj_on hnodup]
  constructor
  · rintro hinj parent ⟨hfirst, hsecond⟩
    have hshared : Drawing.imageOf format (parent.entry ("" ++ ".dot")) =
        Drawing.imageOf format (parent.entry (".dot" ++ ".dot")) :=
      imageOf_inj.mpr (Or.inr ⟨rfl, Or.inl ⟨rfl, rfl⟩⟩)
    have hsame := (entry_inj.mp (hinj _ hfirst _ hsecond hshared)).2
    exact absurd hsame (by decide)
  · intro hapart document hdocument other hother hshared
    obtain ⟨p, title, rfl⟩ := htitled document hdocument
    obtain ⟨q, title', rfl⟩ := htitled other hother
    rcases imageOf_inj.mp hshared with hsame | ⟨rfl, ⟨rfl, rfl⟩ | ⟨rfl, rfl⟩⟩
    · exact hsame
    · exact absurd ⟨hdocument, hother⟩ (hapart p)
    · exact absurd ⟨hother, hdocument⟩ (hapart p)

/-! ## Images that are documents -/

/-- A name that goes on with a dot and the format ends like a document only if the format does. -/
theorem format_of_append_eq {front : String} (h : front ++ ("." ++ format) = title ++ ".dot") :
    format = "dot" ∨ ∃ middle, format = middle ++ ".dot" := by
  have hlists : front.toList ++ '.' :: format.toList = title.toList ++ ['.', 'd', 'o', 't'] := by
    simpa using congrArg String.toList h
  rcases List.append_eq_append_iff.mp hlists with ⟨rest, -, hrest⟩ | ⟨rest, -, hrest⟩
  · cases rest with
    | nil =>
      refine Or.inl (String.toList_inj.mp ?_)
      exact (List.cons.inj hrest).2
    | cons c rest =>
      refine Or.inr ⟨String.ofList rest, String.toList_inj.mp ?_⟩
      rw [(List.cons.inj hrest).2]
      simp
  · cases rest with
    | nil =>
      refine Or.inl (String.toList_inj.mp ?_)
      exact (List.cons.inj hrest).2.symm
    | cons c rest =>
      have hdot : '.' ∈ ['d', 'o', 't'] := by
        rw [(List.cons.inj hrest).2]
        simp
      exact absurd hdot (by decide)

/-- **No image takes the place of a document exactly if the format does not make one of it**: under
the format `dot` there are no documents with a title, and under a format that ends in `.dot` no
document is called like an image. -/
theorem disjoint_images_iff {documents : List Path} (htitled : AreTitled documents)
    (format : String) :
    (∀ document ∈ documents, Drawing.imageOf format document ∉ documents) ↔
      (format = "dot" → ∀ document ∈ documents, document.name = ".dot") ∧
        ∀ front, format = front ++ ".dot" → ∀ document ∈ documents,
          document.beside (document.stem ++ "." ++ front ++ ".dot") ∉ documents := by
  constructor
  · refine fun hapart => ⟨?_, ?_⟩
    · rintro rfl document hdocument
      obtain ⟨p, title, rfl⟩ := htitled document hdocument
      by_cases htitle : title = ""
      · rw [htitle, name_entry]
        rfl
      · have himage : Drawing.imageOf "dot" (p.entry (title ++ ".dot")) =
            p.entry (title ++ ".dot") := by
          rw [imageOf_entry, imageTitle, if_neg htitle]
          rfl
        exact absurd hdocument (himage ▸ hapart _ hdocument)
    · rintro front rfl document hdocument
      have hname : document.stem ++ "." ++ front ++ ".dot" =
          document.stem ++ ("." ++ (front ++ ".dot")) := by
        simp only [String.append_assoc]
      rw [hname, ← imageOf_eq_beside]
      exact hapart document hdocument
  · rintro ⟨hdot, hfront⟩ document hdocument himage
    obtain ⟨q, title', heq⟩ := htitled _ himage
    obtain ⟨p, title, rfl⟩ := htitled document hdocument
    rw [imageOf_entry] at heq himage
    obtain ⟨rfl, hname⟩ := entry_inj.mp heq
    rcases format_of_append_eq hname with rfl | ⟨middle, rfl⟩
    · have htitle : title = "" := by
        have hname := hdot rfl _ hdocument
        rw [name_entry] at hname
        exact (String.append_left_inj ".dot").mp (hname.trans String.empty_append.symm)
      have hown := hdot rfl _ himage
      rw [name_entry, htitle] at hown
      exact absurd hown (by decide)
    · have hbeside := hfront middle rfl _ hdocument
      rw [stem_entry_document, beside_entry] at hbeside
      simp only [String.append_assoc] at hbeside
      exact hbeside himage

end Path

/-- Under the format of documents an image is its document, and under any other the two documents
without a title proper share their image. -/
example :
    Drawing.imageOf "dot" ⟨.here, ["out", "m.dot"]⟩ = ⟨.here, ["out", "m.dot"]⟩ ∧
      Drawing.imageOf "png" ⟨.here, [".dot"]⟩ = Drawing.imageOf "png" ⟨.here, [".dot.dot"]⟩ := by
  decide

/-! ## Formats that cannot be a suffix -/

namespace Drawing

/-- The format can be a suffix: it is neither empty nor a path. -/
def IsFormat (format : String) : Prop := format ≠ "" ∧ '/' ∉ format.toList

instance (format : String) : Decidable (IsFormat format) := inferInstanceAs (Decidable (_ ∧ _))

theorem isSuffix_iff {format : String} :
    Path.isSuffix ("." ++ format) = true ↔ IsFormat format := by
  have hdot : "." ++ format = "." ↔ format = "" := by
    rw [← String.toList_inj, ← String.toList_inj, String.toList_append]
    simp
  unfold Path.isSuffix IsFormat
  simp [hdot, and_comm]

/-- Such a format stops a row at its first document, and nothing is called. -/
theorem makeAll_of_not_isSuffix {style : Style} (h : ¬ IsFormat style.format) (renderer : Renderer)
    (document : Path) (rest : List Path) :
    makeAll style renderer (document :: rest) =
      pure (.error (.invalid ("." ++ style.format)), renderer) := by
  have hsuffix : Path.isSuffix ("." ++ style.format) = false := by
    rw [← isSuffix_iff] at h
    simpa using h
  have herror : document.withSuffix ("." ++ style.format) =
      .error (.invalid ("." ++ style.format)) := by
    unfold Path.withSuffix
    rw [hsuffix]
    rfl
  rw [makeAll, herror]

end Drawing

/-- The cause is that a document has no path for its image. -/
def Stop.IsSuffix (stop : Stop) : Prop := ∃ e, stop = .suffix e

namespace SourceRun

variable {plan : Plan} {run : SourceRun}

/-- Stops for any cause but the suffix of an image. -/
abbrev StopsElsewhere {α : Type} (job : Job α) : Prop := StopsOnly (fun stop => ¬ stop.IsSuffix) job

theorem stopsElsewhere_orStop {ε α : Type} {stop : ε → Stop} (h : ∀ e, ¬ (stop e).IsSuffix)
    (result : Except ε α) : StopsElsewhere (orStop stop result) :=
  stopsOnly_orStop fun e _ => h e

theorem not_isSuffix_file (e : FileError) : ¬ (Stop.file e).IsSuffix := by
  rintro ⟨_, h⟩
  cases h

theorem stopsElsewhere_ingest (run : SourceRun) : StopsElsewhere run.ingest := by
  have hgraph : ∀ scope, StopsElsewhere (graphOf scope) := fun scope =>
    (stopsOnly_logged _).bind fun _ _ _ _ =>
      (stopsElsewhere_orStop (by rintro e ⟨_, h⟩; cases h) _).bind fun _ _ _ _ => stopsOnly_pure _
  unfold ingest
  refine (stopsOnly_logged _).bind fun _ _ _ _ => stopsOnly_get.bind fun _ _ _ _ => ?_
  refine (stopsElsewhere_orStop not_isSuffix_file _).bind fun _ _ _ _ => ?_
  refine (stopsOnly_logged _).bind fun _ _ _ _ => ?_
  exact (stopsOnly_mapM fun scope _ => hgraph scope).bind fun _ _ _ _ => stopsOnly_pure _

theorem stopsElsewhere_exportAll (plan : Plan) (run : SourceRun) :
    StopsElsewhere (run.exportAll plan) := by
  have htree : ∀ change, StopsElsewhere (onTree change) :=
    fun change => stopsOnly_onTree fun _ e _ _ => not_isSuffix_file e
  have hexport : ∀ scope graph, StopsElsewhere (exportGraph plan run.source scope graph) := by
    intro scope graph
    refine stopsOnly_get.bind fun _ _ _ _ => (stopsOnly_logged _).bind fun _ _ _ _ => ?_
    refine (stopsOnly_modify _).bind fun _ _ _ _ => ?_
    have hdirectory : ∀ e, plan.directory.elim (Except.error Stop.noDirectory) Except.ok =
        .error e → ¬ e.IsSuffix := by
      rintro e he ⟨_, rfl⟩
      cases hplan : plan.directory <;> rw [hplan] at he <;> cases he
    refine (stopsOnly_orStop hdirectory).bind fun _ _ _ _ => StopsOnly.bind ?_ fun _ _ _ _ => ?_
    · refine (htree _).bind fun _ _ _ _ => (stopsOnly_logged _).bind fun _ _ _ _ => ?_
      exact (htree _).bind fun _ _ _ _ => stopsOnly_pure _
    · exact stopsOnly_pure _
  unfold exportAll
  refine (stopsOnly_mapM fun g _ => hexport g.1 g.2).bind fun _ _ _ _ => ?_
  exact stopsOnly_get.bind fun _ _ _ _ => (stopsOnly_logged _).bind fun _ _ _ _ => stopsOnly_pure _

/-- The drawing stage runs to its end exactly if there is nothing to draw or the format can be a
suffix. -/
theorem exists_rendering_iff (hnames : ∀ path ∈ run.exports.map Prod.fst, path.name ≠ "")
    (renderer : Renderer) :
    (∃ drawings, (rendering plan run renderer).value.1 = .ok drawings) ↔
      run.exports = [] ∨ Drawing.IsFormat plan.settings.format := by
  constructor
  · rintro ⟨drawings, hmade⟩
    by_contra hnot
    rw [not_or] at hnot
    obtain ⟨e, rest, hexports⟩ := List.exists_cons_of_ne_nil hnot.1
    unfold rendering at hmade
    rw [hexports, List.map_cons, Drawing.makeAll_of_not_isSuffix hnot.2] at hmade
    cases hmade
  · rintro (hnone | ⟨hformat, hslash⟩)
    · refine ⟨[], ?_⟩
      unfold rendering
      rw [hnone]
      rfl
    · exact Drawing.exists_ok_makeAll hformat hslash hnames renderer

/-- Where the drawing stage stops, it has done nothing. -/
theorem run_draw_of_not_isSuffix (hrender : plan.render = true)
    (hformat : ¬ Drawing.IsFormat plan.settings.format)
    (hexports : run.exports ≠ []) (before : Session) :
    (run.draw plan).run.run before =
      (.error (.suffix (.invalid ("." ++ plan.settings.format))), before) := by
  obtain ⟨e, rest, hcons⟩ := List.exists_cons_of_ne_nil hexports
  unfold draw
  rw [if_pos hrender, hcons, List.map_cons, run_bind_of_runs (runs_get.mpr ⟨rfl, rfl⟩),
    Drawing.makeAll_of_not_isSuffix hformat]
  show (Except.error _, { before with log := before.log ++ [] }) = _
  rw [List.append_nil]
  rfl

theorem stopsElsewhere_draw (hrender : plan.render = true)
    (hformat : Drawing.IsFormat plan.settings.format)
    (hnames : ∀ path ∈ run.exports.map Prod.fst, path.name ≠ "") :
    StopsElsewhere (run.draw plan) := by
  unfold draw
  rw [if_pos hrender]
  refine stopsOnly_get.bind fun s _ _ _ => (stopsOnly_logged _).bind fun made _ _ hmade => ?_
  obtain ⟨rfl, -⟩ := runs_logged.mp hmade
  refine (stopsOnly_modify _).bind fun _ _ _ _ => ?_
  obtain ⟨drawings, hok⟩ := (exists_rendering_iff hnames s.renderer).mpr (Or.inr hformat)
  refine (stopsOnly_orStop fun e he => ?_).bind fun _ _ _ _ => stopsOnly_pure _
  cases hok.symm.trans he

end SourceRun

/-! ## Batches -/

open SourceRun

section Batches

variable {plan : Plan}

theorem name_ne_of_documents {run : SourceRun} {source : Path} {labeller : Labeller}
    {documents : List Document} (hpaths : documents.map Document.path = run.exports.map Prod.fst)
    (hdocuments : ∀ d ∈ documents, SourceRun.IsDocument plan source labeller d) :
    ∀ path ∈ run.exports.map Prod.fst, path.name ≠ "" := by
  intro path hpath
  rw [← hpaths] at hpath
  obtain ⟨d, hd, rfl⟩ := List.mem_map.mp hpath
  obtain ⟨directory, -, hdpath⟩ := (hdocuments d hd).path
  rw [hdpath]
  exact name_documentPath_ne directory _

/-- A source has scopes, so under such a format none is processed. -/
theorem not_runs_processSource (hrender : plan.render = true)
    (hformat : ¬ Drawing.IsFormat plan.settings.format) {source : Path}
    {before after : Session} {result : SourceResult} :
    ¬ Runs (processSource plan source) before result after := by
  intro h
  rw [processSource_eq] at h
  simp only [runs_bind] at h
  obtain ⟨_, _, -, read, _, hread, _, _, -, wrote, _, hwrote, _, _, -, drew, _, hdraw, -⟩ := h
  obtain ⟨lines, -, -, hscopes, -⟩ := runs_ingest hread
  obtain ⟨documents, -, hpairs, hpaths, hdocuments⟩ := runs_exportAll hwrote
  have hexports : wrote.exports ≠ [] := by
    obtain ⟨closed, last, hlast, -⟩ := exists_closed_trailing lines
    have hgraphs : read.graphs ≠ [] := by
      rintro hnone
      rw [hnone, hlast] at hscopes
      simp at hscopes
    intro hnone
    rw [hnone, List.map_nil, List.map_eq_nil_iff] at hpaths
    rw [hpaths] at hpairs
    exact hgraphs hpairs.symm
  have hstop := run_draw_of_not_isSuffix hrender hformat hexports
  unfold Runs at hdraw
  rw [hstop] at hdraw
  cases hdraw

theorem stopsElsewhere_processSource (hrender : plan.render = true)
    (hformat : Drawing.IsFormat plan.settings.format) (source : Path) :
    StopsElsewhere (processSource plan source) := by
  rw [processSource_eq]
  refine (stopsOnly_logged _).bind fun _ _ _ _ => ?_
  refine (stopsElsewhere_ingest _).bind fun read _ _ _ => ?_
  refine (stopsOnly_logged _).bind fun _ _ _ _ => ?_
  refine (stopsElsewhere_exportAll plan read).bind fun wrote _ _ hwrote => ?_
  obtain ⟨documents, -, -, hpaths, hdocuments⟩ := runs_exportAll hwrote
  refine (stopsOnly_logged _).bind fun _ _ _ _ => ?_
  refine (stopsElsewhere_draw hrender hformat
    (name_ne_of_documents hpaths hdocuments)).bind fun _ _ _ _ => ?_
  exact (stopsOnly_logged _).bind fun _ _ _ _ => stopsOnly_pure _

/-- Catching a failure adds no cause to stop. -/
theorem stopsOnly_attempt {α : Type} {P : Stop → Prop} {job : Job α} (h : StopsOnly P job) :
    StopsOnly P (attempt job) := by
  intro before stop after hrun
  rw [run_attempt] at hrun
  split at hrun
  · cases hrun
  · cases hrun
  · rename_i cause middle hcause hjob
    cases hrun
    exact h before _ _ hjob

/-- A batch stops for what it does not catch. -/
theorem stopsOnly_runSources_of_attempt {P : Stop → Prop}
    (h : ∀ source, StopsOnly P (attempt (processSource plan source)))
    (claims : OrderedMap String Path) (sources : List Path) :
    StopsOnly P (runSources plan claims sources) := by
  induction sources generalizing claims with
  | nil => exact stopsOnly_pure _
  | cons source rest ih =>
    have hclaimed : ∀ owner, StopsOnly P (processClaimed plan owner source) := by
      intro owner
      unfold processClaimed
      split
      · exact (stopsOnly_logged _).bind fun _ _ _ _ => stopsOnly_pure _
      · refine (h source).bind fun outcome _ _ _ => ?_
        cases outcome with
        | ok result => exact stopsOnly_pure _
        | error e => exact (stopsOnly_logged _).bind fun _ _ _ _ => stopsOnly_pure _
    unfold runSources
    refine (hclaimed _).bind fun outcome _ _ _ => (ih _).bind fun later _ _ _ => ?_
    cases outcome with
    | ok result => exact stopsOnly_pure _
    | error failure => exact stopsOnly_pure _

theorem stopsOnly_runSources {P : Stop → Prop}
    (h : ∀ source, StopsOnly P (processSource plan source)) (claims : OrderedMap String Path)
    (sources : List Path) : StopsOnly P (runSources plan claims sources) :=
  stopsOnly_runSources_of_attempt (fun source => stopsOnly_attempt (h source)) claims sources

end Batches

/-- **Images lie apart from each other and from the documents exactly as the titles and the format
let them.**  The stage that makes them runs to its end exactly if the format can be a suffix, or if
there is nothing to draw.  It then asks for one image beside each document.  These are distinct
unless the documents `.dot` and `.dot.dot` lie in one directory; they take the place of no document
unless the format is `dot` and a document has a title, or the format ends in `.dot` and a document
is called like an image.  A format that can be a suffix stops no batch; under any other no source
at all is processed. -/
theorem images_apart_iff {plan : Plan} (hrender : plan.render = true) {run : SourceRun}
    (hexports : ∀ e ∈ run.exports, ∃ directory name, e.1 = documentPath directory name)
    (hnodup : (run.exports.map Prod.fst).Nodup) :
    (∀ before, (∃ next after, Runs (run.draw plan) before next after) ↔
        run.exports = [] ∨ Drawing.IsFormat plan.settings.format) ∧
      (∀ before next after, Runs (run.draw plan) before next after →
        after.renderer.calls =
            before.renderer.calls ++ next.drawings.map (callOf plan.settings) ∧
          next.drawings.map Drawing.document = run.exports.map Prod.fst ∧
          ((next.drawings.map Drawing.image).Nodup ↔ ∀ parent : Path,
            ¬ (parent.entry ".dot" ∈ run.exports.map Prod.fst ∧
              parent.entry ".dot.dot" ∈ run.exports.map Prod.fst)) ∧
          ((∀ image ∈ next.drawings.map Drawing.image, image ∉ run.exports.map Prod.fst) ↔
            (plan.settings.format = "dot" →
                ∀ document ∈ run.exports.map Prod.fst, document.name = ".dot") ∧
              ∀ front, plan.settings.format = front ++ ".dot" →
                ∀ document ∈ run.exports.map Prod.fst,
                  document.beside (document.stem ++ "." ++ front ++ ".dot") ∉
                    run.exports.map Prod.fst)) ∧
      (Drawing.IsFormat plan.settings.format → ∀ sources before stop after,
        (runBatch plan sources).run.run before = (.error stop, after) → ¬ stop.IsSuffix) ∧
      (¬ Drawing.IsFormat plan.settings.format → ∀ source before result after,
        ¬ Runs (processSource plan source) before result after) := by
  have hdocuments : ∀ path ∈ run.exports.map Prod.fst,
      ∃ directory name, path = documentPath directory name := List.forall_mem_map.mpr hexports
  have hnames : ∀ path ∈ run.exports.map Prod.fst, path.name ≠ "" := by
    intro path hpath
    obtain ⟨directory, name, rfl⟩ := hdocuments path hpath
    exact name_documentPath_ne directory name
  have htitled : Path.AreTitled (run.exports.map Prod.fst) := by
    intro path hpath
    obtain ⟨directory, name, rfl⟩ := hdocuments path hpath
    exact Path.exists_title directory name
  refine ⟨fun before => ?_, fun before next after h => ?_, fun hformat sources => ?_,
    fun hformat _ _ _ _ => not_runs_processSource hrender hformat⟩
  · rw [← exists_rendering_iff hnames before.renderer]
    constructor
    · rintro ⟨next, after, h⟩
      obtain ⟨drawings, hmade, -⟩ := (runs_draw_iff hrender).mp h
      exact ⟨drawings, hmade⟩
    · rintro ⟨drawings, hmade⟩
      exact ⟨_, _, (runs_draw_iff hrender).mpr ⟨drawings, hmade, rfl, rfl⟩⟩
  · obtain ⟨drawings, hmade, rfl, rfl⟩ := (runs_draw_iff hrender).mp h
    obtain ⟨hdrawings, hcalls⟩ := Drawing.of_makeAll hmade
    have himages : drawings.map Drawing.image =
        (run.exports.map Prod.fst).map (Drawing.imageOf plan.settings.format) := by
      rw [hdrawings]
      exact Drawing.map_drawingsOf (fun _ _ => rfl) _ _
    refine ⟨?_, ?_, ?_, ?_⟩
    · rw [hdrawings, map_callOf_drawingsOf]
      exact hcalls
    · rw [hdrawings]
      exact Drawing.map_document_drawingsOf _ _ _
    · rw [himages]
      exact Path.nodup_images_iff htitled hnodup plan.settings.format
    · rw [himages, List.forall_mem_map]
      exact Path.disjoint_images_iff htitled plan.settings.format
  · exact stopsOnly_runSources (stopsElsewhere_processSource hrender hformat) .empty sources

/-! ## Documents without a title, and a format without letters -/

namespace Untitled

def plan : Plan := ⟨.standard, true, some ⟨.here, ["out"]⟩⟩

/-- Accepted settings whose format is empty. -/
def blankSettings : Settings := { Settings.standard with format := "" }

def blankPlan : Plan := ⟨blankSettings, true, some ⟨.here, ["out"]⟩⟩

/-- Documents of the given names are written. -/
def runOf (names : List String) : SourceRun :=
  { SourceRun.start ⟨.here, ["m.xml"]⟩ with
    exports := names.map fun name => (documentPath ⟨.here, ["out"]⟩ name, ⟨name, 0, 0, 0, 0⟩) }

/-- A document without a title, one whose title is `.dot`, and one of a source. -/
def run : SourceRun := runOf ["", ".dot", "m"]

def session : Session :=
  .start ⟨.ofList [(["work"], .directory)], ["work"]⟩ [] .blank .standard

theorem exports_runOf (names : List String) :
    ∀ e ∈ (runOf names).exports, ∃ directory name, e.1 = documentPath directory name := by
  intro e he
  obtain ⟨name, -, rfl⟩ := List.mem_map.mp he
  exact ⟨_, name, rfl⟩

theorem nodup_run : (run.exports.map Prod.fst).Nodup := by decide +kernel

theorem mem_run :
    (⟨.here, ["out"]⟩ : Path).entry ".dot" ∈ run.exports.map Prod.fst ∧
      (⟨.here, ["out"]⟩ : Path).entry ".dot.dot" ∈ run.exports.map Prod.fst := by
  decide +kernel

theorem isFormat_plan : Drawing.IsFormat plan.settings.format := by decide

theorem check_blankSettings : blankSettings.check = .ok blankSettings := by decide +kernel

theorem not_isFormat_blankPlan : ¬ Drawing.IsFormat blankPlan.settings.format := by decide

end Untitled

open Untitled in
theorem untitled_images_apart_iff :
    plan.render = true ∧
      (∀ e ∈ run.exports, ∃ directory name, e.1 = documentPath directory name) ∧
      (run.exports.map Prod.fst).Nodup ∧
      ∃ next after, Runs (run.draw plan) session next after ∧
        ¬ (next.drawings.map Drawing.image).Nodup := by
  have happly := images_apart_iff (show plan.render = true from rfl)
    (exports_runOf ["", ".dot", "m"]) nodup_run
  obtain ⟨next, after, hruns⟩ := (happly.1 session).mpr (Or.inr isFormat_plan)
  refine ⟨rfl, exports_runOf _, nodup_run, next, after, hruns, fun hdistinct => ?_⟩
  exact (happly.2.1 session next after hruns).2.2.1.mp hdistinct ⟨.here, ["out"]⟩ mem_run

open Untitled in
/-- Settings that are accepted can have a format that stops the stage. -/
theorem not_forall_images_apart :
    ¬ ∀ (plan : Plan) (run : SourceRun) (before : Session),
      plan.settings.check = .ok plan.settings → plan.render = true →
        (∀ e ∈ run.exports, ∃ directory name, e.1 = documentPath directory name) →
          (run.exports.map Prod.fst).Nodup →
            ∃ next after, Runs (run.draw plan) before next after ∧
              (next.drawings.map Drawing.image).Nodup ∧
                ∀ image ∈ next.drawings.map Drawing.image, image ∉ run.exports.map Prod.fst := by
  intro hall
  have hdistinct : ((runOf ["m"]).exports.map Prod.fst).Nodup := List.nodup_singleton _
  obtain ⟨next, after, hruns, -⟩ := hall blankPlan (runOf ["m"]) session check_blankSettings rfl
    (exports_runOf ["m"]) hdistinct
  have hstop := run_draw_of_not_isSuffix (show blankPlan.render = true from rfl)
    not_isFormat_blankPlan (show (runOf ["m"]).exports ≠ [] from List.cons_ne_nil _ _) session
  unfold Runs at hruns
  rw [hstop] at hruns
  cases hruns

end FlowAtlas
