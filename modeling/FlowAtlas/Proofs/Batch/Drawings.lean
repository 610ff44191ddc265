import FlowAtlas.Proofs.Batch.Endings

/-!
# Every document is drawn

The drawing stage hands the documents to the renderer one by one.  However the calls end, the stage
goes on to its end: each document has one call and one drawing, and what a drawing tells comes from
the outcome of its own call.

Main facts: `Drawing.tells_ofOutcome` (what an outcome leaves), `Drawing.of_makeAll` (a row of
drawings is a row of calls) and `every_document_is_drawn`.
-/

namespace FlowAtlas

open Job

/-! ## Outcomes to come -/

namespace Renderer

/-- The outcome of the call behind `n` others; the last one repeats. -/
def outcomeAt (outcomes : List Outcome) (n : Nat) : Outcome :=
  (outcomes[n]?.or outcomes.getLast?).getD success

/-- The outcomes of the next calls. -/
def upcoming (outcomes : List Outcome) (calls : Nat) : List Outcome :=
  (List.range calls).map (outcomeAt outcomes)

theorem next_fst (outcomes : List Outcome) : (next outcomes).1 = outcomeAt outcomes 0 := by
  match outcomes with
  | [] => rfl
  | [_] => rfl
  | _ :: _ :: _ => rfl

/-- Behind the next call the outcomes come one earlier. -/
theorem outcomeAt_next (outcomes : List Outcome) (n : Nat) :
    outcomeAt (next outcomes).2 n = outcomeAt outcomes (n + 1) := by
  match outcomes with
  | [] => rfl
  | [outcome] =>
    cases n with
    | zero => rfl
    | succ n => rfl
  | _ :: second :: rest =>
    unfold outcomeAt
    rw [next, List.getElem?_cons_succ, List.getLast?_cons_cons]
    simp

theorem upcoming_succ (outcomes : List Outcome) (calls : Nat) :
    upcoming outcomes (calls + 1) =
      (next outcomes).1 :: upcoming (next outcomes).2 calls := by
  unfold upcoming
  rw [List.range_succ_eq_map, List.map_cons, List.map_map, next_fst]
  congr 1
  refine List.map_congr_left fun n _ => ?_
  exact (outcomeAt_next outcomes n).symm

end Renderer

/-! ## What one drawing tells -/

namespace Drawing

/-- A drawing tells how its call ended.  A failure is explained by the error output without the
blanks at its ends, cut if it is long, or by the status if there is none. -/
structure Tells (d : Drawing) (outcome : Outcome) : Prop where
  ok_iff : d.ok = true ↔ ∃ output, outcome = .exited 0 output
  explained : d.ok = false → d.detail ≠ ""
  silent : ∀ status output, outcome = .exited status output → status ≠ 0 →
    Text.stripped output = "" → d.detail = "exit status " ++ Text.signedDecimal status
  short : ∀ status output, outcome = .exited status output → status ≠ 0 →
    Text.stripped output ≠ "" → (Text.stripped output).length ≤ 240 →
      d.detail = Text.stripped output
  long : ∀ status output front back, outcome = .exited status output → status ≠ 0 →
    Text.stripped output = front ++ back → front.length = 240 → back ≠ "" →
      d.detail = front ++ "..."

theorem isSuccess_iff {outcome : Outcome} :
    isSuccess outcome = true ↔ ∃ output, outcome = .exited 0 output := by
  cases outcome with
  | exited status output => simp [isSuccess]
  | timedOut => simp [isSuccess]
  | notStarted error => simp [isSuccess]

theorem outputDetail_of_le {output : String} (h : (Text.stripped output).length ≤ 240) :
    outputDetail output = Text.stripped output := by
  unfold outputDetail detailLength
  exact if_neg (by omega)

theorem outputDetail_of_append {output front back : String}
    (h : Text.stripped output = front ++ back) (hfront : front.length = 240) (hback : back ≠ "") :
    outputDetail output = front ++ "..." := by
  have hlength : 240 < (Text.stripped output).length := by
    have hpos : back.length ≠ 0 := by simpa using hback
    rw [h, String.length_append]
    omega
  have hcut : Text.cut (240 : Nat) (Text.stripped output) = front := by
    show String.ofList ((Text.stripped output).toList.take 240) = front
    rw [h, String.toList_append, List.take_left' (by rw [String.length_toList, hfront]),
      String.ofList_toList]
  unfold outputDetail detailLength
  dsimp only
  rw [if_pos hlength, hcut]

theorem outputDetail_ne {output : String} (h : Text.stripped output ≠ "") :
    outputDetail output ≠ "" := by
  unfold outputDetail
  dsimp only
  split
  · simp
  · exact h

theorem failureDetail_ne (style : Style) (outcome : Outcome) : failureDetail style outcome ≠ "" := by
  cases outcome with
  | timedOut => simp [failureDetail]
  | notStarted error => simp [failureDetail, SystemError.message]
  | exited status output =>
    unfold failureDetail
    dsimp only
    split
    · simp
    · assumption

section Outcomes

variable {style : Style} {document image : Path} {status : Int} {output : String}

theorem detail_of_failure {outcome : Outcome} (h : isSuccess outcome = false) :
    (ofOutcome style document image outcome).detail = failureDetail style outcome := by
  unfold ofOutcome detail
  rw [h]
  rfl

theorem detail_of_exited (h : status ≠ 0) :
    (ofOutcome style document image (.exited status output)).detail =
      if outputDetail output = "" then "exit status " ++ Text.signedDecimal status
      else outputDetail output :=
  detail_of_failure (by simpa [isSuccess] using h)

end Outcomes

/-- **A drawing tells how its call ended.** -/
theorem tells_ofOutcome (style : Style) (document image : Path) (outcome : Outcome) :
    (ofOutcome style document image outcome).Tells outcome := by
  have hok : (ofOutcome style document image outcome).ok = isSuccess outcome := by
    unfold ofOutcome ok
    cases isSuccess outcome <;> rfl
  refine ⟨?_, ?_, ?_, ?_, ?_⟩
  · rw [hok]
    exact isSuccess_iff
  · intro hfailed
    rw [detail_of_failure (hok ▸ hfailed)]
    exact failureDetail_ne style outcome
  · rintro status output rfl hstatus hblank
    have hnone : outputDetail output = "" := by
      rw [outputDetail_of_le (by simp [hblank]), hblank]
    rw [detail_of_exited hstatus, if_pos hnone]
  · rintro status output rfl hstatus hne hle
    rw [detail_of_exited hstatus, if_neg (outputDetail_ne hne), outputDetail_of_le hle]
  · rintro status output front back rfl hstatus houtput hfront hback
    have hne : Text.stripped output ≠ "" := by
      rw [houtput]
      simp [hback]
    rw [detail_of_exited hstatus, if_neg (outputDetail_ne hne),
      outputDetail_of_append houtput hfront hback]

/-! ## A row of documents -/

/-- Where the image of a document lies: beside it, with another suffix. -/
def imageOf (format : String) (document : Path) : Path :=
  { document with names := document.names.dropLast ++ [document.stem ++ ("." ++ format)] }

/-- The call for a document. -/
def callFor (style : Style) (document : Path) : Call :=
  ⟨style.command document (imageOf style.format document), style.timeout⟩

/-- The drawing that the call for a document leaves. -/
def drawingFor (style : Style) (document : Path) (outcome : Outcome) : Drawing :=
  ofOutcome style document (imageOf style.format document) outcome

/-- The drawings of documents, each with the outcome that comes to it. -/
def drawingsOf (style : Style) (outcomes : List Outcome) (documents : List Path) : List Drawing :=
  List.zipWith (drawingFor style) documents (Renderer.upcoming outcomes documents.length)

/-- **A drawing comes from its document and its own outcome.** -/
theorem getElem?_drawingsOf (style : Style) (outcomes : List Outcome) (documents : List Path)
    (i : Nat) :
    (drawingsOf style outcomes documents)[i]? =
      documents[i]?.map fun document =>
        drawingFor style document (Renderer.outcomeAt outcomes i) := by
  unfold drawingsOf Renderer.upcoming
  rw [List.getElem?_zipWith, List.getElem?_map]
  rcases Nat.lt_or_ge i documents.length with hlt | hge
  · rw [List.getElem?_eq_getElem hlt, List.getElem?_range hlt]
    rfl
  · rw [List.getElem?_eq_none hge]
    rfl

/-- What does not depend on the outcome is the same for all rows of outcomes. -/
theorem map_drawingsOf {α : Type} {style : Style} {f : Drawing → α} {g : Path → α}
    (h : ∀ document outcome, f (drawingFor style document outcome) = g document)
    (outcomes : List Outcome) (documents : List Path) :
    (drawingsOf style outcomes documents).map f = documents.map g := by
  apply List.ext_getElem?
  intro i
  rw [List.getElem?_map, List.getElem?_map, getElem?_drawingsOf, Option.map_map]
  exact congrFun (congrArg Option.map (funext fun document => h document _)) _

theorem map_document_drawingsOf (style : Style) (outcomes : List Outcome) (documents : List Path) :
    (drawingsOf style outcomes documents).map Drawing.document = documents := by
  have hsame : ∀ document outcome, (drawingFor style document outcome).document = id document :=
    fun _ _ => rfl
  rw [map_drawingsOf hsame, List.map_id]

theorem exists_of_getElem?_drawingsOf {style : Style} {outcomes : List Outcome}
    {documents : List Path} {i : Nat} {d : Drawing}
    (h : (drawingsOf style outcomes documents)[i]? = some d) :
    ∃ document ∈ documents, d = drawingFor style document (Renderer.outcomeAt outcomes i) := by
  rw [getElem?_drawingsOf] at h
  obtain ⟨document, hdocument, rfl⟩ := Option.map_eq_some_iff.mp h
  exact ⟨document, List.mem_of_getElem? hdocument, rfl⟩

theorem drawingsOf_cons (style : Style) (outcomes : List Outcome) (document : Path)
    (rest : List Path) :
    drawingsOf style outcomes (document :: rest) =
      drawingFor style document (Renderer.next outcomes).1 ::
        drawingsOf style (Renderer.next outcomes).2 rest := by
  unfold drawingsOf
  rw [List.length_cons, Renderer.upcoming_succ, List.zipWith_cons_cons]

theorem eq_imageOf_of_withSuffix {format : String} {document image : Path}
    (h : document.withSuffix ("." ++ format) = .ok image) : image = imageOf format document := by
  unfold Path.withSuffix at h
  split_ifs at h
  exact (Except.ok.inj h).symm

/-- **A row of drawings is a row of calls**, whatever the outcomes are. -/
theorem of_makeAll {style : Style} {renderer : Renderer} {documents : List Path}
    {drawings : List Drawing}
    (h : (makeAll style renderer documents).value.1 = .ok drawings) :
    drawings = drawingsOf style renderer.outcomes documents ∧
      (makeAll style renderer documents).value.2.calls =
        renderer.calls ++ documents.map (callFor style) := by
  induction documents generalizing renderer drawings with
  | nil =>
    cases h
    exact ⟨rfl, (List.append_nil _).symm⟩
  | cons document rest ih =>
    unfold makeAll at h ⊢
    cases hsuffix : document.withSuffix ("." ++ style.format) with
    | error e =>
      rw [hsuffix] at h
      cases h
    | ok image =>
      have himage : image = imageOf style.format document := eq_imageOf_of_withSuffix hsuffix
      have hmade : (make style document image renderer).value =
          (drawingFor style document (Renderer.next renderer.outcomes).1,
            ⟨(Renderer.next renderer.outcomes).2, renderer.calls ++ [callFor style document]⟩) := by
        rw [himage]
        rfl
      rw [hsuffix] at h
      dsimp only at h ⊢
      simp only [Logged.value_bind, Logged.value_pure, hmade] at h ⊢
      cases hrest : (makeAll style ⟨(Renderer.next renderer.outcomes).2,
          renderer.calls ++ [callFor style document]⟩ rest).value.1 with
      | error e =>
        rw [hrest] at h
        cases h
      | ok later =>
        obtain ⟨hdrawings, hcalls⟩ := ih hrest
        rw [hrest] at h
        cases h
        refine ⟨?_, ?_⟩
        · rw [drawingsOf_cons, hdrawings]
        · rw [hcalls, List.append_assoc, List.map_cons]
          rfl

end Drawing

/-! ## The drawing stage -/

namespace SourceRun

/-- The call that a drawing comes from. -/
def callOf (settings : Settings) (d : Drawing) : Call :=
  ⟨[settings.executable, "-K" ++ settings.engine, "-n", "-T" ++ settings.format, d.document.text,
    "-o", d.image.text], settings.timeout⟩

theorem map_callOf_drawingsOf (settings : Settings) (outcomes : List Outcome)
    (documents : List Path) :
    (Drawing.drawingsOf settings.style outcomes documents).map (callOf settings) =
      documents.map (Drawing.callFor settings.style) :=
  Drawing.map_drawingsOf (fun _ _ => rfl) outcomes documents

/-- The stage leaves a call and a drawing for each exported document, in order. -/
structure Draws (plan : Plan) (run : SourceRun) (before : Session) (next : SourceRun)
    (after : Session) : Prop where
  documents : next.drawings.map Drawing.document = run.exports.map Prod.fst
  images : ∀ d ∈ next.drawings,
    d.document.withSuffix ("." ++ plan.settings.format) = .ok d.image
  calls : after.renderer.calls =
    before.renderer.calls ++ next.drawings.map (callOf plan.settings)
  outcomes : ∀ (i : Nat) (d : Drawing), next.drawings[i]? = some d →
    d.Tells (Renderer.outcomeAt before.renderer.outcomes i)

/-- The row of calls that the stage makes. -/
def rendering (plan : Plan) (run : SourceRun) (renderer : Renderer) :
    Logged (Except Path.SuffixError (List Drawing) × Renderer) :=
  Drawing.makeAll plan.settings.style renderer (run.exports.map Prod.fst)

/-- The stage runs to its end exactly if no document stops the row. -/
theorem runs_draw_iff {plan : Plan} (hrender : plan.render = true) {run next : SourceRun}
    {before after : Session} :
    Runs (run.draw plan) before next after ↔
      ∃ drawings, (rendering plan run before.renderer).value.1 = .ok drawings ∧
        next = { run with drawings } ∧
        after = { before with
          renderer := (rendering plan run before.renderer).value.2,
          log := before.log ++ (rendering plan run before.renderer).log } := by
  unfold draw
  rw [if_pos hrender]
  simp only [runs_bind, runs_get, runs_modify, runs_logged, runs_orStop, runs_pure]
  constructor
  · rintro ⟨_, _, ⟨rfl, rfl⟩, _, _, ⟨rfl, rfl⟩, _, _, rfl, drawings, _, ⟨hmade, rfl⟩, rfl, rfl⟩
    exact ⟨drawings, hmade, rfl, rfl⟩
  · rintro ⟨drawings, hmade, rfl, rfl⟩
    exact ⟨_, _, ⟨rfl, rfl⟩, _, _, ⟨rfl, rfl⟩, ⟨⟩, _, rfl, drawings, _, ⟨hmade, rfl⟩, rfl, rfl⟩

/-- What the stage leaves behind a row of drawings. -/
theorem draws_of_rendering {plan : Plan} {run : SourceRun} {before : Session}
    {drawings : List Drawing}
    (hformat : plan.settings.format ≠ "") (hslash : '/' ∉ plan.settings.format.toList)
    (hnames : ∀ path ∈ run.exports.map Prod.fst, path.name ≠ "")
    (hmade : (rendering plan run before.renderer).value.1 = .ok drawings) {after : Session}
    (hafter : after.renderer = (rendering plan run before.renderer).value.2) :
    Draws plan run before { run with drawings } after := by
  obtain ⟨hdrawings, hcalls⟩ := Drawing.of_makeAll hmade
  have hsuffix : ∀ document ∈ run.exports.map Prod.fst,
      document.withSuffix ("." ++ plan.settings.format) =
        .ok (Drawing.imageOf plan.settings.format document) := by
    intro document hdocument
    obtain ⟨image, himage⟩ := Path.exists_withSuffix (hnames document hdocument) hformat hslash
    rw [himage, Drawing.eq_imageOf_of_withSuffix himage]
  rw [hdrawings]
  refine ⟨?_, fun d hd => ?_, ?_, fun i d hd => ?_⟩
  · exact Drawing.map_document_drawingsOf _ _ _
  · obtain ⟨i, hi⟩ := List.mem_iff_getElem?.mp hd
    obtain ⟨document, hdocument, rfl⟩ := Drawing.exists_of_getElem?_drawingsOf hi
    exact hsuffix document hdocument
  · rw [hafter, map_callOf_drawingsOf]
    exact hcalls
  · obtain ⟨document, -, rfl⟩ := Drawing.exists_of_getElem?_drawingsOf hd
    exact Drawing.tells_ofOutcome plan.settings.style document
      (Drawing.imageOf plan.settings.style.format document) _

theorem drawings_of_runs_draw {plan : Plan} (hrender : plan.render = true) {run next : SourceRun}
    {before after : Session} (h : Runs (run.draw plan) before next after) :
    next.drawings = Drawing.drawingsOf plan.settings.style before.renderer.outcomes
      (run.exports.map Prod.fst) := by
  obtain ⟨drawings, hmade, rfl, -⟩ := (runs_draw_iff hrender).mp h
  exact (Drawing.of_makeAll hmade).1

end SourceRun

open SourceRun in
/-- **Every document is drawn**, whatever the renderer does.  If the format of images is neither
empty nor a path, the drawing stage does not stop at exported documents: each has one call, in
order and with the settings of the run, and one drawing, which tells how this call ended.  What the
renderer does on one document changes neither the calls nor the drawings of the others. -/
theorem every_document_is_drawn {plan : Plan} (hrender : plan.render = true)
    (hformat : plan.settings.format ≠ "") (hslash : '/' ∉ plan.settings.format.toList)
    {run : SourceRun}
    (hexports : ∀ e ∈ run.exports, ∃ directory name, e.1 = documentPath directory name) :
    (∀ before, ∃ next after, Runs (run.draw plan) before next after ∧
        Draws plan run before next after) ∧
      ∀ before before' next next' after after', Runs (run.draw plan) before next after →
        Runs (run.draw plan) before' next' after' →
          next.drawings.map (callOf plan.settings) = next'.drawings.map (callOf plan.settings) ∧
            ∀ i, Renderer.outcomeAt before.renderer.outcomes i =
                Renderer.outcomeAt before'.renderer.outcomes i →
              next.drawings[i]? = next'.drawings[i]? := by
  have hnames : ∀ path ∈ run.exports.map Prod.fst, path.name ≠ "" := by
    intro path hpath
    obtain ⟨e, he, rfl⟩ := List.mem_map.mp hpath
    obtain ⟨directory, name, hdocument⟩ := hexports e he
    rw [hdocument]
    exact name_documentPath_ne directory name
  refine ⟨fun before => ?_, fun before before' next next' after after' h h' => ?_⟩
  · have hmakes : ∃ drawings, (rendering plan run before.renderer).value.1 = .ok drawings :=
      Drawing.exists_ok_makeAll hformat hslash hnames before.renderer
    obtain ⟨drawings, hmade⟩ := hmakes
    exact ⟨_, _, (runs_draw_iff hrender).mpr ⟨drawings, hmade, rfl, rfl⟩,
      draws_of_rendering hformat hslash hnames hmade rfl⟩
  · rw [drawings_of_runs_draw hrender h, drawings_of_runs_draw hrender h', map_callOf_drawingsOf,
      map_callOf_drawingsOf]
    refine ⟨rfl, fun i hi => ?_⟩
    rw [Drawing.getElem?_drawingsOf, Drawing.getElem?_drawingsOf, hi]

/-- Error output of blanks only gives no detail, and the length counts without the blanks. -/
example :
    Drawing.failureDetail .standard (.exited 1 " \n\t") = "exit status 1" ∧
      Drawing.failureDetail .standard (.exited (-11) "  no space \n") = "no space" := by decide

/-! ## Calls that all fail -/

namespace FailingCalls

def plan : Plan := ⟨{ Settings.standard with format := "svg" }, true, some ⟨.here, ["out"]⟩⟩

/-- The documents of a door, of its source and of nothing. -/
def documents : List Path :=
  ["m_Door", "m", ""].map fun name => SourceRun.documentPath ⟨.here, ["out"]⟩ name

/-- Three documents are written. -/
def run : SourceRun :=
  { SourceRun.start ⟨.here, ["m.xml"]⟩ with
    exports := documents.map fun document => (document, ⟨document.stem, 0, 0, 0, 0⟩) }

/-- One call takes too long, one cannot be made, and one ends without an explanation. -/
def session : Session :=
  .start ⟨.ofList [(["work"], .directory)], ["work"]⟩
    [.timedOut, .notStarted ⟨2, "No such file or directory", some "dot"⟩, .exited 1 " \n"]
    .blank .standard

theorem exports_documents :
    ∀ e ∈ run.exports, ∃ directory name, e.1 = SourceRun.documentPath directory name := by
  intro e he
  obtain ⟨document, hdocument, rfl⟩ := List.mem_map.mp he
  obtain ⟨name, -, rfl⟩ := List.mem_map.mp hdocument
  exact ⟨_, name, rfl⟩

end FailingCalls

open FailingCalls in
theorem failingCalls_are_drawn :
    plan.render = true ∧ plan.settings.format ≠ "" ∧ '/' ∉ plan.settings.format.toList ∧
      (∀ e ∈ run.exports, ∃ directory name, e.1 = SourceRun.documentPath directory name) ∧
      ∃ next after, Runs (run.draw plan) session next after ∧
        SourceRun.Draws plan run session next after :=
  ⟨rfl, by decide, by decide, exports_documents,
    (every_document_is_drawn rfl (by decide) (by decide) exports_documents).1 session⟩

end FlowAtlas
