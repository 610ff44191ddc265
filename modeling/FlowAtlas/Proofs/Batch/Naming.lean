import Mathlib.Tactic.SplitIfs
import FlowAtlas.Batch
import FlowAtlas.Proofs.Scan.Scopes
import FlowAtlas.Proofs.Text.Pieces

/-!
# How documents are named

The document of a scope lies behind the stem of its source, so the documents of one source differ
exactly by what their scopes put behind it.  A text behind the stem leads further down if it has
slashes; without them it stays in the directory of the documents.

Main facts: `documentPath_inj` (which scopes of a source share a document) and `ending_inj` (closed
scopes share the ending of a document only under one name).
-/

namespace FlowAtlas

namespace Path

/-- Whether a piece of a text counts as a name. -/
def isName (piece : List Char) : Bool := !piece.isEmpty && piece ≠ ['.']

theorem isName_append {front piece : List Char} (h : ∃ c ∈ piece, c ≠ '.') :
    isName (front ++ piece) = true := by
  obtain ⟨c, hc, hdot⟩ := h
  have hmem : c ∈ front ++ piece := List.mem_append_right front hc
  unfold isName
  rw [Bool.and_eq_true, decide_eq_true_eq]
  constructor
  · rw [Bool.not_eq_true', List.isEmpty_eq_false_iff]
    exact List.ne_nil_of_mem hmem
  · intro hp
    rw [hp, List.mem_singleton] at hmem
    exact hdot hmem

/-- A text that goes on with a name: it starts with no slash, and its first piece is not made of
dots alone. -/
structure Continues (text : List Char) (head : List Char) (tail : List (List Char)) : Prop where
  start : ∃ c rest, text = c :: rest ∧ c ≠ '/'
  pieces : Text.splitAtEach '/' text = head :: tail
  name : ∃ c ∈ head, c ≠ '.'

theorem anchorOf_append (front : List Char) {c : Char} (hc : c ≠ '/') (rest : List Char) :
    anchorOf (front ++ c :: rest) = anchorOf front := by
  have hslashes : (front ++ c :: rest).takeWhile (· = '/') = front.takeWhile (· = '/') := by
    induction front with
    | nil => simp [hc]
    | cons d front ih => simp only [List.cons_append, List.takeWhile_cons, ih]
  unfold anchorOf
  rw [hslashes]

theorem anchorOf_of_slash_not_mem {text : List Char} (h : '/' ∉ text) : anchorOf text = .here := by
  unfold anchorOf
  cases text with
  | nil => rfl
  | cons c text =>
    rw [List.mem_cons, not_or] at h
    rw [List.takeWhile_cons_of_neg (by simpa using Ne.symm h.1)]
    rfl

/-- What a text in front decides of a path: its anchor, the names before the last piece, and how the
last piece begins. -/
theorem ofText_append (front : String) :
    ∃ names last, ∀ {text : String} {head tail}, Continues text.toList head tail →
      ofText (front ++ text) =
        ⟨anchorOf front.toList,
          (names ++ (last ++ head) :: tail.filter isName).map String.ofList⟩ := by
  obtain ⟨pieces, last, hpieces⟩ := Text.splitAtEach_append '/' front.toList
  refine ⟨pieces.filter isName, last, fun {text head tail} h => ?_⟩
  obtain ⟨c, rest, htext, hc⟩ := h.start
  have hanchor : anchorOf (front ++ text).toList = anchorOf front.toList := by
    rw [String.toList_append, htext]
    exact anchorOf_append _ hc rest
  have hnames : (Text.splitAtEach '/' (front ++ text).toList).filter isName =
      pieces.filter isName ++ (last ++ head) :: tail.filter isName := by
    rw [String.toList_append, hpieces h.pieces, List.filter_append,
      List.filter_cons_of_pos (isName_append h.name)]
  unfold ofText
  rw [hanchor]
  exact congrArg _ (congrArg _ hnames)

/-- What stands in front of two texts does not matter to whether they lead to one path. -/
theorem ofText_append_inj (front : String) {s t : String} {head head' : List Char}
    {tail tail' : List (List Char)} (hs : Continues s.toList head tail)
    (ht : Continues t.toList head' tail') :
    ofText (front ++ s) = ofText (front ++ t) ↔
      head = head' ∧ tail.filter isName = tail'.filter isName := by
  obtain ⟨names, last, h⟩ := ofText_append front
  rw [h hs, h ht, Path.mk.injEq, List.map_inj_right fun _ _ => String.ofList_injective]
  simp

theorem join_inj (p : Path) {q r : Path} (h : q.anchor = r.anchor) :
    p.join q = p.join r ↔ q = r := by
  obtain ⟨anchor, names⟩ := q
  obtain ⟨anchor', names'⟩ := r
  change anchor = anchor' at h
  subst h
  unfold join
  split
  · simp
  · rfl

end Path

namespace Scope

/-- What a scope puts behind the stem of its source. -/
def ending (scope : Scope) : String :=
  match scope.entity with
  | some name => if scope.trailing || name = "" then ".dot" else "_" ++ name ++ ".dot"
  | none => ".dot"

/-- Where the ending of a scope leads. -/
def route (scope : Scope) : Path := .ofText scope.ending

theorem documentName_append (source : Path) (scope : Scope) :
    Dot.documentName source scope ++ ".dot" = source.stem ++ scope.ending := by
  unfold Dot.documentName ending
  cases scope.entity with
  | none => rfl
  | some name =>
    dsimp only
    split_ifs
    · rfl
    · simp only [String.append_assoc]

theorem ending_cases (scope : Scope) :
    scope.ending = ".dot" ∨
      ∃ name, scope.entity = some name ∧ scope.ending = "_" ++ name ++ ".dot" := by
  unfold ending
  cases scope.entity with
  | none => exact Or.inl rfl
  | some name =>
    dsimp only
    split_ifs
    · exact Or.inl rfl
    · exact Or.inr ⟨name, rfl, rfl⟩

theorem ending_of_trailing {scope : Scope} (h : scope.trailing = true) : scope.ending = ".dot" := by
  unfold ending
  cases scope.entity with
  | none => rfl
  | some name =>
    rw [h]
    rfl

theorem IsClosed.ending {scope : Scope} (h : scope.IsClosed) :
    ∃ name, scope.entity = some name ∧ scope.ending = "_" ++ name ++ ".dot" := by
  obtain ⟨name, hentity, hname⟩ := h.entity
  refine ⟨name, hentity, ?_⟩
  unfold Scope.ending
  rw [h.trailing, hentity]
  simp [hname]

theorem continues_dot : Path.Continues ".dot".toList ".dot".toList [] :=
  ⟨⟨'.', ['d', 'o', 't'], rfl, by decide⟩, rfl, 'd', by decide, by decide⟩

theorem continues_name (name : String) :
    ∃ head tail, Path.Continues ("_" ++ name ++ ".dot").toList ('_' :: head) tail := by
  obtain ⟨rest, hrest⟩ : ∃ rest, ("_" ++ name ++ ".dot").toList = '_' :: rest :=
    ⟨name.toList ++ ".dot".toList, by simp⟩
  obtain ⟨head, tail, hpieces⟩ := List.exists_cons_of_ne_nil (Text.splitAtEach_ne_nil '/' rest)
  refine ⟨head, tail, ⟨'_', rest, hrest, by decide⟩, ?_, '_', by simp, by decide⟩
  rw [hrest]
  exact Text.splitAtEach_cons_of_ne (by decide) hpieces

theorem exists_continues (scope : Scope) :
    ∃ head tail, Path.Continues scope.ending.toList head tail := by
  rcases scope.ending_cases with h | ⟨name, -, h⟩
  · rw [h]
    exact ⟨_, _, continues_dot⟩
  · rw [h]
    obtain ⟨head, tail, hname⟩ := continues_name name
    exact ⟨_, _, hname⟩

theorem route_inj {a b : Scope} {head head' : List Char} {tail tail' : List (List Char)}
    (ha : Path.Continues a.ending.toList head tail)
    (hb : Path.Continues b.ending.toList head' tail') :
    a.route = b.route ↔
      head = head' ∧ tail.filter Path.isName = tail'.filter Path.isName := by
  have h := Path.ofText_append_inj "" ha hb
  rw [String.empty_append, String.empty_append] at h
  exact h

/-- **Two scopes of a source share a document exactly if their endings lead the same way.** -/
theorem documentPath_inj (directory source : Path) (a b : Scope) :
    SourceRun.documentPath directory (Dot.documentName source a) =
        SourceRun.documentPath directory (Dot.documentName source b) ↔
      a.route = b.route := by
  obtain ⟨head, tail, ha⟩ := exists_continues a
  obtain ⟨head', tail', hb⟩ := exists_continues b
  obtain ⟨names, last, h⟩ := Path.ofText_append source.stem
  have hanchor : (Path.ofText (source.stem ++ a.ending)).anchor =
      (Path.ofText (source.stem ++ b.ending)).anchor := by
    rw [h ha, h hb]
  unfold SourceRun.documentPath Path.child
  rw [documentName_append, documentName_append, Path.join_inj _ hanchor,
    Path.ofText_append_inj _ ha hb, route_inj ha hb]

/-- The document of a trailing scope is no closed scope's. -/
theorem route_ne_of_trailing {closed last : Scope} (hc : closed.IsClosed)
    (hl : last.trailing = true) : closed.route ≠ last.route := by
  obtain ⟨name, -, hending⟩ := hc.ending
  obtain ⟨head, tail, hname⟩ := continues_name name
  have hdot := continues_dot
  rw [← hending] at hname
  rw [← ending_of_trailing hl] at hdot
  intro h
  have hhead := ((route_inj hname hdot).mp h).1
  rw [ending_of_trailing hl] at hhead
  cases hhead

/-- The documents of a source are distinct exactly if its closed scopes have distinct routes. -/
theorem nodup_documentPaths (directory source : Path) {closed : List Scope} {last : Scope}
    (hc : ∀ scope ∈ closed, scope.IsClosed) (hl : last.trailing = true) :
    ((closed ++ [last]).map fun scope =>
        SourceRun.documentPath directory (Dot.documentName source scope)).Nodup ↔
      (closed.map route).Nodup := by
  unfold List.Nodup
  rw [List.pairwise_map, List.pairwise_map, List.pairwise_append]
  have hpaths : ∀ a b : Scope,
      SourceRun.documentPath directory (Dot.documentName source a) ≠
          SourceRun.documentPath directory (Dot.documentName source b) ↔ a.route ≠ b.route :=
    fun a b => not_congr (documentPath_inj directory source a b)
  simp only [hpaths]
  constructor
  · exact fun h => h.1
  · intro h
    refine ⟨h, List.pairwise_singleton _ _, fun a ha b hb => ?_⟩
    rw [List.mem_singleton.mp hb]
    exact route_ne_of_trailing (hc a ha) hl

/-! ## Plain names -/

/-- The entity of a scope has no slash in its name. -/
def HasPlainName (scope : Scope) : Prop := ∀ name, scope.entity = some name → '/' ∉ name.toList

theorem HasPlainName.slash_not_mem_ending {scope : Scope} (h : scope.HasPlainName) :
    '/' ∉ scope.ending.toList := by
  rcases scope.ending_cases with he | ⟨name, hentity, he⟩
  · rw [he]
    decide
  · rw [he]
    simp [h name hentity]

theorem slash_not_mem_ending_of_trailing {scope : Scope} (h : scope.trailing = true) :
    '/' ∉ scope.ending.toList := by
  rw [ending_of_trailing h]
  decide

/-- An ending without slashes is a single piece. -/
theorem continues_of_slash_not_mem {scope : Scope} (h : '/' ∉ scope.ending.toList) :
    Path.Continues scope.ending.toList scope.ending.toList [] := by
  obtain ⟨head, tail, hc⟩ := exists_continues scope
  have hpieces := hc.pieces
  rw [Text.splitAtEach_of_not_mem h] at hpieces
  cases hpieces
  exact hc

theorem route_inj_of_slash_not_mem {a b : Scope} (ha : '/' ∉ a.ending.toList)
    (hb : '/' ∉ b.ending.toList) : a.route = b.route ↔ a.ending = b.ending := by
  rw [route_inj (continues_of_slash_not_mem ha) (continues_of_slash_not_mem hb), String.toList_inj]
  simp

theorem IsClosed.ending_inj {a b : Scope} (ha : a.IsClosed) (hb : b.IsClosed) :
    a.ending = b.ending ↔ a.entity = b.entity := by
  obtain ⟨name, hentity, hending⟩ := ha.ending
  obtain ⟨name', hentity', hending'⟩ := hb.ending
  rw [hentity, hentity', hending, hending', ← String.toList_inj]
  simp [String.toList_inj]

/-- Closed scopes with plain names have distinct routes exactly if they have distinct names. -/
theorem nodup_routes_of_plain {closed : List Scope} (hc : ∀ scope ∈ closed, scope.IsClosed)
    (hp : ∀ scope ∈ closed, scope.HasPlainName) :
    (closed.map route).Nodup ↔ (closed.map Scope.entity).Nodup := by
  unfold List.Nodup
  rw [List.pairwise_map, List.pairwise_map]
  refine List.Pairwise.iff_of_mem fun {a b} ha hb => not_congr ?_
  rw [route_inj_of_slash_not_mem (hp a ha).slash_not_mem_ending (hp b hb).slash_not_mem_ending,
    (hc a ha).ending_inj (hc b hb)]

/-- Without slashes the document of a scope lies directly in the directory. -/
theorem documentPath_eq_entry (directory : Path) {source : Path} {scope : Scope}
    (hs : '/' ∉ source.stem.toList) (h : '/' ∉ scope.ending.toList) :
    SourceRun.documentPath directory (Dot.documentName source scope) =
      directory.entry (source.stem ++ scope.ending) := by
  have hslash : '/' ∉ (source.stem ++ scope.ending).toList := by
    rw [String.toList_append, List.mem_append, not_or]
    exact ⟨hs, h⟩
  have hname : Path.isName (source.stem ++ scope.ending).toList = true := by
    rw [String.toList_append]
    exact Path.isName_append (continues_of_slash_not_mem h).name
  have hpath : Path.ofText (source.stem ++ scope.ending) =
      ⟨.here, [source.stem ++ scope.ending]⟩ := by
    unfold Path.ofText
    rw [Path.anchorOf_of_slash_not_mem hslash, Text.splitAtEach_of_not_mem hslash]
    change Path.mk _ (([_].filter Path.isName).map String.ofList) = _
    rw [List.filter_cons_of_pos hname, List.filter_nil, List.map_singleton, String.ofList_toList]
  unfold SourceRun.documentPath Path.child
  rw [documentName_append, hpath]
  rfl

/-- The name of a document does not lead back. -/
theorem append_ending_ne (stem : String) (scope : Scope) : stem ++ scope.ending ≠ ".." := by
  have hd : 'd' ∈ scope.ending.toList := by
    rcases scope.ending_cases with h | ⟨name, -, h⟩
    · rw [h]
      decide
    · rw [h]
      simp
  intro h
  have hmem : 'd' ∈ (stem ++ scope.ending).toList := by
    rw [String.toList_append]
    exact List.mem_append_right _ hd
  rw [h] at hmem
  revert hmem
  decide

end Scope

end FlowAtlas
