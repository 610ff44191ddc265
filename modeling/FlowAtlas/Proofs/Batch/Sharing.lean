import FlowAtlas.Proofs.Batch.Placement
import FlowAtlas.Proofs.Batch.Takes

/-!
# When sources of a batch share a document

Sources with one stem never both write, but the name of a document goes on behind the stem with the
name of an entity.  So sources with different stems may still come to one document, and this takes a
stem that goes on from the other one behind an underscore.

Main facts: `stemsOverlap_of_meets` (which sources can share a document) and
`disjoint_documents_iff`.
-/

namespace FlowAtlas

open Job FileTree

/-! ## Scopes of two sources -/

/-- The scopes of two sources come to one document. -/
def Scope.Meets (p q : Path) (a b : Scope) : Prop :=
  Path.ofText (p.stem ++ a.ending) = Path.ofText (q.stem ++ b.ending)

/-- One of two stems is the other, an underscore and more. -/
def Path.StemsOverlap (p q : Path) : Prop :=
  (∃ rest, q.stem = p.stem ++ "_" ++ rest) ∨ ∃ rest, p.stem = q.stem ++ "_" ++ rest

namespace Scope

variable {p q : Path} {a b : Scope}

theorem documentPath_eq_iff_meets (directory : Path) (hp : '/' ∉ p.stem.toList)
    (hq : '/' ∉ q.stem.toList) :
    SourceRun.documentPath directory (Dot.documentName p a) =
        SourceRun.documentPath directory (Dot.documentName q b) ↔ Meets p q a b := by
  obtain ⟨head, tail, ha⟩ := exists_continues a
  obtain ⟨head', tail', hb⟩ := exists_continues b
  have hanchor : (Path.ofText (p.stem ++ a.ending)).anchor =
      (Path.ofText (q.stem ++ b.ending)).anchor := by
    rw [Path.ofText_append_of_slash_not_mem hp ha, Path.ofText_append_of_slash_not_mem hq hb]
  unfold SourceRun.documentPath Path.child Meets
  rw [documentName_append, documentName_append, Path.join_inj _ hanchor]

/-- The first piece of an ending is the suffix alone or starts with an underscore. -/
theorem head_of_continues {head : List Char} {tail : List (List Char)}
    (h : Path.Continues a.ending.toList head tail) :
    head = ".dot".toList ∨ ∃ rest, head = '_' :: rest := by
  have hpieces := h.pieces
  rcases a.ending_cases with hending | ⟨name, -, hending⟩
  · rw [hending, continues_dot.pieces] at hpieces
    exact Or.inl (List.cons.inj hpieces).1.symm
  · obtain ⟨rest, tail', hname⟩ := continues_name name
    rw [hending, hname.pieces] at hpieces
    exact Or.inr ⟨rest, (List.cons.inj hpieces).1.symm⟩

/-- A longer stem meets what stands behind the shorter one, and there an underscore comes first. -/
theorem underscore_of_append {middle head head' : List Char} (h : head = middle ++ head')
    (hmiddle : middle ≠ []) (hhead : head = ".dot".toList ∨ ∃ rest, head = '_' :: rest)
    (hhead' : head' = ".dot".toList ∨ ∃ rest, head' = '_' :: rest) :
    ∃ rest, middle = '_' :: rest := by
  obtain ⟨c, rest, rfl⟩ := List.exists_cons_of_ne_nil hmiddle
  rcases hhead with rfl | ⟨more, rfl⟩
  · -- behind its dot the suffix has neither a dot nor an underscore
    have htail : ['d', 'o', 't'] = rest ++ head' := (List.cons.inj h).2
    have hdot : '.' ∉ rest ++ head' := by
      rw [← htail]
      decide
    have hunderscore : '_' ∉ rest ++ head' := by
      rw [← htail]
      decide
    rcases hhead' with rfl | ⟨more, rfl⟩
    · exact absurd (List.mem_append_right rest (by decide)) hdot
    · exact absurd (List.mem_append_right rest (List.mem_cons_self ..)) hunderscore
  · exact ⟨rest, by rw [(List.cons.inj h).1]⟩

/-- **Scopes of sources with different stems meet only if one stem goes on from the other behind an
underscore.** -/
theorem stemsOverlap_of_meets (hp : '/' ∉ p.stem.toList) (hq : '/' ∉ q.stem.toList)
    (hne : p.stem ≠ q.stem) (h : Meets p q a b) : p.StemsOverlap q := by
  obtain ⟨head, tail, ha⟩ := exists_continues a
  obtain ⟨head', tail', hb⟩ := exists_continues b
  unfold Meets at h
  rw [Path.ofText_append_of_slash_not_mem hp ha, Path.ofText_append_of_slash_not_mem hq hb] at h
  have hfirst : p.stem.toList ++ head = q.stem.toList ++ head' :=
    String.ofList_injective (List.cons.inj (Path.mk.inj h).2).1
  have hlonger : ∀ {r s : Path} {middle : List Char}, s.stem.toList = r.stem.toList ++ middle →
      r.stem ≠ s.stem → middle ≠ [] := by
    rintro r s middle hs hrs rfl
    rw [List.append_nil] at hs
    exact hrs (String.toList_inj.mp hs.symm)
  have htext : ∀ {r s : Path} {rest : List Char}, s.stem.toList = r.stem.toList ++ '_' :: rest →
      s.stem = r.stem ++ "_" ++ String.ofList rest := by
    intro r s rest hs
    rw [← String.toList_inj, hs]
    simp
  rcases List.append_eq_append_iff.mp hfirst with ⟨middle, hq', hhead⟩ | ⟨middle, hp', hhead⟩
  · obtain ⟨rest, rfl⟩ := underscore_of_append hhead (hlonger hq' hne) (head_of_continues ha)
      (head_of_continues hb)
    exact Or.inl ⟨_, htext hq'⟩
  · obtain ⟨rest, rfl⟩ := underscore_of_append hhead (hlonger hp' hne.symm) (head_of_continues hb)
      (head_of_continues ha)
    exact Or.inr ⟨_, htext hp'⟩

end Scope

/-! ## Documents of two sources -/

section Documents

variable {plan : Plan} {p q : Path} {d e : Document}

theorem NamedAfter.path_eq_iff (hd : NamedAfter plan p d) (he : NamedAfter plan q e)
    (hp : '/' ∉ p.stem.toList) (hq : '/' ∉ q.stem.toList) :
    d.path = e.path ↔ Scope.Meets p q d.scope e.scope := by
  obtain ⟨directory, hdirectory, hdpath⟩ := hd
  obtain ⟨directory', hdirectory', hepath⟩ := he
  rw [hdirectory] at hdirectory'
  cases hdirectory'
  rw [hdpath, hepath]
  exact Scope.documentPath_eq_iff_meets directory hp hq

/-- Documents without slashes in their names that lie at one location have one path. -/
theorem NamedAfter.path_eq_of_location_eq {tree : FileTree} (hd : NamedAfter plan p d)
    (he : NamedAfter plan q e) (hp : '/' ∉ p.stem.toList) (hq : '/' ∉ q.stem.toList)
    (hdlocate : tree.locate d.path = .ok d.location)
    (helocate : tree.locate e.path = .ok e.location)
    (hdending : '/' ∉ d.scope.ending.toList) (heending : '/' ∉ e.scope.ending.toList)
    (h : d.location = e.location) : d.path = e.path := by
  obtain ⟨directory, location, hdirectory, hwalk, hdlocation⟩ :=
    hd.location_eq hdlocate hp hdending
  obtain ⟨directory', location', hdirectory', hwalk', helocation⟩ :=
    he.location_eq helocate hq heending
  rw [hdirectory] at hdirectory'
  cases hdirectory'
  rw [hwalk] at hwalk'
  cases hwalk'
  rw [hdlocation, helocation] at h
  have hname : p.stem ++ d.scope.ending = q.stem ++ e.scope.ending :=
    (List.cons.inj (List.append_cancel_left h)).1
  rw [hd.path_eq_iff he hp hq]
  unfold Scope.Meets
  rw [hname]

end Documents

/-! ## Sources of a batch -/

/-- No document of the one source meets a document of the other. -/
def Take.Apart (a b : Take) : Prop :=
  ∀ d ∈ a.documents, ∀ e ∈ b.documents, ¬ Scope.Meets a.source b.source d.scope e.scope

namespace Taken

variable {plan : Plan} {owner : String → Option Path} {before after : FileTree}
  {batch : BatchResult} {takes : List Take} {a b : Take}

/-- Sources for which something was done have different stems. -/
theorem stem_ne (h : Taken plan owner before batch after takes) (ha : a ∈ takes) (hb : b ∈ takes)
    (haacts : a.Acts) (hbacts : b.Acts) (hne : a.source ≠ b.source) :
    a.source.stem ≠ b.source.stem := by
  intro hstem
  have howner := h.owner a ha haacts
  rw [hstem, h.owner b hb hbacts] at howner
  exact hne (Option.some.inj howner).symm

theorem apart_of_not_stemsOverlap (h : Taken plan owner before batch after takes) (ha : a ∈ takes)
    (hb : b ∈ takes) (hp : '/' ∉ a.source.stem.toList) (hq : '/' ∉ b.source.stem.toList)
    (hne : a.source ≠ b.source) (hstems : ¬ a.source.StemsOverlap b.source) : a.Apart b := by
  intro d hd e he hmeets
  have haacts : a.Acts := Or.inl (List.ne_nil_of_mem hd)
  have hbacts : b.Acts := Or.inl (List.ne_nil_of_mem he)
  have hstem : a.source.stem ≠ b.source.stem := h.stem_ne ha hb haacts hbacts hne
  exact hstems (Scope.stemsOverlap_of_meets hp hq hstem hmeets)

/-- The paths that two sources report are disjoint exactly if their documents are apart. -/
theorem disjoint_iff_apart (h : Taken plan owner before batch after takes) (ha : a ∈ takes)
    (hb : b ∈ takes) (hp : '/' ∉ a.source.stem.toList) (hq : '/' ∉ b.source.stem.toList)
    {r r' : SourceResult} (hr : a.result? = some r) (hr' : b.result? = some r') :
    r.documents.Disjoint r'.documents ↔ a.Apart b := by
  obtain ⟨-, _, _, _, hadocumented⟩ := (h.sound a ha).processed hr
  obtain ⟨-, _, _, _, hbdocumented⟩ := (h.sound b hb).processed hr'
  have hpath : ∀ d ∈ a.documents, ∀ e ∈ b.documents,
      (d.path = e.path ↔ Scope.Meets a.source b.source d.scope e.scope) := fun d hd e he =>
    ((h.sound a ha).named d hd).path_eq_iff ((h.sound b hb).named e he) hp hq
  rw [← hadocumented.paths, ← hbdocumented.paths]
  constructor
  · intro hdisjoint d hd e he hmeets
    refine hdisjoint (List.mem_map_of_mem hd) ?_
    rw [(hpath d hd e he).mpr hmeets]
    exact List.mem_map_of_mem he
  · intro hapart path hpathd hpathe
    obtain ⟨d, hd, rfl⟩ := List.mem_map.mp hpathd
    obtain ⟨e, he, hsame⟩ := List.mem_map.mp hpathe
    exact hapart d hd e he ((hpath d hd e he).mp hsame.symm)

/-- A document reads in the end as the last one at its location. -/
theorem read (h : Taken plan owner before batch after takes) (ha : a ∈ takes) {d : Document}
    (hd : d ∈ a.documents) : ∃ kept,
      Document.lastAt d.location (takes.flatMap Take.documents) = some kept ∧
        after.read d.path = .ok kept.content := by
  have hmem : d ∈ takes.flatMap Take.documents := List.mem_flatMap.mpr ⟨a, ha, hd⟩
  obtain ⟨kept, hkept⟩ := Document.exists_lastAt hmem
  exact ⟨kept, hkept, h.written.read hmem hkept⟩

/-- Where sources are apart and names have no slashes, a document reads as one of its own source. -/
theorem read_own (h : Taken plan owner before batch after takes)
    (hstem : ∀ take ∈ takes, '/' ∉ take.source.stem.toList)
    (hending : ∀ take ∈ takes, ∀ d ∈ take.documents, '/' ∉ d.scope.ending.toList)
    (hapart : ∀ a ∈ takes, ∀ b ∈ takes, a.source ≠ b.source → a.Apart b) (ha : a ∈ takes)
    {d : Document} (hd : d ∈ a.documents) :
    ∃ b ∈ takes, b.source = a.source ∧ ∃ kept ∈ b.documents,
      kept.path = d.path ∧ after.read d.path = .ok kept.content := by
  obtain ⟨kept, hkept, hcontent⟩ := h.read ha hd
  obtain ⟨hmem, hlocation⟩ := List.mem_filter.mp (List.mem_of_getLast? hkept)
  obtain ⟨b, hb, hkeptb⟩ := List.mem_flatMap.mp hmem
  have hdnamed : NamedAfter plan a.source d := (h.sound a ha).named d hd
  have hknamed : NamedAfter plan b.source kept := (h.sound b hb).named kept hkeptb
  have hdlocate : after.locate d.path = .ok d.location :=
    (h.written.leads d (List.mem_flatMap.mpr ⟨a, ha, hd⟩)).2
  have hklocate : after.locate kept.path = .ok kept.location := (h.written.leads kept hmem).2
  have hpath : d.path = kept.path :=
    hdnamed.path_eq_of_location_eq hknamed (hstem a ha) (hstem b hb) hdlocate hklocate
      (hending a ha d hd) (hending b hb kept hkeptb) (of_decide_eq_true hlocation).symm
  refine ⟨b, hb, ?_, kept, hkeptb, hpath.symm, hcontent⟩
  by_contra hne
  exact hapart a ha b hb (Ne.symm hne) d hd kept hkeptb
    ((hdnamed.path_eq_iff hknamed (hstem a ha) (hstem b hb)).mp hpath)

end Taken

/-- **Two sources of a batch report disjoint documents exactly if no scope of the one meets a scope
of the other**, which is so whenever neither stem is the other, an underscore and more.  In the end
a document reads as the last one at its location; if names have no slashes and all sources are
apart, this is a document of its own source. -/
theorem disjoint_documents_iff {plan : Plan} {sources : List Path} {before after : Session}
    {batch : BatchResult} (hplain : ∀ source ∈ sources, source.IsPlain)
    (h : Runs (runBatch plan sources) before batch after) :
    ∃ takes, takes.map Take.source = sources ∧
      Taken plan (firstWith sources) before.tree batch after.tree takes ∧
      (∀ a ∈ takes, ∀ b ∈ takes, ∀ r r', a.result? = some r → b.result? = some r' →
        r.source ≠ r'.source →
          r.source.stem ≠ r'.source.stem ∧ (r.documents.Disjoint r'.documents ↔ a.Apart b)) ∧
      (∀ a ∈ takes, ∀ b ∈ takes, a.source ≠ b.source → ¬ a.source.StemsOverlap b.source →
        a.Apart b) ∧
      (∀ a ∈ takes, ∀ d ∈ a.documents, ∃ kept,
        Document.lastAt d.location (takes.flatMap Take.documents) = some kept ∧
          after.tree.read d.path = .ok kept.content) ∧
      ((∀ a ∈ takes, ∀ d ∈ a.documents, '/' ∉ d.scope.ending.toList) →
        (∀ a ∈ takes, ∀ b ∈ takes, a.source ≠ b.source → a.Apart b) →
        ∀ a ∈ takes, ∀ d ∈ a.documents, ∃ b ∈ takes, b.source = a.source ∧
          ∃ kept ∈ b.documents, kept.path = d.path ∧
            after.tree.read d.path = .ok kept.content) := by
  obtain ⟨takes, hsources, htaken⟩ := exists_takes h
  have hstem : ∀ take ∈ takes, '/' ∉ take.source.stem.toList := by
    intro take htake
    have hmem : take.source ∈ sources := hsources ▸ List.mem_map_of_mem htake
    exact (hplain _ hmem).slash_not_mem_stem
  refine ⟨takes, hsources, htaken, ?_, ?_, ?_, ?_⟩
  · intro a ha b hb r r' hr hr' hne
    have hrsource : r.source = a.source := ((htaken.sound a ha).processed hr).1
    have hrsource' : r'.source = b.source := ((htaken.sound b hb).processed hr').1
    rw [hrsource, hrsource'] at hne ⊢
    exact ⟨htaken.stem_ne ha hb (Or.inr ⟨r, hr⟩) (Or.inr ⟨r', hr'⟩) hne,
      htaken.disjoint_iff_apart ha hb (hstem a ha) (hstem b hb) hr hr'⟩
  · intro a ha b hb hne hstems
    exact htaken.apart_of_not_stemsOverlap ha hb (hstem a ha) (hstem b hb) hne hstems
  · intro a ha d hd
    exact htaken.read ha hd
  · intro hending hapart a ha d hd
    exact htaken.read_own hstem hending hapart ha hd

/-! ## A stem that goes on from another -/

namespace OverlappingStems

/-- A source with an entity, and one whose stem ends in the name of this entity. -/
def sources : List Path := [.ofText "a.xml", .ofText "a_b.xml"]

def first : String :=
  "<Entity Name=\"b\">\n<Node Id=\"1\" Class=\"Ark:EndGame\"/>\n</FlowGraph>\n"

def second : String := "<Node Id=\"2\" Class=\"Ark:EndGame\"/>\n"

def session : Session :=
  .start
    ⟨.ofList [(["work"], .directory),
      (["work", "a.xml"], .file (Text.Utf8.encode first.toList)),
      (["work", "a_b.xml"], .file (Text.Utf8.encode second.toList))], ["work"]⟩
    [] .blank .standard

def plan : Plan := ⟨.standard, false, some (.ofText "out")⟩

/-- The sources of the results with their documents. -/
def reported (batch : BatchResult) : List (Path × List Path) :=
  batch.results.map fun r => (r.source, r.documents)

theorem isPlain_sources : ∀ source ∈ sources, source.IsPlain := by
  intro source hsource
  rcases List.mem_cons.mp hsource with rfl | hsource
  · exact Path.isPlain_ofText _
  · rw [List.mem_singleton.mp hsource]
    exact Path.isPlain_ofText _

theorem exists_runs_batch :
    ∃ batch after, Runs (runBatch plan sources) session batch after ∧
      reported batch =
        [(.ofText "a.xml", [.ofText "out/a_b.dot", .ofText "out/a.dot"]),
          (.ofText "a_b.xml", [.ofText "out/a_b.dot"])] :=
  exists_runs_of_map (by decide +kernel)

end OverlappingStems

theorem overlappingStems_disjoint_documents_iff :
    (∀ source ∈ OverlappingStems.sources, source.IsPlain) ∧
      ∃ batch after, Runs (runBatch OverlappingStems.plan OverlappingStems.sources)
          OverlappingStems.session batch after ∧
        ∃ takes : List Take, takes.map Take.source = OverlappingStems.sources ∧
          ∀ a ∈ takes, ∀ b ∈ takes, ∀ r r', a.result? = some r → b.result? = some r' →
            r.source ≠ r'.source →
              r.source.stem ≠ r'.source.stem ∧
                (r.documents.Disjoint r'.documents ↔ a.Apart b) := by
  obtain ⟨batch, after, h, -⟩ := OverlappingStems.exists_runs_batch
  obtain ⟨takes, hsources, -, hdisjoint, -⟩ :=
    disjoint_documents_iff OverlappingStems.isPlain_sources h
  exact ⟨OverlappingStems.isPlain_sources, batch, after, h, takes, hsources, hdisjoint⟩

/-- Disjoint documents cannot be had for all sources of a batch. -/
theorem not_forall_disjoint_documents :
    ¬ ∀ (plan : Plan) (sources : List Path) (before after : Session) (batch : BatchResult),
      (∀ source ∈ sources, source.IsPlain) → Runs (runBatch plan sources) before batch after →
        ∀ r ∈ batch.results, ∀ r' ∈ batch.results, r.source ≠ r'.source →
          r.documents.Disjoint r'.documents := by
  intro hall
  obtain ⟨batch, after, h, hreported⟩ := OverlappingStems.exists_runs_batch
  have hmem : ∀ entry ∈ OverlappingStems.reported batch, ∃ r ∈ batch.results,
      r.source = entry.1 ∧ r.documents = entry.2 := by
    intro entry hentry
    obtain ⟨r, hr, rfl⟩ := List.mem_map.mp hentry
    exact ⟨r, hr, rfl, rfl⟩
  rw [hreported] at hmem
  obtain ⟨r, hr, hsource, hdocuments⟩ := hmem _ (List.mem_cons_self ..)
  obtain ⟨r', hr', hsource', hdocuments'⟩ := hmem _ (List.mem_cons_of_mem _ (List.mem_cons_self ..))
  have hne : r.source ≠ r'.source := by
    rw [hsource, hsource']
    decide +kernel
  have hdisjoint := hall _ _ _ _ _ OverlappingStems.isPlain_sources h r hr r' hr' hne
  rw [hdocuments, hdocuments'] at hdisjoint
  exact hdisjoint (List.mem_cons_self ..) (List.mem_cons_self ..)

end FlowAtlas
