import FlowAtlas.Proofs.Batch.Naming
import FlowAtlas.Proofs.Files.Directory
import FlowAtlas.Proofs.Files.PlainNames
import FlowAtlas.Proofs.Markup.Values

/-!
# Where documents lie

The document of a scope lies directly in the directory of all documents unless the scope was closed
under a name with a slash.  A slash is a value character and the only one that means something in a
path, so such a name leads further down, and its document can be written only if a directory stands
there already.

Main facts: `slash_not_mem_ending_iff` and `stays_inside_iff`.
-/

namespace FlowAtlas

open FileTree

/-! ## Names of entities -/

namespace Transcript

theorem isValue_of_mem_readings {before : Option String} {es : List Entry} {r : Reading}
    {name : String} (hbefore : ∀ known, before = some known → Markup.IsValue known)
    (hr : r ∈ readings before es) (hname : r.entity = some name) : Markup.IsValue name := by
  induction es generalizing before with
  | nil => cases hr
  | cons e es ih =>
    have hentity : ∀ known, e.entity before = some known → Markup.IsValue known := by
      intro known hknown
      unfold Entry.entity at hknown
      split_ifs at hknown
      · exact Markup.isValue_of_get? hknown
      · exact hbefore known hknown
    rcases List.mem_cons.mp hr with rfl | hr
    · exact hentity name hname
    · exact ih hentity hr

theorem exists_mem_of_lastEntity {rs : List Reading} {name : String}
    (h : lastEntity rs = some name) : ∃ r ∈ rs, r.entity = some name := by
  obtain ⟨r, hlast, hentity⟩ := Option.bind_eq_some_iff.mp h
  exact ⟨r, List.mem_of_getLast? hlast, hentity⟩

end Transcript

open Transcript in
/-- The entity of every scope of a source is named by an attribute value. -/
theorem isValue_entity {lines : List String} {scope : Scope}
    (h : scope ∈ (assembleScopes lines).value) {name : String} (hname : scope.entity = some name) :
    Markup.IsValue name := by
  have hreading : ∃ r ∈ ofLines lines, r.entity = some name := by
    rw [value_assembleScopes] at h
    rcases List.mem_append.mp h with h | h
    · obtain ⟨piece, hpiece, rfl⟩ := List.mem_map.mp h
      obtain ⟨r, hr, hentity⟩ := exists_mem_of_lastEntity hname
      refine ⟨r, ?_, hentity⟩
      rw [← (cut_cutBehind Reading.closes (ofLines lines)).whole]
      exact List.mem_append_left _ (List.mem_flatten.mpr ⟨piece, hpiece, hr⟩)
    · rw [List.mem_singleton.mp h] at hname
      exact exists_mem_of_lastEntity hname
  obtain ⟨r, hr, hentity⟩ := hreading
  exact isValue_of_mem_readings (by simp) hr hentity

/-! ## Paths of documents -/

namespace Path

/-- A text in front without slashes only makes the first name longer. -/
theorem ofText_append_of_slash_not_mem {front text : String} (hfront : '/' ∉ front.toList)
    {head : List Char} {tail : List (List Char)} (h : Continues text.toList head tail) :
    ofText (front ++ text) =
      ⟨.here, String.ofList (front.toList ++ head) :: (tail.filter isName).map String.ofList⟩ := by
  obtain ⟨c, rest, htext, hc⟩ := h.start
  have hanchor : anchorOf (front ++ text).toList = .here := by
    rw [String.toList_append, htext, anchorOf_append _ hc]
    exact anchorOf_of_slash_not_mem hfront
  have hnames : (Text.splitAtEach '/' (front ++ text).toList).filter isName =
      (front.toList ++ head) :: tail.filter isName := by
    rw [String.toList_append, Text.splitAtEach_append_of_not_mem hfront h.pieces,
      List.filter_cons_of_pos (isName_append h.name)]
  unfold ofText
  rw [hanchor]
  exact congrArg _ (congrArg _ hnames)

/-- The path is that of a name directly inside the directory, and writing there changes nothing
else. -/
structure StaysInside (directory path : Path) (name : String) : Prop where
  entry : path = directory.entry name
  writes : ∀ {before made : FileTree}, before.provideDirectories directory = (.ok (), made) →
    ∃ location, LeadsTo made directory location ∧ WritesOnly made path (location ++ [name])

/-- The path leads on from a name inside the directory, and nothing is written there unless this is
a directory. -/
structure LeadsFurther (directory path : Path) (name : String) : Prop where
  further : ∃ more, more ≠ [] ∧ path = ⟨directory.anchor, directory.names ++ name :: more⟩
  writes : ∀ {tree : FileTree} {location content}, LeadsTo tree directory location →
    tree.entryAt (location ++ [name]) ≠ some .directory →
      ∃ error, tree.write path content = (.error error, tree)

theorem LeadsFurther.ne_entry {directory path : Path} {name : String}
    (h : LeadsFurther directory path name) (other : String) : path ≠ directory.entry other := by
  obtain ⟨more, hmore, hpath⟩ := h.further
  intro hentry
  rw [hpath] at hentry
  have hnames : name :: more = [other] := List.append_cancel_left (Path.mk.inj hentry).2
  exact hmore (List.cons.inj hnames).2

theorem staysInside_entry (directory : Path) {name : String} (hname : name ≠ "..") :
    StaysInside directory (directory.entry name) name := by
  refine ⟨rfl, fun {before made} hmade => ?_⟩
  obtain ⟨location, hleads⟩ := leadsTo_provideDirectories hmade
  exact ⟨location, hleads, hleads.writesOnly_entry hname⟩

theorem leadsFurther_names (directory : Path) {name : String} (hname : name ≠ "..")
    {more : List String} (hmore : more ≠ []) :
    LeadsFurther directory ⟨directory.anchor, directory.names ++ name :: more⟩ name :=
  ⟨⟨more, hmore, rfl⟩, fun {_ _ content} hleads hentry =>
    hleads.write_below hname hmore hentry content⟩

end Path

namespace Scope

/-- A slash can only come from the name of a closed scope. -/
theorem slash_not_mem_ending_iff (scope : Scope) :
    '/' ∉ scope.ending.toList ↔ scope.trailing = true ∨ scope.HasPlainName := by
  constructor
  · intro h
    by_cases htrailing : scope.trailing = true
    · exact Or.inl htrailing
    right
    intro name hentity hslash
    have hname : name ≠ "" := by
      rintro rfl
      cases hslash
    have hending : scope.ending = "_" ++ name ++ ".dot" := by
      unfold ending
      rw [hentity]
      simp [htrailing, hname]
    rw [hending] at h
    simp [hslash] at h
  · rintro (htrailing | hplain)
    · exact slash_not_mem_ending_of_trailing htrailing
    · exact hplain.slash_not_mem_ending

/-- An ending with a slash leads to a name below another one. -/
theorem continues_of_slash_mem {scope : Scope} (h : '/' ∈ scope.ending.toList) :
    ∃ head tail, Path.Continues scope.ending.toList ('_' :: head) tail ∧
      tail.filter Path.isName ≠ [] := by
  rcases scope.ending_cases with hending | ⟨name, -, hending⟩
  · have hdot : '/' ∉ ".dot".toList := by decide
    rw [hending] at h
    exact absurd h hdot
  rw [hending] at h ⊢
  obtain ⟨head, tail, hcontinues⟩ := continues_name name
  refine ⟨head, tail, hcontinues, ?_⟩
  have hdot : '/' ∉ ".dot".toList := by decide
  have hslash : '/' ∈ ("_" ++ name).toList := by
    rw [String.toList_append, List.mem_append] at h
    exact h.resolve_right hdot
  obtain ⟨first, between, last, hpieces⟩ := Text.splitAtEach_append_last hslash hdot
  have htail : tail = between ++ [last ++ ".dot".toList] := by
    have hboth := hcontinues.pieces
    rw [String.toList_append, hpieces] at hboth
    exact (List.cons.inj hboth).2.symm
  -- the last piece ends in the suffix, so it is not dropped
  have hname : Path.isName (last ++ ".dot".toList) = true :=
    Path.isName_append ⟨'d', by decide, by decide⟩
  rw [htail, List.filter_append, List.filter_cons_of_pos hname]
  simp

theorem leadsFurther_documentPath (directory : Path) {source : Path} {scope : Scope}
    (hs : '/' ∉ source.stem.toList) (h : '/' ∈ scope.ending.toList) :
    ∃ name, Path.LeadsFurther directory
      (SourceRun.documentPath directory (Dot.documentName source scope)) name := by
  obtain ⟨head, tail, hcontinues, hmore⟩ := continues_of_slash_mem h
  have hpath : SourceRun.documentPath directory (Dot.documentName source scope) =
      ⟨directory.anchor, directory.names ++ String.ofList (source.stem.toList ++ '_' :: head) ::
        (tail.filter Path.isName).map String.ofList⟩ := by
    unfold SourceRun.documentPath Path.child
    rw [documentName_append, Path.ofText_append_of_slash_not_mem hs hcontinues]
    rfl
  have hname : String.ofList (source.stem.toList ++ '_' :: head) ≠ ".." := by
    intro hdots
    have hmem : '_' ∈ (String.ofList (source.stem.toList ++ '_' :: head)).toList := by simp
    rw [hdots] at hmem
    revert hmem
    decide
  rw [hpath]
  exact ⟨_, Path.leadsFurther_names directory hname (by simpa using hmore)⟩

end Scope

/-- **The document of a scope lies directly in the output directory exactly if the scope is trailing
or its entity has no slash in its name.**  Writing it then changes nothing but this one name in the
directory and cannot fail for want of a directory; otherwise its path leads further down, and
nothing is written unless a directory stands in the way already. -/
theorem stays_inside_iff {source : Path} (hs : source.IsPlain) {lines : List String}
    {scope : Scope} (h : scope ∈ (assembleScopes lines).value) (directory : Path) :
    (∀ name, scope.entity = some name → Markup.IsValue name) ∧
      ((∃ name, SourceRun.documentPath directory (Dot.documentName source scope) =
          directory.entry name) ↔ scope.trailing = true ∨ scope.HasPlainName) ∧
      (scope.trailing = true ∨ scope.HasPlainName → Path.StaysInside directory
        (SourceRun.documentPath directory (Dot.documentName source scope))
        (source.stem ++ scope.ending)) ∧
      (¬ (scope.trailing = true ∨ scope.HasPlainName) → ∃ name, Path.LeadsFurther directory
        (SourceRun.documentPath directory (Dot.documentName source scope)) name) := by
  have hstem : '/' ∉ source.stem.toList := hs.slash_not_mem_stem
  have hinside : scope.trailing = true ∨ scope.HasPlainName → Path.StaysInside directory
      (SourceRun.documentPath directory (Dot.documentName source scope))
      (source.stem ++ scope.ending) := by
    intro hplain
    rw [Scope.documentPath_eq_entry directory hstem (scope.slash_not_mem_ending_iff.mpr hplain)]
    exact Path.staysInside_entry directory (Scope.append_ending_ne source.stem scope)
  have hfurther : ¬ (scope.trailing = true ∨ scope.HasPlainName) → ∃ name,
      Path.LeadsFurther directory
        (SourceRun.documentPath directory (Dot.documentName source scope)) name := by
    intro hplain
    rw [← scope.slash_not_mem_ending_iff, not_not] at hplain
    exact Scope.leadsFurther_documentPath directory hstem hplain
  refine ⟨fun name hname => isValue_entity h hname, ⟨?_, ?_⟩, hinside, hfurther⟩
  · rintro ⟨name, hentry⟩
    by_contra hplain
    obtain ⟨first, hleads⟩ := hfurther hplain
    exact hleads.ne_entry name hentry
  · intro hplain
    exact ⟨_, (hinside hplain).entry⟩

/-! ## A name with a slash -/

namespace SlashedName

/-- One entity, named by a value with a slash, and a graph. -/
def lines : List String := ["<Entity Name=\"a/b\">", "</FlowGraph>"]

def source : Path := .ofText "m.xml"

def directory : Path := .ofText "out"

/-- The scope that the second line closes. -/
def scope : Scope := ⟨some "a/b", .empty, [], false⟩

theorem scope_mem : scope ∈ (assembleScopes lines).value := by decide +kernel

end SlashedName

theorem slashedName_stays_inside_iff :
    SlashedName.source.IsPlain ∧ SlashedName.scope ∈ (assembleScopes SlashedName.lines).value ∧
      ((∃ name, SourceRun.documentPath SlashedName.directory
          (Dot.documentName SlashedName.source SlashedName.scope) =
            SlashedName.directory.entry name) ↔
        SlashedName.scope.trailing = true ∨ SlashedName.scope.HasPlainName) :=
  ⟨Path.isPlain_ofText _, SlashedName.scope_mem,
    (stays_inside_iff (Path.isPlain_ofText _) SlashedName.scope_mem SlashedName.directory).2.1⟩

/-- A name in a source can lead out of the directory of the documents. -/
theorem not_forall_stays_inside :
    ¬ ∀ (source : Path) (lines : List String) (scope : Scope) (directory : Path),
      source.IsPlain → scope ∈ (assembleScopes lines).value →
        ∃ name, SourceRun.documentPath directory (Dot.documentName source scope) =
          directory.entry name := by
  intro hall
  obtain ⟨name, hname⟩ := hall SlashedName.source SlashedName.lines SlashedName.scope
    SlashedName.directory (Path.isPlain_ofText _) SlashedName.scope_mem
  have hpath : SourceRun.documentPath SlashedName.directory
      (Dot.documentName SlashedName.source SlashedName.scope) =
        ⟨.here, ["out", "m_a", "b.dot"]⟩ := by
    decide +kernel
  have hnames : ["out", "m_a", "b.dot"] = ["out"] ++ [name] :=
    (Path.mk.inj (hpath.symm.trans hname)).2
  cases hnames

end FlowAtlas
