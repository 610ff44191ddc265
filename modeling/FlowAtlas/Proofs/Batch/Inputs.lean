import Mathlib.Data.List.Nodup
import FlowAtlas.Batch
import FlowAtlas.Proofs.Data.KeyOrder
import FlowAtlas.Proofs.Files.Directory
import FlowAtlas.Proofs.Files.SoundPaths

/-!
# What inputs stand for

A path that leads to a directory stands for the files that lie directly in it and whose names have
the right ending, each once; any other path stands for itself.

Main facts: `mem_namesIn` (what a listing holds), `exists_kept_of_filesAmong` and
`standsFor_of_collectInputs`.
-/

namespace FlowAtlas

namespace FileTree

/-! ## Listings -/

/-- No name in the tree has a NUL, as no system allows one. -/
def IsProper (tree : FileTree) : Prop :=
  ∀ location entry, tree.entryAt location = some entry → ∀ name ∈ location, '\x00' ∉ name.toList

theorem isProper_of_keys {tree : FileTree}
    (h : ∀ location ∈ tree.entries.keys, ∀ name ∈ location, '\x00' ∉ name.toList) :
    tree.IsProper := by
  intro location entry hentry
  by_cases hkey : location ∈ tree.entries.keys
  · exact h location hkey
  · unfold entryAt at hentry
    rw [OrderedMap.get?_eq_none_iff.mpr hkey] at hentry
    split_ifs at hentry with hnil
    simp [hnil]

section Listing

variable {tree : FileTree} {location : Location} {path : Path} {name : String}

theorem dropLast_getLast?_iff {l : Location} :
    l.dropLast = location ∧ l.getLast? = some name ↔ l = location ++ [name] := by
  constructor
  · rintro ⟨hfront, hlast⟩
    obtain ⟨before, rfl⟩ := List.getLast?_eq_some_iff.mp hlast
    rw [List.dropLast_concat] at hfront
    rw [hfront]
  · rintro rfl
    exact ⟨List.dropLast_concat, List.getLast?_concat⟩

theorem mem_namesIn : name ∈ tree.namesIn location ↔ location ++ [name] ∈ tree.entries.keys := by
  unfold namesIn sortTexts
  rw [(perm_sortByText id _).mem_iff, List.mem_filterMap]
  constructor
  · rintro ⟨l, hl, hname⟩
    split_ifs at hname with hfront
    obtain rfl := dropLast_getLast?_iff.mp ⟨hfront, hname⟩
    exact hl
  · intro h
    refine ⟨_, h, ?_⟩
    rw [if_pos List.dropLast_concat, List.getLast?_concat]

theorem nodup_namesIn (tree : FileTree) (location : Location) : (tree.namesIn location).Nodup := by
  unfold namesIn sortTexts
  rw [(perm_sortByText id _).nodup_iff]
  refine List.Nodup.filterMap ?_ tree.entries.nodup
  intro l l' name h h'
  simp only [Option.mem_def] at h h'
  split_ifs at h h' with hfront hfront'
  rw [dropLast_getLast?_iff.mp ⟨hfront, h⟩, dropLast_getLast?_iff.mp ⟨hfront', h'⟩]

theorem mem_namesIn_of_entryAt {entry : Entry}
    (h : tree.entryAt (location ++ [name]) = some entry) : name ∈ tree.namesIn location := by
  unfold entryAt at h
  rw [if_neg (by simp)] at h
  rw [mem_namesIn]
  by_contra hkey
  rw [OrderedMap.get?_eq_none_iff.mpr hkey] at h
  cases h

/-- Whether the system says that a file lies under the name. -/
def hasFile (tree : FileTree) (path : Path) (name : String) : Bool :=
  match tree.status (path.entry name) with
  | .ok (some (.file _)) => true
  | _ => false

/-- Every name was asked for, and the files among them are kept in order. -/
theorem map_fst_filesAmong {names : List String} {files : List (Path × List UInt8)}
    (h : tree.filesAmong path names = .ok files) :
    files.map Prod.fst = (names.filter (tree.hasFile path)).map path.entry ∧
      ∀ name ∈ names, ∃ entry, tree.status (path.entry name) = .ok entry := by
  induction names generalizing files with
  | nil =>
    cases h
    exact ⟨rfl, by simp⟩
  | cons name names ih =>
    unfold filesAmong at h
    cases hstatus : tree.status (path.entry name) with
    | error e =>
      rw [hstatus] at h
      cases h
    | ok entry =>
      cases hrest : tree.filesAmong path names with
      | error e =>
        rw [hstatus, hrest] at h
        cases h
      | ok others =>
        obtain ⟨hothers, hasked⟩ := ih hrest
        rw [hstatus, hrest] at h
        refine ⟨?_, ?_⟩
        · rw [List.filter_cons]
          cases entry with
          | none =>
            cases h
            simpa [hasFile, hstatus] using hothers
          | some entry =>
            cases entry with
            | directory =>
              cases h
              simpa [hasFile, hstatus] using hothers
            | file content =>
              cases h
              simpa [hasFile, hstatus] using hothers
        · intro other hother
          rcases List.mem_cons.mp hother with rfl | hother
          · exact ⟨entry, hstatus⟩
          · exact hasked other hother

/-- What stands under a name in a directory is what the system says of it. -/
theorem LeadsTo.status_entry (hleads : LeadsTo tree path location) (hname : name ≠ "..")
    (hnul : (path.entry name).hasNul = false) {entry : Option Entry}
    (h : tree.status (path.entry name) = .ok entry) :
    entry = tree.entryAt (location ++ [name]) := by
  unfold status at h
  rw [hnul] at h
  rcases hleads.locate_entry hname with hlocate | hlocate
  · rw [hlocate] at h
    exact (Except.ok.inj h).symm
  · rw [hlocate] at h
    cases h

end Listing

end FileTree

open FileTree

/-! ## Inputs -/

/-- The sources that a path stands for. -/
inductive StandsFor (tree : FileTree) (path : Path) : List Path → Prop
  | directory {location : Location} {names : List String} (leads : LeadsTo tree path location)
      (nodup : names.Nodup)
      (files : ∀ name, name ∈ names ↔ Text.endsIn name ".xml" = true ∧
        ∃ content, tree.entryAt (location ++ [name]) = some (.file content)) :
      StandsFor tree path (names.map path.entry)
  | other (leads : ∀ location, ¬ LeadsTo tree path location) : StandsFor tree path [path]

section Inputs

variable {tree : FileTree} {path : Path} {sources : List Path}

/-- The files of a directory that a path stands for, as they are listed. -/
def listedNames (tree : FileTree) (path : Path) : List String :=
  ((tree.list path).filter fun name => Text.endsIn name ".xml").filter (tree.hasFile path)

theorem ne_dots_of_endsIn {name : String} (h : Text.endsIn name ".xml" = true) : name ≠ ".." := by
  rintro rfl
  revert h
  decide

theorem hasNul_entry_of_entryAt (htree : tree.IsProper) (hnul : path.hasNul = false)
    {location : Location} {name : String} {entry : Entry}
    (h : tree.entryAt (location ++ [name]) = some entry) : (path.entry name).hasNul = false :=
  Path.hasNul_entry hnul (htree _ _ h name (by simp))

theorem mem_listedNames (htree : tree.IsProper) (hnul : path.hasNul = false)
    {location : Location} (hleads : LeadsTo tree path location)
    (hasked : ∀ name ∈ (tree.list path).filter fun name => Text.endsIn name ".xml",
      ∃ entry, tree.status (path.entry name) = .ok entry) (name : String) :
    name ∈ listedNames tree path ↔ Text.endsIn name ".xml" = true ∧
      ∃ content, tree.entryAt (location ++ [name]) = some (.file content) := by
  have hlist : tree.list path = tree.namesIn location := by
    unfold list
    rw [hleads.locate]
  unfold listedNames
  rw [List.mem_filter, List.mem_filter]
  constructor
  · rintro ⟨⟨-, hending⟩, hfile⟩
    refine ⟨hending, ?_⟩
    unfold hasFile at hfile
    split at hfile
    · rename_i content hstatus
      have hentry : (path.entry name).hasNul = false := by
        by_contra hmem
        rw [Bool.not_eq_false] at hmem
        unfold status at hstatus
        rw [if_pos hmem] at hstatus
        cases hstatus
      exact ⟨content, (hleads.status_entry (ne_dots_of_endsIn hending) hentry hstatus).symm⟩
    · cases hfile
  · rintro ⟨hending, content, hentry⟩
    have hmem : name ∈ tree.list path := hlist ▸ mem_namesIn_of_entryAt hentry
    refine ⟨⟨hmem, hending⟩, ?_⟩
    obtain ⟨entry, hstatus⟩ := hasked name (List.mem_filter.mpr ⟨hmem, hending⟩)
    have hsame := hleads.status_entry (ne_dots_of_endsIn hending)
      (hasNul_entry_of_entryAt htree hnul hentry) hstatus
    unfold hasFile
    rw [hstatus, hsame, hentry]

theorem standsFor_of_sourcesAt (htree : tree.IsProper) (hnul : path.hasNul = false)
    (h : sourcesAt tree path = .ok sources) :
    StandsFor tree path sources ∧ ∀ source ∈ sources, source.hasNul = false := by
  unfold sourcesAt at h
  cases hdirectory : tree.isDirectory path with
  | error e =>
    rw [hdirectory] at h
    cases h
  | ok isThere =>
    rw [hdirectory] at h
    cases isThere with
    | false =>
      cases h
      refine ⟨.other fun location hleads => ?_, by simpa using hnul⟩
      rw [hleads.isDirectory hnul] at hdirectory
      cases hdirectory
    | true =>
      obtain ⟨location, hleads⟩ := leadsTo_of_isDirectory hdirectory
      change (do return (← tree.filesAmong path
        ((tree.list path).filter fun name => Text.endsIn name ".xml")).map Prod.fst) = _ at h
      cases hfiles : tree.filesAmong path
          ((tree.list path).filter fun name => Text.endsIn name ".xml") with
      | error e =>
        rw [hfiles] at h
        cases h
      | ok files =>
        rw [hfiles] at h
        obtain ⟨hmap, hasked⟩ := map_fst_filesAmong hfiles
        have hnames := mem_listedNames htree hnul hleads hasked
        obtain rfl : (listedNames tree path).map path.entry = sources :=
          hmap.symm.trans (Except.ok.inj h)
        have hnodup : (listedNames tree path).Nodup := by
          unfold listedNames list
          rw [hleads.locate]
          exact ((nodup_namesIn tree location).filter _).filter _
        refine ⟨.directory hleads hnodup hnames, ?_⟩
        intro source hsource
        obtain ⟨name, hname, rfl⟩ := List.mem_map.mp hsource
        obtain ⟨-, content, hentry⟩ := (hnames name).mp hname
        exact hasNul_entry_of_entryAt htree hnul hentry

/-- **The sources of a run are those that its inputs stand for, one behind the other.** -/
theorem standsFor_of_collectInputs {paths : List Path} (htree : tree.IsProper)
    (hnul : ∀ path ∈ paths, path.hasNul = false) (h : collectInputs tree paths = .ok sources) :
    ∃ groups, List.Forall₂ (StandsFor tree) paths groups ∧ sources = groups.flatten ∧
      ∀ source ∈ sources, source.hasNul = false := by
  unfold collectInputs at h
  induction paths generalizing sources with
  | nil =>
    cases h
    exact ⟨[], .nil, rfl, by simp⟩
  | cons path paths ih =>
    rw [List.mapM_cons] at h
    cases hfirst : sourcesAt tree path with
    | error e =>
      rw [hfirst] at h
      cases h
    | ok group =>
      cases hrest : paths.mapM (sourcesAt tree) with
      | error e =>
        rw [hfirst, hrest] at h
        cases h
      | ok others =>
        rw [hfirst, hrest] at h
        obtain rfl : (group :: others).flatten = sources := Except.ok.inj h
        obtain ⟨hstands, hgroup⟩ :=
          standsFor_of_sourcesAt htree (hnul path (List.mem_cons_self ..)) hfirst
        have hothers : (paths.mapM (sourcesAt tree)).map List.flatten = .ok others.flatten := by
          rw [hrest]
          rfl
        obtain ⟨groups, hall, hflatten, hlater⟩ :=
          ih (fun later hmem => hnul later (List.mem_cons_of_mem _ hmem)) hothers
        refine ⟨group :: groups, .cons hstands hall, ?_, ?_⟩
        · rw [List.flatten_cons, List.flatten_cons, hflatten]
        · intro source hsource
          rw [List.flatten_cons, List.mem_append] at hsource
          rcases hsource with hsource | hsource
          · exact hgroup source hsource
          · exact hlater source hsource

end Inputs

end FlowAtlas
