import Mathlib.Data.List.Induction
import FlowAtlas.Files.Tree

/-!
# What file operations leave alone

Making directories adds directories and changes nothing that stands in a tree, and writing a file
changes what stands at one location only and no directory.  So a path that leads to a location keeps
leading there.

Main facts: `addsDirectories_provideDirectories`, `write_eq_ok` and `KeepsDirectories.locate`.
-/

namespace FlowAtlas

namespace FileTree

/-! ## Frames -/

/-- Whatever stands in a tree stands so in a later one. -/
structure Extends (before after : FileTree) : Prop where
  home : after.home = before.home
  entry : ∀ {location entry}, before.entryAt location = some entry →
    after.entryAt location = some entry

/-- The directories of a tree are directories of a later one. -/
structure KeepsDirectories (before after : FileTree) : Prop where
  home : after.home = before.home
  directory : ∀ {location}, before.entryAt location = some .directory →
    after.entryAt location = some .directory

theorem Extends.refl (tree : FileTree) : Extends tree tree := ⟨rfl, fun h => h⟩

theorem Extends.trans {a b c : FileTree} (hab : Extends a b) (hbc : Extends b c) : Extends a c :=
  ⟨hbc.home.trans hab.home, fun h => hbc.entry (hab.entry h)⟩

theorem Extends.keepsDirectories {before after : FileTree} (h : Extends before after) :
    KeepsDirectories before after :=
  ⟨h.home, fun hd => h.entry hd⟩

theorem KeepsDirectories.refl (tree : FileTree) : KeepsDirectories tree tree :=
  (Extends.refl tree).keepsDirectories

theorem KeepsDirectories.trans {a b c : FileTree} (hab : KeepsDirectories a b)
    (hbc : KeepsDirectories b c) : KeepsDirectories a c :=
  ⟨hbc.home.trans hab.home, fun h => hbc.directory (hab.directory h)⟩

section Locate

variable {before after : FileTree}

theorem step_eq_ok {tree : FileTree} {location next : Location} {name : String}
    (h : tree.step location name = .ok next) :
    tree.entryAt location = some .directory ∧ name.utf8ByteSize ≤ maxNameBytes ∧
      next = if name = ".." then location.dropLast else location ++ [name] := by
  unfold step at h
  split at h
  · cases h
  · cases h
  · rename_i hentry
    by_cases hlong : maxNameBytes < name.utf8ByteSize
    · rw [if_pos hlong] at h
      cases h
    · rw [if_neg hlong] at h
      exact ⟨hentry, by omega, (Except.ok.inj h).symm⟩

theorem walk_append (tree : FileTree) (location : Location) (names more : List String) :
    tree.walk location (names ++ more) =
      tree.walk location names >>= fun middle => tree.walk middle more := by
  induction names generalizing location with
  | nil => rfl
  | cons name names ih =>
    rw [List.cons_append, FileTree.walk, FileTree.walk]
    cases tree.step location name with
    | error fault => rfl
    | ok next => exact ih next

/-- Where a name inside a directory leads, unless the name leads back. -/
theorem locate_entry {tree : FileTree} {path : Path} {name : String} {location : Location}
    (hname : name ≠ "..") (h : tree.locate (path.entry name) = .ok location) :
    ∃ directory, tree.walk (tree.start path.anchor) path.names = .ok directory ∧
      location = directory ++ [name] := by
  unfold FileTree.locate at h
  split_ifs at h with hlong
  change tree.walk (tree.start path.anchor) (path.names ++ [name]) = _ at h
  rw [walk_append] at h
  cases hwalk : tree.walk (tree.start path.anchor) path.names with
  | error fault =>
    rw [hwalk] at h
    cases h
  | ok directory =>
    rw [hwalk] at h
    change tree.walk directory [name] = _ at h
    refine ⟨directory, rfl, ?_⟩
    unfold FileTree.walk at h
    cases hstep : tree.step directory name with
    | error fault =>
      rw [hstep] at h
      cases h
    | ok next =>
      rw [hstep] at h
      obtain ⟨-, -, hnext⟩ := step_eq_ok hstep
      rw [if_neg hname] at hnext
      rw [← hnext]
      exact (Except.ok.inj h).symm

/-- A walk asks about directories only. -/
theorem KeepsDirectories.walk (h : KeepsDirectories before after) {names : List String}
    {location last : Location} (hw : before.walk location names = .ok last) :
    after.walk location names = .ok last := by
  induction names generalizing location with
  | nil => exact hw
  | cons name names ih =>
    unfold FileTree.walk at hw ⊢
    cases hstep : before.step location name with
    | error fault =>
      rw [hstep] at hw
      cases hw
    | ok next =>
      rw [hstep] at hw
      obtain ⟨hentry, hname, hnext⟩ := step_eq_ok hstep
      have hafter : after.step location name = .ok next := by
        unfold step
        rw [h.directory hentry, hnext]
        simp only [if_neg (Nat.not_lt.mpr hname)]
      rw [hafter]
      exact ih hw

/-- **A path keeps leading to its location** while directories are kept. -/
theorem KeepsDirectories.locate (h : KeepsDirectories before after) {path : Path}
    {location : Location} (hl : before.locate path = .ok location) :
    after.locate path = .ok location := by
  unfold FileTree.locate at hl ⊢
  split_ifs at hl ⊢ with hlong
  have hstart : after.start path.anchor = before.start path.anchor := by
    unfold start
    rw [h.home]
  rw [hstart]
  exact h.walk hl

end Locate

/-! ## Setting an entry -/

section Set

variable {tree : FileTree} {location : Location}

theorem entryAt_set (h : location ≠ []) (entry : Entry) (l : Location) :
    (tree.set location entry).entryAt l = if l = location then some entry else tree.entryAt l := by
  unfold entryAt set
  rw [OrderedMap.get?_insert]
  by_cases hl : l = []
  · rw [if_pos hl, if_pos hl, if_neg]
    rintro rfl
    exact h hl
  · rw [if_neg hl, if_neg hl]

theorem ne_nil_of_entryAt_ne (h : tree.entryAt location ≠ some .directory) : location ≠ [] := by
  rintro rfl
  exact h rfl

theorem extends_set (h : tree.entryAt location = none) (entry : Entry) :
    Extends tree (tree.set location entry) := by
  refine ⟨rfl, fun {l e} he => ?_⟩
  rw [entryAt_set (ne_nil_of_entryAt_ne (by rw [h]; simp)), if_neg]
  · exact he
  · rintro rfl
    rw [h] at he
    cases he

theorem keepsDirectories_set (h : tree.entryAt location ≠ some .directory) (entry : Entry) :
    KeepsDirectories tree (tree.set location entry) := by
  refine ⟨rfl, fun {l} hl => ?_⟩
  rw [entryAt_set (ne_nil_of_entryAt_ne h), if_neg]
  · exact hl
  · rintro rfl
    exact h hl

end Set

/-! ## Making directories -/

theorem extends_makeDirectory {tree made : FileTree} {path : Path}
    (h : tree.makeDirectory path = .ok made) : Extends tree made := by
  unfold makeDirectory at h
  cases hlocate : tree.locate path with
  | error fault =>
    rw [hlocate] at h
    cases h
  | ok location =>
    rw [hlocate] at h
    change (if (tree.entryAt location).isSome then _ else _) = _ at h
    split_ifs at h with hentry
    cases h
    rw [Option.not_isSome_iff_eq_none] at hentry
    exact extends_set hentry .directory

/-- What a tree has beyond an earlier one are directories. -/
structure AddsDirectories (before after : FileTree) : Prop extends Extends before after where
  added : ∀ {location entry}, after.entryAt location = some entry →
    before.entryAt location = some entry ∨ entry = .directory

theorem AddsDirectories.refl (tree : FileTree) : AddsDirectories tree tree :=
  ⟨.refl tree, Or.inl⟩

theorem AddsDirectories.trans {a b c : FileTree} (hab : AddsDirectories a b)
    (hbc : AddsDirectories b c) : AddsDirectories a c := by
  refine ⟨hab.toExtends.trans hbc.toExtends, fun {location entry} h => ?_⟩
  rcases hbc.added h with h | h
  · exact hab.added h
  · exact Or.inr h

/-- No file comes or goes. -/
theorem AddsDirectories.file_iff {before after : FileTree} (h : AddsDirectories before after)
    {location : Location} {content : List UInt8} :
    after.entryAt location = some (.file content) ↔
      before.entryAt location = some (.file content) := by
  constructor
  · intro hafter
    rcases h.added hafter with hentry | hentry
    · exact hentry
    · cases hentry
  · exact fun hentry => h.entry hentry

theorem addsDirectories_makeDirectory {tree made : FileTree} {path : Path}
    (h : tree.makeDirectory path = .ok made) : AddsDirectories tree made := by
  refine ⟨extends_makeDirectory h, fun {location entry} hentry => ?_⟩
  unfold makeDirectory at h
  cases hlocate : tree.locate path with
  | error fault =>
    rw [hlocate] at h
    cases h
  | ok place =>
    rw [hlocate] at h
    change (if (tree.entryAt place).isSome then _ else _) = _ at h
    split_ifs at h with hthere
    cases h
    have hnil : place ≠ [] := by
      rintro rfl
      exact hthere rfl
    rw [entryAt_set hnil] at hentry
    split_ifs at hentry
    · exact Or.inr (Option.some.inj hentry).symm
    · exact Or.inl hentry

theorem addsDirectories_provideDirectory (tree : FileTree) (path : Path) :
    AddsDirectories tree (tree.provideDirectory path).2 := by
  unfold provideDirectory
  split
  · rename_i made hmade
    exact addsDirectories_makeDirectory hmade
  · split
    · exact .refl tree
    · exact .refl tree

/-- Along the names of a path, from its end to the first directory that is there. -/
theorem addsDirectories_provideAll (tree : FileTree) (anchor : Anchor) (names : List String) :
    AddsDirectories tree (tree.provideAll anchor names).2 := by
  induction names using List.reverseRecOn with
  | nil =>
    unfold provideAll
    split
    · exact .refl tree
    · exact addsDirectories_provideDirectory tree _
  | append_singleton names name ih =>
    unfold provideAll
    split
    · rw [dif_neg (by simp)]
      rw [List.dropLast_concat]
      rcases habove : tree.provideAll anchor names with ⟨result, above⟩
      rw [habove] at ih
      cases result with
      | error e => exact ih
      | ok _ => exact ih.trans (addsDirectories_provideDirectory above _)
    · exact addsDirectories_provideDirectory tree _

/-- **Providing a directory adds nothing but directories.** -/
theorem addsDirectories_provideDirectories (tree : FileTree) (path : Path) :
    AddsDirectories tree (tree.provideDirectories path).2 := by
  have h := addsDirectories_provideAll tree path.anchor path.names
  unfold provideDirectories
  split
  · exact .refl tree
  · split
    · rename_i made hmade
      rw [hmade] at h
      exact h
    · rename_i made hmade
      rw [hmade] at h
      exact h

theorem extends_provideDirectories (tree : FileTree) (path : Path) :
    Extends tree (tree.provideDirectories path).2 :=
  (addsDirectories_provideDirectories tree path).toExtends

theorem addsDirectories_of_provided {tree made : FileTree} {path : Path}
    (h : tree.provideDirectories path = (.ok (), made)) : AddsDirectories tree made := by
  have hadds := addsDirectories_provideDirectories tree path
  rw [h] at hadds
  exact hadds

theorem hasNul_of_provideDirectories {tree made : FileTree} {path : Path}
    (h : tree.provideDirectories path = (.ok (), made)) : path.hasNul = false := by
  unfold provideDirectories at h
  split_ifs at h with hnul
  · cases h
  · exact Bool.eq_false_iff.mpr hnul

/-! ## Writing and reading -/

/-- A file is written where its path leads, unless a directory stands there. -/
theorem write_eq_ok {tree after : FileTree} {path : Path} {content : List UInt8}
    (h : tree.write path content = (.ok (), after)) :
    path.hasNul = false ∧
      ∃ location, tree.locate path = .ok location ∧
        tree.entryAt location ≠ some .directory ∧ after = tree.set location (.file content) := by
  unfold write at h
  cases hnul : path.hasNul with
  | true =>
    rw [hnul] at h
    cases h
  | false =>
    cases hlocate : tree.locate path with
    | error fault =>
      rw [hnul, hlocate] at h
      cases h
    | ok location =>
      rw [hnul, hlocate] at h
      by_cases hentry : tree.entryAt location = some .directory
      · simp [hentry] at h
      · simp only [Bool.false_eq_true, if_false, if_neg hentry, Prod.mk.injEq, true_and] at h
        exact ⟨rfl, location, rfl, hentry, h.symm⟩

/-- A write that fails leaves everything as it is. -/
theorem eq_of_write_eq_error {tree after : FileTree} {path : Path} {content : List UInt8}
    {error : FileError} (h : tree.write path content = (.error error, after)) : after = tree := by
  unfold write at h
  split_ifs at h
  · exact (Prod.mk.inj h).2.symm
  · split at h
    · exact (Prod.mk.inj h).2.symm
    · split_ifs at h
      · exact (Prod.mk.inj h).2.symm
      · cases h

theorem read_eq_ok {tree : FileTree} {path : Path} {location : Location} {content : List UInt8}
    (hnul : path.hasNul = false) (hlocate : tree.locate path = .ok location)
    (hentry : tree.entryAt location = some (.file content)) : tree.read path = .ok content := by
  unfold read
  rw [hnul, hlocate]
  simp only [Bool.false_eq_true, if_false, hentry]

/-- A file that can be read has a path without NUL and stands where this leads. -/
theorem exists_of_read_eq_ok {tree : FileTree} {path : Path} {content : List UInt8}
    (h : tree.read path = .ok content) :
    path.hasNul = false ∧ ∃ location, tree.locate path = .ok location ∧
      tree.entryAt location = some (.file content) := by
  unfold read at h
  split_ifs at h with hnul
  refine ⟨Bool.eq_false_iff.mpr hnul, ?_⟩
  cases hlocate : tree.locate path with
  | error fault =>
    rw [hlocate] at h
    cases h
  | ok location =>
    rw [hlocate] at h
    refine ⟨location, rfl, ?_⟩
    dsimp only at h
    split at h
    · cases h
    · cases h
    · rename_i found hentry
      cases h
      exact hentry

/-- A file keeps its content while things are added. -/
theorem Extends.read {before after : FileTree} (h : Extends before after) {path : Path}
    {content : List UInt8} (hread : before.read path = .ok content) :
    after.read path = .ok content := by
  obtain ⟨hnul, location, hlocate, hentry⟩ := exists_of_read_eq_ok hread
  exact read_eq_ok hnul (h.keepsDirectories.locate hlocate) (h.entry hentry)

end FileTree

end FlowAtlas
