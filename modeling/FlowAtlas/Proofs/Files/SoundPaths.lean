import FlowAtlas.Files.Tree
import FlowAtlas.Proofs.Files.PlainNames
import FlowAtlas.Tables.Load

/-!
# Paths that the system can be asked for

A path without NUL is refused by the system or not at all, so every failure of reading, making and
writing is one of the system's.  A path that a text denotes has no other characters than the text,
and no name of it is empty.

Main facts: `hasNul_ofText`, `name_join_ofText_ne` and `exists_system_of_write`.
-/

namespace FlowAtlas

namespace Path

/-! ## Paths without NUL -/

theorem hasNul_eq_false_iff {p : Path} :
    p.hasNul = false ↔ ∀ name ∈ p.names, '\x00' ∉ name.toList := by
  simp [hasNul]

theorem hasNul_ofText {text : String} (h : '\x00' ∉ text.toList) : (ofText text).hasNul = false := by
  rw [hasNul_eq_false_iff]
  intro name hname hnul
  obtain ⟨piece, hpiece, rfl⟩ := List.mem_map.mp hname
  rw [String.toList_ofList] at hnul
  exact h (Text.mem_of_mem_splitAtEach (List.mem_filter.mp hpiece).1 hnul)

theorem hasNul_join {p q : Path} (hp : p.hasNul = false) (hq : q.hasNul = false) :
    (p.join q).hasNul = false := by
  rw [hasNul_eq_false_iff] at hp hq ⊢
  unfold join
  split
  · intro name hname
    rcases List.mem_append.mp hname with hname | hname
    · exact hp name hname
    · exact hq name hname
  · exact hq

theorem hasNul_entry {p : Path} {name : String} (hp : p.hasNul = false)
    (hname : '\x00' ∉ name.toList) : (p.entry name).hasNul = false := by
  rw [hasNul_eq_false_iff] at hp ⊢
  intro other hother
  rcases List.mem_append.mp hother with hother | hother
  · exact hp other hother
  · rwa [List.mem_singleton.mp hother]

theorem nul_not_mem_stem {p : Path} (h : p.hasNul = false) : '\x00' ∉ p.stem.toList := by
  rw [hasNul_eq_false_iff] at h
  intro hmem
  have hname : '\x00' ∈ p.name.toList := mem_splitName_fst hmem
  unfold name at hname
  cases hlast : p.names.getLast? with
  | none => simp [hlast] at hname
  | some last =>
    rw [hlast] at hname
    exact h last (List.mem_of_getLast? hlast) hname

/-! ## Names that are not empty -/

theorem ne_empty_of_mem_names_ofText {text name : String} (h : name ∈ (ofText text).names) :
    name ≠ "" := by
  obtain ⟨piece, hpiece, rfl⟩ := List.mem_map.mp h
  have hne : piece ≠ [] := by
    have hkept := (List.mem_filter.mp hpiece).2
    rintro rfl
    simp at hkept
  intro hempty
  have hnil : piece = [] := by simpa using congrArg String.toList hempty
  exact hne hnil

theorem name_join_ofText_ne (p : Path) {text : String} (h : (ofText text).names ≠ []) :
    (p.join (ofText text)).name ≠ "" := by
  have hlast : (p.join (ofText text)).names.getLast? = (ofText text).names.getLast? := by
    obtain ⟨last, hlast⟩ := Option.isSome_iff_exists.mp (List.getLast?_isSome.mpr h)
    unfold join
    split
    · rw [List.getLast?_append, hlast, Option.some_or]
    · rfl
  unfold name
  rw [hlast, List.getLast?_eq_some_getLast h]
  exact ne_empty_of_mem_names_ofText (List.getLast_mem h)

/-- Where a path has a name, a suffix that is no path of its own can be put to it. -/
theorem exists_withSuffix {p : Path} (hname : p.name ≠ "") {format : String} (hformat : format ≠ "")
    (hslash : '/' ∉ format.toList) : ∃ image, p.withSuffix ("." ++ format) = .ok image := by
  have hsuffix : isSuffix ("." ++ format) = true := by
    have hne : "." ++ format ≠ "." := by
      intro h
      have hlength := congrArg String.length h
      rw [String.length_append] at hlength
      have hzero : format.length = 0 := by simpa using hlength
      exact hformat (by simpa using hzero)
    unfold isSuffix
    simp [hslash, hne]
  unfold withSuffix
  simp [hsuffix, hname]

end Path

/-! ## Failures of the system -/

namespace FileTree

variable {tree after : FileTree} {path : Path} {error : FileError}

theorem exists_system_of_read (hnul : path.hasNul = false) (h : tree.read path = .error error) :
    ∃ e, error = .system e := by
  unfold read at h
  rw [hnul] at h
  simp only [Bool.false_eq_true, if_false] at h
  split at h
  · cases h
    exact ⟨_, rfl⟩
  · split at h
    · cases h
      exact ⟨_, rfl⟩
    · cases h
      exact ⟨_, rfl⟩
    · cases h

theorem exists_system_of_readLines (hnul : path.hasNul = false)
    (h : Tables.readLines tree path = .error error) : ∃ e, error = .system e := by
  unfold Tables.readLines at h
  cases hread : tree.read path with
  | ok content =>
    rw [hread] at h
    cases h
  | error e =>
    rw [hread] at h
    cases h
    exact exists_system_of_read hnul hread

theorem exists_system_of_provideDirectories (hnul : path.hasNul = false)
    (h : tree.provideDirectories path = (.error error, after)) : ∃ e, error = .system e := by
  unfold provideDirectories at h
  rw [hnul] at h
  simp only [Bool.false_eq_true, if_false] at h
  split at h
  · cases h
  · cases h
    exact ⟨_, rfl⟩

theorem exists_system_of_write {content : List UInt8} (hnul : path.hasNul = false)
    (h : tree.write path content = (.error error, after)) : ∃ e, error = .system e := by
  unfold write at h
  rw [hnul] at h
  simp only [Bool.false_eq_true, if_false] at h
  split at h
  · cases h
    exact ⟨_, rfl⟩
  · split at h
    · cases h
      exact ⟨_, rfl⟩
    · cases h

end FileTree

end FlowAtlas
