import FlowAtlas.Proofs.Files.Frame

/-!
# Writing in a directory

Once a directory has been provided, writing under a name in it needs nothing else: the write changes
what stands under this name, and no directory can be missing.  A path that leads further down is
lost unless its next name is a directory as well.

Main facts: `leadsTo_provideDirectories`, `LeadsTo.writesOnly_entry` and `LeadsTo.write_below`.
-/

namespace FlowAtlas

namespace FileTree

/-- The path leads to the directory at a location. -/
structure LeadsTo (tree : FileTree) (path : Path) (location : Location) : Prop where
  locate : tree.locate path = .ok location
  directory : tree.entryAt location = some .directory

/-! ## A directory that is provided is there -/

section Provided

variable {tree made : FileTree} {path : Path}

theorem leadsTo_makeDirectory (h : tree.makeDirectory path = .ok made) :
    ∃ location, LeadsTo made path location := by
  have hextends : Extends tree made := extends_makeDirectory h
  unfold makeDirectory at h
  cases hlocate : tree.locate path with
  | error fault =>
    rw [hlocate] at h
    cases h
  | ok location =>
    rw [hlocate] at h
    change (if (tree.entryAt location).isSome then _ else _) = _ at h
    split_ifs at h with hentry
    cases h
    have hnil : location ≠ [] := by
      rintro rfl
      exact hentry rfl
    refine ⟨location, hextends.keepsDirectories.locate hlocate, ?_⟩
    rw [entryAt_set hnil, if_pos rfl]

theorem leadsTo_of_isDirectory (h : tree.isDirectory path = .ok true) :
    ∃ location, LeadsTo tree path location := by
  unfold isDirectory status at h
  split_ifs at h
  · cases h
  · split at h
    · rename_i location hlocate
      have hentry : tree.entryAt location = some .directory :=
        of_decide_eq_true (Except.ok.inj h)
      exact ⟨location, hlocate, hentry⟩
    · cases h
    · cases h

theorem hasNul_of_isDirectory (h : tree.isDirectory path = .ok true) : path.hasNul = false := by
  unfold isDirectory status at h
  split_ifs at h with hnul
  · cases h
  · exact Bool.eq_false_iff.mpr hnul

theorem LeadsTo.isDirectory {location : Location} (h : LeadsTo tree path location)
    (hnul : path.hasNul = false) : tree.isDirectory path = .ok true := by
  unfold FileTree.isDirectory status
  rw [hnul, h.locate]
  simp [h.directory, Except.map]

theorem leadsTo_provideDirectory (h : tree.provideDirectory path = (.ok (), made)) :
    ∃ location, LeadsTo made path location := by
  unfold provideDirectory at h
  split at h
  · rename_i hmade
    cases h
    exact leadsTo_makeDirectory hmade
  · split at h
    · rename_i hdirectory
      cases h
      exact leadsTo_of_isDirectory hdirectory
    · cases h

/-- Whatever is made above it, the directory itself is provided last. -/
theorem leadsTo_provideAll {anchor : Anchor} {names : List String}
    (h : tree.provideAll anchor names = (.ok (), made)) :
    ∃ location, LeadsTo made ⟨anchor, names⟩ location := by
  unfold provideAll at h
  split at h
  · split_ifs at h
    · cases h
    · split at h
      · cases h
      · exact leadsTo_provideDirectory h
  · exact leadsTo_provideDirectory h

/-- **A directory that was provided is there.** -/
theorem leadsTo_provideDirectories (h : tree.provideDirectories path = (.ok (), made)) :
    ∃ location, LeadsTo made path location := by
  unfold provideDirectories at h
  split_ifs at h
  · cases h
  · split at h
    · rename_i hmade
      cases h
      exact leadsTo_provideAll hmade
    · cases h

end Provided

/-! ## Names inside a directory -/

section Inside

variable {tree : FileTree} {path : Path} {location : Location} {name : String}

theorem LeadsTo.walk (h : LeadsTo tree path location) :
    tree.walk (tree.start path.anchor) path.names = .ok location := by
  have hlocate := h.locate
  unfold FileTree.locate at hlocate
  split_ifs at hlocate
  exact hlocate

theorem LeadsTo.step (h : LeadsTo tree path location) (hname : name ≠ "..") :
    tree.step location name =
      if maxNameBytes < name.utf8ByteSize then .error .nameTooLong
      else .ok (location ++ [name]) := by
  unfold FileTree.step
  rw [h.directory, if_neg hname]

/-- A name inside a directory leads there, if it is not too long. -/
theorem LeadsTo.locate_entry (h : LeadsTo tree path location) (hname : name ≠ "..") :
    tree.locate (path.entry name) = .ok (location ++ [name]) ∨
      tree.locate (path.entry name) = .error .nameTooLong := by
  unfold FileTree.locate
  split_ifs
  · exact Or.inr rfl
  · change tree.walk (tree.start path.anchor) (path.names ++ [name]) = _ ∨
      tree.walk (tree.start path.anchor) (path.names ++ [name]) = _
    rw [walk_append, h.walk]
    change (do tree.walk (← tree.step location name) []) = _ ∨
      (do tree.walk (← tree.step location name) []) = _
    rw [h.step hname]
    split_ifs
    · exact Or.inr rfl
    · exact Or.inl rfl

/-- A write under a name inside a directory is made there, or fails for the name's sake. -/
theorem LeadsTo.write_entry_cases (h : LeadsTo tree path location) (hname : name ≠ "..")
    (content : List UInt8) :
    tree.write (path.entry name) content =
        (.ok (), tree.set (location ++ [name]) (.file content)) ∨
      ∃ error, tree.write (path.entry name) content = (.error error, tree) ∧
        (error = .nulInPath ∨ error = .system (Fault.nameTooLong.on (path.entry name)) ∨
          error = .system (Fault.isDirectory.on (path.entry name))) := by
  unfold FileTree.write
  split_ifs
  · exact Or.inr ⟨_, rfl, Or.inl rfl⟩
  · rcases h.locate_entry hname with hlocate | hlocate
    · rw [hlocate]
      dsimp only
      split_ifs
      · exact Or.inr ⟨_, rfl, Or.inr (Or.inr rfl)⟩
      · exact Or.inl rfl
    · rw [hlocate]
      exact Or.inr ⟨_, rfl, Or.inr (Or.inl rfl)⟩

/-- Writing at a path changes what stands at one location, and no directory can be missing for it.
-/
structure WritesOnly (tree : FileTree) (path : Path) (location : Location) : Prop where
  elsewhere : ∀ content other, other ≠ location →
    (tree.write path content).2.entryAt other = tree.entryAt other
  missing : ∀ content, (tree.write path content).1 ≠ .error (.system (Fault.missing.on path))
  notDirectory : ∀ content,
    (tree.write path content).1 ≠ .error (.system (Fault.notDirectory.on path))

theorem LeadsTo.writesOnly_entry (h : LeadsTo tree path location) (hname : name ≠ "..") :
    WritesOnly tree (path.entry name) (location ++ [name]) := by
  refine ⟨?_, ?_, ?_⟩
  · intro content other hother
    rcases h.write_entry_cases hname content with hw | ⟨error, hw, -⟩
    · rw [hw]
      exact (entryAt_set (by simp) _ other).trans (if_neg hother)
    · rw [hw]
  · intro content
    rcases h.write_entry_cases hname content with hw | ⟨error, hw, rfl | rfl | rfl⟩
    all_goals
      rw [hw]
      simp [Fault.on]
  · intro content
    rcases h.write_entry_cases hname content with hw | ⟨error, hw, rfl | rfl | rfl⟩
    all_goals
      rw [hw]
      simp [Fault.on]

/-- A path that leads on from a name inside a directory goes nowhere unless this is a directory too.
-/
theorem LeadsTo.locate_below (h : LeadsTo tree path location) (hname : name ≠ "..")
    {more : List String} (hmore : more ≠ [])
    (hentry : tree.entryAt (location ++ [name]) ≠ some .directory) :
    ∃ fault, tree.locate ⟨path.anchor, path.names ++ name :: more⟩ = .error fault := by
  obtain ⟨next, rest, rfl⟩ := List.exists_cons_of_ne_nil hmore
  unfold FileTree.locate
  split_ifs
  · exact ⟨_, rfl⟩
  · change ∃ fault, tree.walk (tree.start path.anchor) (path.names ++ name :: next :: rest) = _
    rw [walk_append, h.walk]
    change ∃ fault, (do tree.walk (← tree.step location name) (next :: rest)) = _
    rw [h.step hname]
    split_ifs
    · exact ⟨_, rfl⟩
    · change ∃ fault, (do tree.walk (← tree.step (location ++ [name]) next) rest) = _
      cases hstep : tree.step (location ++ [name]) next with
      | error fault => exact ⟨fault, rfl⟩
      | ok last => exact absurd (step_eq_ok hstep).1 hentry

/-- Nothing can be written below a name that is no directory. -/
theorem LeadsTo.write_below (h : LeadsTo tree path location) (hname : name ≠ "..")
    {more : List String} (hmore : more ≠ [])
    (hentry : tree.entryAt (location ++ [name]) ≠ some .directory) (content : List UInt8) :
    ∃ error,
      tree.write ⟨path.anchor, path.names ++ name :: more⟩ content = (.error error, tree) := by
  obtain ⟨fault, hlocate⟩ := h.locate_below hname hmore hentry
  unfold FileTree.write
  split_ifs
  · exact ⟨_, rfl⟩
  · rw [hlocate]
    exact ⟨_, rfl⟩

end Inside

end FileTree

end FlowAtlas
