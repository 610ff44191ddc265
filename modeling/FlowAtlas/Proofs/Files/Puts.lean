import FlowAtlas.Proofs.Files.Directory

/-!
# Files put in a directory that is there

Files put at locations leave everything else as it is, and of several at one location the last
stands there.  A path asks only what stands on its way, so it reads the same in two trees that agree
there.  In a directory that is there, whether a name can be written depends on the name and on
whether a directory stands under it.

Main facts: `entryAt_puts`, `read_congr` and `LeadsTo.write_entry`.
-/

namespace FlowAtlas

namespace FileTree

/-! ## Putting files -/

/-- A location, and the content of the file put there. -/
abbrev Put := Location × List UInt8

/-- Put files one after the other. -/
def puts (tree : FileTree) (files : List Put) : FileTree :=
  files.foldl (fun tree file => tree.set file.1 (.file file.2)) tree

section Puts

variable {tree : FileTree} {files : List Put} {location : Location}

theorem puts_append (tree : FileTree) (files more : List Put) :
    tree.puts (files ++ more) = (tree.puts files).puts more := List.foldl_append

theorem puts_concat (tree : FileTree) (files : List Put) (file : Put) :
    tree.puts (files ++ [file]) = (tree.puts files).set file.1 (.file file.2) :=
  puts_append tree files [file]

@[simp] theorem home_puts (tree : FileTree) (files : List Put) :
    (tree.puts files).home = tree.home := by
  induction files using List.reverseRecOn with
  | nil => rfl
  | append_singleton files file ih =>
    rw [puts_concat]
    exact ih

/-- The last of the files that are put at a location. -/
def lastPut (location : Location) (files : List Put) : Option Put :=
  (files.filter fun file => file.1 = location).getLast?

theorem entryAt_puts (h : ∀ file ∈ files, file.1 ≠ []) (location : Location) :
    (tree.puts files).entryAt location =
      ((lastPut location files).map fun file => Entry.file file.2).or
        (tree.entryAt location) := by
  induction files using List.reverseRecOn with
  | nil => rfl
  | append_singleton files file ih =>
    have hfile : file.1 ≠ [] := h file (by simp)
    have hfront := ih fun other hother => h other (List.mem_append_left _ hother)
    rw [puts_concat, entryAt_set hfile, hfront]
    unfold lastPut
    rw [List.filter_append, List.getLast?_append]
    by_cases hat : location = file.1
    · subst hat
      simp
    · have hne : ¬ file.1 = location := fun h => hat h.symm
      simp [hat, hne]

theorem lastPut_append (location : Location) (files more : List Put) :
    lastPut location (files ++ more) = (lastPut location more).or (lastPut location files) := by
  unfold lastPut
  rw [List.filter_append, List.getLast?_append]

theorem lastPut_eq_none (h : location ∉ files.map Prod.fst) : lastPut location files = none := by
  unfold lastPut
  rw [List.getLast?_eq_none_iff, List.filter_eq_nil_iff]
  intro file hfile hat
  exact h (List.mem_map.mpr ⟨file, hfile, of_decide_eq_true hat⟩)

theorem entryAt_puts_of_not_mem (h : ∀ file ∈ files, file.1 ≠ [])
    (hl : location ∉ files.map Prod.fst) :
    (tree.puts files).entryAt location = tree.entryAt location := by
  rw [entryAt_puts h, lastPut_eq_none hl]
  rfl

theorem exists_lastPut (h : location ∈ files.map Prod.fst) :
    ∃ file, lastPut location files = some file := by
  obtain ⟨file, hfile, hat⟩ := List.mem_map.mp h
  have hmem : file ∈ files.filter fun other => other.1 = location :=
    List.mem_filter.mpr ⟨hfile, decide_eq_true hat⟩
  exact ⟨_, List.getLast?_eq_some_getLast (List.ne_nil_of_mem hmem)⟩

/-- Of files put from several sides, those that no other side puts at the location decide. -/
theorem lastPut_flatMap {α : Type} {sides : List α} {f : α → List Put} {side : α}
    (hside : side ∈ sides) (hnodup : sides.Nodup)
    (hother : ∀ other ∈ sides, other ≠ side → location ∉ (f other).map Prod.fst) :
    lastPut location (sides.flatMap f) = lastPut location (f side) := by
  obtain ⟨front, rest, rfl⟩ := List.append_of_mem hside
  have hfront : side ∉ front := fun h =>
    (List.nodup_append.mp hnodup).2.2 side h side (List.mem_cons_self ..) rfl
  have hrest : side ∉ rest := (List.nodup_cons.mp (List.nodup_append.mp hnodup).2.1).1
  have hnone : ∀ others : List α, others ⊆ front ++ side :: rest → side ∉ others →
      lastPut location (others.flatMap f) = none := by
    intro others hothers hnot
    refine lastPut_eq_none fun hat => ?_
    obtain ⟨file, hfile, rfl⟩ := List.mem_map.mp hat
    obtain ⟨other, hmem, hput⟩ := List.mem_flatMap.mp hfile
    have hne : other ≠ side := by
      rintro rfl
      exact hnot hmem
    exact hother other (hothers hmem) hne (List.mem_map_of_mem hput)
  rw [List.flatMap_append, List.flatMap_cons, lastPut_append, lastPut_append,
    hnone rest (by simp) hrest, hnone front (by simp) hfront]
  simp

/-- No directory is made or lost where files are put. -/
theorem directory_puts_iff (hfiles : ∀ file ∈ files, tree.entryAt file.1 ≠ some .directory) :
    (tree.puts files).entryAt location = some .directory ↔
      tree.entryAt location = some .directory := by
  have hnil : ∀ file ∈ files, file.1 ≠ [] := fun file hfile =>
    ne_nil_of_entryAt_ne (hfiles file hfile)
  rw [entryAt_puts hnil]
  cases hlast : lastPut location files with
  | none => rfl
  | some file =>
    obtain ⟨hmem, hat⟩ := List.mem_filter.mp (List.mem_of_getLast? hlast)
    have hne := hfiles file hmem
    rw [of_decide_eq_true hat] at hne
    simp [hne]

theorem keepsDirectories_puts (hfiles : ∀ file ∈ files, tree.entryAt file.1 ≠ some .directory) :
    KeepsDirectories tree (tree.puts files) :=
  ⟨home_puts tree files, fun h => (directory_puts_iff hfiles).mpr h⟩

theorem LeadsTo.puts {path : Path} (h : LeadsTo tree path location)
    (hfiles : ∀ file ∈ files, tree.entryAt file.1 ≠ some .directory) :
    LeadsTo (tree.puts files) path location :=
  ⟨(keepsDirectories_puts hfiles).locate h.locate, (directory_puts_iff hfiles).mpr h.directory⟩

theorem entryAt_puts_of_lastPut (hfiles : ∀ file ∈ files, tree.entryAt file.1 ≠ some .directory)
    {last : Put} (hlast : lastPut location files = some last) :
    (tree.puts files).entryAt location = some (.file last.2) := by
  rw [entryAt_puts fun file hfile => ne_nil_of_entryAt_ne (hfiles file hfile), hlast]
  rfl

/-- A path to a file that is put reads as the last one there. -/
theorem read_puts (hfiles : ∀ file ∈ files, tree.entryAt file.1 ≠ some .directory) {path : Path}
    (hnul : path.hasNul = false) (hlocate : tree.locate path = .ok location) {last : Put}
    (hlast : lastPut location files = some last) : (tree.puts files).read path = .ok last.2 :=
  read_eq_ok hnul ((keepsDirectories_puts hfiles).locate hlocate)
    (entryAt_puts_of_lastPut hfiles hlast)

end Puts

/-! ## What a path asks -/

/-- The locations that names lead through, as far as they lead. -/
def visits (tree : FileTree) : Location → List String → List Location
  | location, [] => [location]
  | location, name :: rest =>
    location ::
      match tree.step location name with
      | .ok next => tree.visits next rest
      | .error _ => []

/-- The locations that a path leads through, its end among them; a path that is too long leads
nowhere. -/
def passes (tree : FileTree) (path : Path) : List Location :=
  if maxPathBytes < path.byteCount then []
  else tree.visits (tree.start path.anchor) path.names

section Passes

variable {tree tree' : FileTree}

theorem step_congr {location : Location} (h : tree'.entryAt location = tree.entryAt location)
    (name : String) : tree'.step location name = tree.step location name := by
  unfold step
  rw [h]

theorem walk_congr {location : Location} {names : List String}
    (h : ∀ l ∈ tree.visits location names, tree'.entryAt l = tree.entryAt l) :
    tree'.walk location names = tree.walk location names ∧
      ∀ last, tree.walk location names = .ok last → tree'.entryAt last = tree.entryAt last := by
  induction names generalizing location with
  | nil =>
    refine ⟨rfl, fun last hlast => ?_⟩
    cases hlast
    exact h location (by simp [visits])
  | cons name names ih =>
    have hstep := step_congr (h location (by simp [visits])) name
    unfold walk
    rw [hstep]
    cases hnext : tree.step location name with
    | error fault => exact ⟨rfl, fun last hlast => by cases hlast⟩
    | ok next =>
      refine ih fun l hl => h l ?_
      unfold visits
      rw [hnext]
      exact List.mem_cons_of_mem _ hl

/-- **A path reads the same in trees that agree on its way.** -/
theorem read_congr {path : Path} (hhome : tree'.home = tree.home)
    (h : ∀ l ∈ tree.passes path, tree'.entryAt l = tree.entryAt l) :
    tree'.read path = tree.read path := by
  have hstart : tree'.start path.anchor = tree.start path.anchor := by
    unfold start
    rw [hhome]
  have hlocate : tree'.locate path = tree.locate path ∧
      ∀ last, tree.locate path = .ok last → tree'.entryAt last = tree.entryAt last := by
    unfold passes at h
    unfold FileTree.locate
    by_cases hlong : maxPathBytes < path.byteCount
    · rw [if_pos hlong, if_pos hlong]
      exact ⟨rfl, nofun⟩
    · rw [if_neg hlong] at h
      rw [if_neg hlong, if_neg hlong, hstart]
      exact walk_congr h
  unfold read
  rw [hlocate.1]
  cases hl : tree.locate path with
  | error fault => rfl
  | ok last => simp only [hlocate.2 last hl]

end Passes

/-! ## Names in a directory that is there -/

/-- Why a name in a directory cannot be written, if it cannot. -/
def entryFault? (path : Path) (name : String) (occupied : Bool) : Option FileError :=
  if (path.entry name).hasNul then some .nulInPath
  else if maxPathBytes < (path.entry name).byteCount ∨ maxNameBytes < name.utf8ByteSize then
    some (.system (Fault.nameTooLong.on (path.entry name)))
  else if occupied then some (.system (Fault.isDirectory.on (path.entry name)))
  else none

section Inside

variable {tree : FileTree} {path : Path} {place : Location} {name : String}

theorem LeadsTo.locate_entry_eq (h : LeadsTo tree path place) (hname : name ≠ "..") :
    tree.locate (path.entry name) =
      if maxPathBytes < (path.entry name).byteCount ∨ maxNameBytes < name.utf8ByteSize then
        .error .nameTooLong
      else .ok (place ++ [name]) := by
  have hwalk : tree.walk (tree.start path.anchor) (path.names ++ [name]) =
      if maxNameBytes < name.utf8ByteSize then .error .nameTooLong
      else .ok (place ++ [name]) := by
    rw [walk_append, h.walk]
    change (do tree.walk (← tree.step place name) []) = _
    rw [h.step hname]
    split_ifs <;> rfl
  unfold FileTree.locate
  change (if _ then _ else tree.walk (tree.start path.anchor) (path.names ++ [name])) = _
  rw [hwalk]
  by_cases hpath : maxPathBytes < (path.entry name).byteCount
  · simp [hpath]
  · simp [hpath]

/-- A name is written in a directory, or there is a fault that the name and a directory under it
decide. -/
theorem LeadsTo.write_entry (h : LeadsTo tree path place) (hname : name ≠ "..") {occupied : Bool}
    (hoccupied : occupied = true ↔ tree.entryAt (place ++ [name]) = some .directory)
    (content : List UInt8) :
    tree.write (path.entry name) content =
      match entryFault? path name occupied with
      | some error => (.error error, tree)
      | none => (.ok (), tree.set (place ++ [name]) (.file content)) := by
  unfold FileTree.write entryFault?
  rw [h.locate_entry_eq hname]
  split_ifs with hnul hlong hthere
  · rfl
  · rfl
  · simp [hoccupied.mp hthere]
  · have hfree : ¬ tree.entryAt (place ++ [name]) = some .directory := fun hd =>
      hthere (hoccupied.mpr hd)
    simp [hfree]

theorem LeadsTo.locate_entry_of_writable (h : LeadsTo tree path place) (hname : name ≠ "..")
    {occupied : Bool} (hfault : entryFault? path name occupied = none) :
    (path.entry name).hasNul = false ∧ tree.locate (path.entry name) = .ok (place ++ [name]) := by
  unfold entryFault? at hfault
  split_ifs at hfault with hnul hlong
  rw [h.locate_entry_eq hname, if_neg hlong]
  exact ⟨Bool.eq_false_iff.mpr hnul, rfl⟩

/-- Nothing is made where the directory is there already. -/
theorem LeadsTo.provideDirectories_eq (h : LeadsTo tree path place) (hnul : path.hasNul = false) :
    tree.provideDirectories path = (.ok (), tree) := by
  have hmake : tree.makeDirectory path = .error .present := by
    unfold makeDirectory
    rw [h.locate]
    change (if (tree.entryAt place).isSome then _ else _) = _
    rw [h.directory]
    rfl
  have hprovide : tree.provideDirectory path = (.ok (), tree) := by
    unfold provideDirectory
    rw [hmake, h.isDirectory hnul]
  have hall : tree.provideAll path.anchor path.names = (.ok (), tree) := by
    unfold provideAll
    rw [hmake]
    exact hprovide
  unfold provideDirectories
  rw [hnul, hall]
  rfl

end Inside

end FileTree

end FlowAtlas
