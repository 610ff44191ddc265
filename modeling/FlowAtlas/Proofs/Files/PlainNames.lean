import Mathlib.Tactic.SplitIfs
import FlowAtlas.Files.Path
import FlowAtlas.Proofs.Text.Pieces

/-!
# Names without slashes

A text is cut at its slashes, so no name of a path that was read has one, and neither has a stem.

Main facts: `isPlain_ofText` and `IsPlain.slash_not_mem_stem`.
-/

namespace FlowAtlas

namespace Path

/-- No name of the path has a slash, as in every path that a text denotes. -/
def IsPlain (p : Path) : Prop := ∀ name ∈ p.names, '/' ∉ name.toList

theorem isPlain_ofText (text : String) : (ofText text).IsPlain := by
  intro name hname
  obtain ⟨piece, hpiece, rfl⟩ := List.mem_map.mp hname
  rw [String.toList_ofList]
  exact Text.not_mem_of_mem_splitAtEach (List.mem_filter.mp hpiece).1

theorem IsPlain.slash_not_mem_name {p : Path} (h : p.IsPlain) : '/' ∉ p.name.toList := by
  unfold name
  cases hlast : p.names.getLast? with
  | none => simp
  | some last => exact h last (List.mem_of_getLast? hlast)

/-- A name cut before its last dot has no other characters than the name. -/
theorem mem_splitName_fst {name : String} {c : Char} (h : c ∈ (splitName name).1.toList) :
    c ∈ name.toList := by
  unfold splitName at h
  dsimp only at h
  split at h
  · rename_i front hfront
    split_ifs at h
    · exact h
    · rw [String.toList_ofList, List.mem_reverse] at h
      have hmem : c ∈ name.toList.reverse.dropWhile (· ≠ '.') := by
        rw [hfront]
        exact List.mem_cons_of_mem _ h
      exact List.mem_reverse.mp ((List.dropWhile_suffix _).subset hmem)
  · exact h

theorem IsPlain.slash_not_mem_stem {p : Path} (h : p.IsPlain) : '/' ∉ p.stem.toList :=
  fun hmem => h.slash_not_mem_name (mem_splitName_fst hmem)

end Path

end FlowAtlas
