import FlowAtlas.Data.Multigraph
import FlowAtlas.Proofs.Data.KeyOrder
import Mathlib.Data.List.Perm.Basic

/-!
# The arcs of a multigraph

A link is a source with a target and a label.  A graph that got its arcs link by link lists them
grouped by source and target, whatever order the links came in; the groups keep that order inside.

Main facts: `successorsOf_addArcs` (what a source has collected), `arcs_addArcs` (the list of arcs
in closed form) and `map_label_arcs_perm` (no link is lost or doubled).
-/

namespace FlowAtlas

namespace Multigraph

open OrderedMap

variable {κ α ε : Type} [DecidableEq κ]

/-- Add arcs one after the other. -/
def addArcs (g : Multigraph κ α ε) (links : List (κ × κ × ε)) : Multigraph κ α ε :=
  links.foldl (fun g l => g.addArc l.1 l.2.1 l.2.2) g

/-- The labels of the links from one vertex to another. -/
def labelsOf (source target : κ) (links : List (κ × κ × ε)) : List ε :=
  valuesOf target (valuesOf source links)

/-- The targets of the links of a source, in the order in which it first reaches them. -/
def targetsOf (source : κ) (links : List (κ × κ × ε)) : List κ :=
  distinct ((valuesOf source links).map Prod.fst)

/-- Parallel arcs, numbered from 0. -/
def parallels (source target : κ) (labels : List ε) : List (Arc κ ε) :=
  labels.zipIdx.map fun p => ⟨source, target, p.2, p.1⟩

theorem labelsOf_cons (source target : κ) (l : κ × κ × ε) (links : List (κ × κ × ε)) :
    labelsOf source target (l :: links) =
      if l.1 = source ∧ l.2.1 = target then l.2.2 :: labelsOf source target links
      else labelsOf source target links := by
  by_cases hs : l.1 = source
  · by_cases ht : l.2.1 = target <;> simp [labelsOf, valuesOf, hs, ht]
  · simp [labelsOf, valuesOf, hs]

theorem valuesOf_cons (source : κ) (l : κ × κ × ε) (links : List (κ × κ × ε)) :
    valuesOf source (l :: links) =
      if l.1 = source then l.2 :: valuesOf source links else valuesOf source links := by
  by_cases hs : l.1 = source <;> simp [valuesOf, hs]

@[simp] theorem vertices_addArcs (g : Multigraph κ α ε) (links : List (κ × κ × ε)) :
    (g.addArcs links).vertices = g.vertices := by
  induction links generalizing g with
  | nil => rfl
  | cons l links ih =>
    rw [addArcs, List.foldl_cons]
    exact (ih _).trans (vertices_addArc g l.1 l.2.1 l.2.2)

theorem addArcs_concat (g : Multigraph κ α ε) (links : List (κ × κ × ε)) (l : κ × κ × ε) :
    g.addArcs (links ++ [l]) = (g.addArcs links).addArc l.1 l.2.1 l.2.2 := by
  rw [addArcs, List.foldl_append]
  rfl

theorem successorsOf_addArc (g : Multigraph κ α ε) (source target : κ) (label : ε) (s : κ) :
    (g.addArc source target label).successorsOf s =
      if s = source then
        (g.successorsOf source).insert target
          (((g.successorsOf source).get? target).getD [] ++ [label])
      else g.successorsOf s := by
  rw [successorsOf, addArc, get?_insert]
  split <;> rfl

/-- What a source reaches: its targets in the order of its links, each with all its labels. -/
theorem successorsOf_addArcs (vertices : OrderedMap κ α) (links : List (κ × κ × ε)) (s : κ) :
    ((⟨vertices, .empty⟩ : Multigraph κ α ε).addArcs links).successorsOf s =
      collected (valuesOf s links) := by
  induction links using List.reverseRecOn with
  | nil => rfl
  | append_singleton links l ih =>
    obtain ⟨source, target, label⟩ := l
    rw [addArcs_concat, successorsOf_addArc, valuesOf_concat]
    by_cases hs : s = source
    · subst hs
      rw [if_pos rfl, if_pos rfl, ih, insert_collected]
    · have hs' : ¬ source = s := fun h => hs h.symm
      rw [if_neg hs, if_neg hs', ih]

theorem arcsFrom_collected (source : κ) (out : List (κ × ε)) :
    arcsFrom source (collected out) =
      (distinct (out.map Prod.fst)).flatMap fun target =>
        parallels source target (valuesOf target out) := by
  rw [arcsFrom, entries_collected, List.flatMap_map]
  rfl

/-- The arcs: by source in vertex order, then by target in the order of first connection, then in
the order of the links. -/
theorem arcs_addArcs (vertices : OrderedMap κ α) (links : List (κ × κ × ε)) :
    ((⟨vertices, .empty⟩ : Multigraph κ α ε).addArcs links).arcs =
      vertices.keys.flatMap fun s =>
        (targetsOf s links).flatMap fun t => parallels s t (labelsOf s t links) := by
  rw [arcs, vertices_addArcs]
  simp only [successorsOf_addArcs, arcsFrom_collected]
  rfl

omit [DecidableEq κ] in
theorem map_label_parallels (source target : κ) (labels : List ε) :
    (parallels source target labels).map Arc.label = labels := by
  rw [parallels, List.map_map]
  exact List.zipIdx_map_fst 0 labels

omit [DecidableEq κ] in
theorem mem_parallels {source target : κ} {labels : List ε} {arc : Arc κ ε}
    (h : arc ∈ parallels source target labels) :
    arc.source = source ∧ arc.target = target ∧ arc.label ∈ labels := by
  obtain ⟨⟨label, n⟩, hp, rfl⟩ := List.mem_map.mp h
  exact ⟨rfl, rfl, List.fst_mem_of_mem_zipIdx hp⟩

theorem mem_labelsOf {source target : κ} {label : ε} {links : List (κ × κ × ε)} :
    label ∈ labelsOf source target links ↔ (source, target, label) ∈ links := by
  rw [labelsOf, mem_valuesOf, mem_valuesOf]

section Listing

variable {vertices : OrderedMap κ α} {links : List (κ × κ × ε)}

/-- Every arc is one of the links. -/
theorem mem_links_of_mem_arcs {arc : Arc κ ε}
    (h : arc ∈ ((⟨vertices, .empty⟩ : Multigraph κ α ε).addArcs links).arcs) :
    (arc.source, arc.target, arc.label) ∈ links := by
  rw [arcs_addArcs] at h
  obtain ⟨s, -, h⟩ := List.mem_flatMap.mp h
  obtain ⟨t, -, h⟩ := List.mem_flatMap.mp h
  obtain ⟨rfl, rfl, hl⟩ := mem_parallels h
  exact mem_labelsOf.mp hl

/-- The labels of the arcs are those of the links, in another order. -/
theorem map_label_arcs_perm (h : ∀ l ∈ links, l.1 ∈ vertices.keys) :
    (((⟨vertices, .empty⟩ : Multigraph κ α ε).addArcs links).arcs.map Arc.label).Perm
      (links.map fun l => l.2.2) := by
  have hinner : ∀ s, ((targetsOf s links).flatMap fun t => labelsOf s t links).Perm
      ((valuesOf s links).map Prod.snd) := fun s =>
    flatMap_valuesOf_perm (nodup_distinct _) fun p hp =>
      mem_distinct.mpr (List.mem_map_of_mem hp)
  have houter := (flatMap_valuesOf_perm vertices.nodup h).map Prod.snd
  rw [arcs_addArcs, List.map_flatMap]
  simp only [List.map_flatMap, map_label_parallels]
  refine (List.Perm.flatMap_left _ fun s _ => hinner s).trans ?_
  rw [List.map_flatMap, List.map_map] at houter
  exact houter

/-- In a list without repetition one key contributes what it gives, if the others give nothing. -/
theorem flatMap_eq_of_unique {ρ : Type} {keys : List κ} (hn : keys.Nodup) (key : κ)
    (f : κ → List ρ) (hf : ∀ k, k ≠ key → f k = []) (hk : key ∉ keys → f key = []) :
    keys.flatMap f = f key := by
  induction keys with
  | nil => exact (hk List.not_mem_nil).symm
  | cons k keys ih =>
    rw [List.nodup_cons] at hn
    rw [List.flatMap_cons]
    by_cases h : k = key
    · subst h
      have hnone : keys.flatMap f = [] := by
        rw [List.flatMap_eq_nil_iff]
        intro k' hk'
        exact hf k' fun he => hn.1 (he ▸ hk')
      rw [hnone, List.append_nil]
    · rw [hf k h, List.nil_append]
      refine ih hn.2 fun hkey => hk fun hmem => ?_
      rcases List.mem_cons.mp hmem with he | hmem
      · exact h he.symm
      · exact hkey hmem

theorem filter_parallels (s t s' t' : κ) (labels : List ε) :
    (parallels s' t' labels).filter (fun arc => arc.source = s ∧ arc.target = t) =
      if s' = s ∧ t' = t then parallels s' t' labels else [] := by
  split
  · rename_i he
    rw [List.filter_eq_self]
    intro arc harc
    obtain ⟨hs, ht, -⟩ := mem_parallels harc
    simpa [hs, ht] using he
  · rename_i he
    rw [List.filter_eq_nil_iff]
    intro arc harc
    obtain ⟨hs, ht, -⟩ := mem_parallels harc
    simpa [hs, ht] using he

theorem labelsOf_eq_nil {s t : κ} (h : t ∉ targetsOf s links) : labelsOf s t links = [] := by
  rw [labelsOf, valuesOf_eq_nil_iff]
  simpa [targetsOf] using h

/-- The arcs from one vertex to another are its links in their order, numbered from 0. -/
theorem filter_arcs (h : ∀ l ∈ links, l.1 ∈ vertices.keys) (s t : κ) :
    ((⟨vertices, .empty⟩ : Multigraph κ α ε).addArcs links).arcs.filter
        (fun arc => arc.source = s ∧ arc.target = t) =
      parallels s t (labelsOf s t links) := by
  rw [arcs_addArcs, List.filter_flatMap]
  simp only [List.filter_flatMap, filter_parallels]
  have hinner : (targetsOf s links).flatMap (fun t' =>
      if s = s ∧ t' = t then parallels s t' (labelsOf s t' links) else []) =
      parallels s t (labelsOf s t links) := by
    refine (flatMap_eq_of_unique (nodup_distinct _) t _ ?_ ?_).trans ?_
    · intro k hk
      simp [hk]
    · intro ht
      simp [labelsOf_eq_nil ht, parallels]
    · simp
  have hnone : s ∉ vertices.keys → valuesOf s links = [] := by
    intro hs
    rw [valuesOf_eq_nil_iff]
    rintro hmem
    obtain ⟨l, hl, rfl⟩ := List.mem_map.mp hmem
    exact hs (h l hl)
  refine (flatMap_eq_of_unique vertices.nodup s _ ?_ ?_).trans hinner
  · intro k hk
    simp [hk]
  · intro hs
    have hv := hnone hs
    simp [targetsOf, distinct, hv]

end Listing

end Multigraph

end FlowAtlas
