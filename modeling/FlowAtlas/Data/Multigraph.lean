import FlowAtlas.Data.OrderedMap

/-!
# Directed multigraphs in insertion order

Vertices carry data and keep the order in which they were added.  From one vertex to another there
may be any number of parallel arcs; they are numbered from 0 in the order in which they were
added.  `arcs` lists them by source in vertex order, then by target in the order in which the
source first reached it, then by number.
-/

namespace FlowAtlas

/-- Vertices with data of type `α` under keys of type `κ`, and arcs labelled by `ε`. -/
structure Multigraph (κ α ε : Type) where
  vertices : OrderedMap κ α
  /-- For each source the labels of its parallel arcs, by target. -/
  successors : OrderedMap κ (OrderedMap κ (List ε))

namespace Multigraph

/-- One arc of a multigraph with its number among its parallels. -/
structure Arc (κ ε : Type) where
  source : κ
  target : κ
  number : Nat
  label : ε
deriving DecidableEq

variable {κ α ε : Type}

/-- The graph without vertices. -/
def empty : Multigraph κ α ε := ⟨.empty, .empty⟩

/-- The arcs of one source, given its labels by target. -/
def arcsFrom (source : κ) (out : OrderedMap κ (List ε)) : List (Arc κ ε) :=
  out.entries.flatMap fun e => e.2.zipIdx.map fun p => ⟨source, e.1, p.2, p.1⟩

variable [DecidableEq κ]

/-- Add a vertex, or replace the data of one. -/
def addVertex (g : Multigraph κ α ε) (key : κ) (data : α) : Multigraph κ α ε :=
  { g with vertices := g.vertices.insert key data }

/-- What the source reaches so far. -/
def successorsOf (g : Multigraph κ α ε) (source : κ) : OrderedMap κ (List ε) :=
  (g.successors.get? source).getD .empty

/-- Add an arc after its parallels. -/
def addArc (g : Multigraph κ α ε) (source target : κ) (label : ε) : Multigraph κ α ε :=
  let out := g.successorsOf source
  { g with
    successors :=
      g.successors.insert source (out.insert target ((out.get? target).getD [] ++ [label])) }

/-- All arcs, by source in vertex order. -/
def arcs (g : Multigraph κ α ε) : List (Arc κ ε) :=
  g.vertices.keys.flatMap fun source => arcsFrom source (g.successorsOf source)

@[simp] theorem vertices_addArc (g : Multigraph κ α ε) (source target : κ) (label : ε) :
    (g.addArc source target label).vertices = g.vertices := rfl

end Multigraph

end FlowAtlas
