/-!
# Directed graphs on an initial segment of the natural numbers

A graph has the nodes `0 … size - 1` and, for every node, a list of successors and a list of
predecessors. The lists may name nodes that do not exist and need not agree with each other: graphs
assembled by hand are checked later, and every algorithm tolerates such lists.
-/

namespace FlowGauge

/-- A directed graph with ordered neighbour lists. -/
structure Graph where
  /-- The nodes are the numbers below `size`. -/
  size : Nat
  /-- Targets of the edges leaving a node, in order. -/
  successors : Nat → List Nat
  /-- Sources of the edges entering a node, in order. -/
  predecessors : Nat → List Nat

namespace Graph

/-- The graph with the given list of edges. An edge appears in the lists of those of its ends that
exist. -/
def ofEdges (size : Nat) (edges : List (Nat × Nat)) : Graph where
  size
  successors v := if v < size then (edges.filter (·.1 == v)).map Prod.snd else []
  predecessors v := if v < size then (edges.filter (·.2 == v)).map Prod.fst else []

/-- An edge between two nodes of the graph. -/
def Edge (g : Graph) (u v : Nat) : Prop :=
  u < g.size ∧ v < g.size ∧ v ∈ g.successors u

/-- The predecessor lists say the same as the successor lists. -/
def Coherent (g : Graph) : Prop :=
  ∀ u v, u < g.size → v < g.size → (v ∈ g.successors u ↔ u ∈ g.predecessors v)

/-- There is a path between two nodes of the graph. -/
inductive Reaches (g : Graph) : Nat → Nat → Prop
  | refl {v : Nat} : v < g.size → g.Reaches v v
  | step {u v w : Nat} : g.Reaches u v → g.Edge v w → g.Reaches u w

end Graph

end FlowGauge
