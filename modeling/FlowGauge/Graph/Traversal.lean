import FlowGauge.Graph.Basic

/-!
# Traversals

Three ways through the nodes that can be reached from a start:

* `Graph.explore` is the recursive depth-first search. Its `Trail` records the order in which nodes
  are entered and finished, and the edges that lead back to a node still open. Postorder is the
  order of finishing.
* `Graph.sweep` visits pending nodes one by one and marks a node as soon as it becomes pending. With
  new nodes in front of the pending ones this is `Graph.depthSweep`, with new nodes behind them it
  is `Graph.breadthSweep`.

All of them recurse on a bound that cannot be exceeded: the search tree is no deeper than the graph
has nodes, and no node becomes pending twice.
-/

namespace FlowGauge

/-- What a depth-first search has seen. -/
structure Trail where
  /-- Nodes in the order of entering them. -/
  entered : List Nat := []
  /-- Nodes in the order of finishing them. -/
  finished : List Nat := []
  /-- Edges into a node that was entered and not yet finished, in the order of meeting them. -/
  backEdges : List (Nat × Nat) := []
deriving DecidableEq, Repr

namespace Graph

/-! ### Recursive depth-first search -/

/-- Enter the fresh node `u`, follow its successors in order and finish it. `depth` bounds the depth
of the search; the number of nodes not yet entered is enough. -/
def explore (g : Graph) : (depth : Nat) → (u : Nat) → Trail → Trail
  | 0, _, t => t
  | depth + 1, u, t =>
    let follow (t : Trail) (v : Nat) : Trail :=
      if g.size ≤ v then t
      else if v ∈ t.entered then
        if v ∈ t.finished then t else { t with backEdges := t.backEdges ++ [(u, v)] }
      else g.explore depth v t
    let inside := (g.successors u).foldl follow { t with entered := t.entered ++ [u] }
    { inside with finished := inside.finished ++ [u] }

/-- The trail of the depth-first search from a start; empty for a start that does not exist. -/
def trail (g : Graph) (start : Nat) : Trail :=
  if start < g.size then g.explore g.size start {} else {}

/-- The nodes reached from a start, each after all nodes entered from it. -/
def postorder (g : Graph) (start : Nat) : List Nat :=
  (g.trail start).finished

/-- The postorder backwards: in a graph without cycles every node precedes its successors. -/
def reversePostorder (g : Graph) (start : Nat) : List Nat :=
  (g.postorder start).reverse

/-- The position of every node in reverse postorder, `none` for nodes that are not reached. -/
def numbering (g : Graph) (start : Nat) : List (Option Nat) :=
  let order := g.reversePostorder start
  (List.range g.size).map order.idxOf?

/-! ### Sweeps over pending nodes -/

/-- The existing nodes of a list that are not yet seen, each once. -/
def unseen (g : Graph) (seen candidates : List Nat) : List Nat :=
  candidates.foldl
    (fun fresh v ↦ if v < g.size ∧ v ∉ seen ∧ v ∉ fresh then fresh ++ [v] else fresh) []

/-- Visit the first pending node and let `join` add its unseen neighbours to the pending ones.
`bound` limits the number of visits. -/
def sweep (g : Graph) (neighbours : Nat → List Nat) (join : List Nat → List Nat → List Nat) :
    (bound : Nat) → (pending seen : List Nat) → List Nat
  | 0, _, _ => []
  | _ + 1, [], _ => []
  | bound + 1, v :: pending, seen =>
    let fresh := g.unseen seen (neighbours v)
    v :: g.sweep neighbours join bound (join fresh pending) (seen ++ fresh)

/-- Visit the nodes reached from a start, the newest pending node first. The successors of a node
become pending together, so that the first of them is visited next. -/
def depthSweep (g : Graph) (start : Nat) : List Nat :=
  if start < g.size then
    g.sweep (fun v ↦ (g.successors v).reverse) (fun fresh pending ↦ fresh.reverse ++ pending)
      g.size [start] [start]
  else []

/-- Visit the nodes reached from a start, the oldest pending node first. -/
def breadthSweep (g : Graph) (start : Nat) : List Nat :=
  if start < g.size then
    g.sweep g.successors (fun fresh pending ↦ pending ++ fresh) g.size [start] [start]
  else []

end Graph

end FlowGauge
