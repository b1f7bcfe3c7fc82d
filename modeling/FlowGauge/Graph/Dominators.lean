import FlowGauge.Graph.Traversal

/-!
# Immediate dominators

A node `d` dominates `n` when every path from the entry to `n` contains `d`. The immediate
dominators are computed as a table: the entry is its own, and a pass over the other nodes in reverse
postorder makes the immediate dominator of a node the meeting point of its predecessors that already
have one. Passes are repeated until one changes nothing.

A pass is a function of the table, and there are `(n + 1) ^ n` tables over `n` nodes, so passes that
have not settled by then never will; likewise for the pairs of nodes seen while two chains are
climbed and for the nodes of one chain. The bounds therefore never cut short a computation that
ends.
-/

namespace FlowGauge

/-- For every node its immediate dominator, `none` for nodes without one. -/
abbrev DominatorTable : Type :=
  Array (Option Nat)

namespace DominatorTable

/-- The entry of a node. -/
def at? (table : DominatorTable) (v : Nat) : Option Nat :=
  table[v]?.join

/-- Climb the chains of `a` and `b` until they meet. The one that comes later in `numbering` climbs
first; a chain that cannot climb gives way to the other node. -/
def meet (table : DominatorTable) (numbering : Array (Option Nat)) :
    (bound : Nat) → (a b : Nat) → Nat
  | 0, a, _ => a
  | bound + 1, a, b =>
    let position (v : Nat) : Nat := (numbering[v]?.join).getD numbering.size
    if a = b then a
    else if position b < position a then
      match table.at? a with
      | some up => if up = a then b else table.meet numbering bound up b
      | none => b
    else if position a < position b then
      match table.at? b with
      | some up => if up = b then a else table.meet numbering bound a up
      | none => a
    else a

/-- The meeting point of those predecessors that already have an immediate dominator. -/
def meetAll (table : DominatorTable) (numbering : Array (Option Nat)) (predecessors : List Nat) :
    Option Nat :=
  predecessors.foldl
    (fun found p ↦
      if (table.at? p).isNone then found
      else match found with
        | none => some p
        | some current => some (table.meet numbering (table.size * table.size + 1) p current))
    none

/-- Recompute the immediate dominator of one node. -/
def refine (g : Graph) (numbering : Array (Option Nat)) (table : DominatorTable) (v : Nat) :
    DominatorTable :=
  match table.meetAll numbering (g.predecessors v) with
  | some d => table.setIfInBounds v (some d)
  | none => table

/-- Recompute the immediate dominators of all nodes of `order`, each from the newest table. -/
def pass (g : Graph) (numbering : Array (Option Nat)) (order : List Nat) (table : DominatorTable) :
    DominatorTable :=
  order.foldl (refine g numbering) table

/-- Repeat passes until one changes nothing. -/
def settle (g : Graph) (numbering : Array (Option Nat)) (order : List Nat) :
    (bound : Nat) → DominatorTable → DominatorTable
  | 0, table => table
  | bound + 1, table =>
    let next := table.pass g numbering order
    if next = table then table else settle g numbering order bound next

end DominatorTable

/-- The immediate dominators of a graph with respect to an entry. -/
structure Dominators where
  /-- The entry of the graph. -/
  entry : Nat
  /-- The immediate dominator of every node; the entry is its own. -/
  table : DominatorTable
deriving DecidableEq, Repr

namespace Dominators

/-- The immediate dominators of a graph. Nodes that are not reached from the entry have none; an
entry that does not exist reaches nothing. -/
def compute (g : Graph) (entry : Nat) : Dominators :=
  let blank : DominatorTable := Array.replicate g.size none
  if entry < g.size then
    { entry
      table := DominatorTable.settle g (g.numbering entry).toArray
        ((g.reversePostorder entry).drop 1) (Nat.pow (g.size + 1) g.size)
        (blank.setIfInBounds entry (some entry)) }
  else { entry, table := blank }

/-- The immediate dominator of a node other than the entry. -/
def idom? (d : Dominators) (v : Nat) : Option Nat :=
  if v = d.entry then none else d.table.at? v

/-- Whether a node is reached from the entry. -/
def isReachable (d : Dominators) (v : Nat) : Bool :=
  (d.table.at? v).isSome

/-- Follow immediate dominators from a node on, for at most `bound` nodes. -/
def climb (d : Dominators) : (bound : Nat) → (v : Nat) → List Nat
  | 0, _ => []
  | bound + 1, v =>
    v :: match d.idom? v with
      | some up => d.climb bound up
      | none => []

/-- The dominators of a node, from itself up to the entry; empty for a node that is not reached. -/
def chain (d : Dominators) (v : Nat) : List Nat :=
  if d.isReachable v then d.climb d.table.size v else []

/-- Whether `a` dominates `b`. Nothing dominates a node that is not reached. -/
def dominates (d : Dominators) (a b : Nat) : Bool :=
  a ∈ d.chain b

/-- Whether `a` dominates `b` and differs from it. -/
def strictlyDominates (d : Dominators) (a b : Nat) : Bool :=
  a ≠ b && d.dominates a b

/-- The depth of a node in the dominator tree; the entry has depth zero. -/
def depth? (d : Dominators) (v : Nat) : Option Nat :=
  if d.isReachable v then some ((d.chain v).length - 1) else none

/-- The nodes whose immediate dominator is the given one, in ascending order. -/
def children (d : Dominators) (v : Nat) : List Nat :=
  (List.range d.table.size).filter fun c ↦ c ≠ d.entry && d.table.at? c == some v

/-- The nodes passed on the climbs from the reached predecessors of `join` up to its immediate
dominator, which is not passed. There are none when `join` is not reached or has fewer than two
reached predecessors. -/
def passed (d : Dominators) (g : Graph) (join : Nat) : List Nat :=
  let sources := (g.predecessors join).filter d.isReachable
  let top := d.idom? join
  if d.isReachable join && 2 ≤ sources.length then
    sources.flatMap fun p ↦ (d.chain p).takeWhile fun c ↦ some c ≠ top
  else []

/-- The dominance frontier of a node, in ascending order: the nodes for which it is passed. -/
def frontier (d : Dominators) (g : Graph) (v : Nat) : List Nat :=
  (List.range g.size).filter fun join ↦ v ∈ d.passed g join

/-- The dominance frontiers of all nodes. -/
def frontiers (d : Dominators) (g : Graph) : List (List Nat) :=
  let joins := (List.range g.size).map fun join ↦ (join, d.passed g join)
  (List.range g.size).map fun v ↦ (joins.filter fun (_, nodes) ↦ v ∈ nodes).map Prod.fst

theorem frontiers_eq_map_frontier (d : Dominators) (g : Graph) :
    d.frontiers g = (List.range g.size).map (d.frontier g) := by
  simp only [frontiers, List.filter_map, List.map_map]
  refine List.map_congr_left fun v _ ↦ ?_
  simp [frontier, Function.comp_def]

end Dominators

end FlowGauge
