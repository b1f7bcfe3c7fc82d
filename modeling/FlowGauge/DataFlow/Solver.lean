import FlowGauge.BitSet
import FlowGauge.Flow.Graph

/-!
# Solving gen/kill problems

A gen/kill problem gives every block the set it generates and the set it kills. Information flows
from the sources of a block to its dependents: along the edges for a forward problem, against them
for a backward problem. The incoming set of a block is the union of the outgoing sets of its
sources, and its outgoing set is `gen ∪ (incoming \ kill)`.

The solver works off a queue of blocks and queues the dependents of a block whenever its outgoing
set has changed. Outgoing sets only grow, so a block changes at most as often as the universe has
elements, and every change queues each block at most once. This bounds the number of evaluations.
Only blocks reached from the entry take part.
-/

namespace FlowGauge

/-- The direction in which information flows. -/
inductive Direction where
  | forward
  | backward
deriving DecidableEq, Repr

/-- A gen/kill problem: for every block what it generates and what it kills. -/
structure GenKill where
  gen : List BitSet
  kill : List BitSet

namespace GenKill

/-- The incoming and outgoing set of every block. -/
structure Solution where
  incoming : List BitSet
  outgoing : List BitSet
deriving DecidableEq

/-- The effect of a block on a set. -/
def transfer (problem : GenKill) (b : BlockId) (s : BitSet) : BitSet :=
  let rest := (problem.kill[b]?).elim s s.difference
  (problem.gen[b]?).elim rest rest.union

/-- The union of the outgoing sets of some blocks. -/
def meet (count : Nat) (state : Solution) (sources : List BlockId) : BitSet :=
  sources.foldl (fun s b ↦ (state.outgoing[b]?).elim s s.union) (.empty count)

/-- Evaluate the first queued block and queue its dependents if its outgoing set has changed.
`bound` limits the number of evaluations. -/
def work (problem : GenKill) (count : Nat) (sources dependents : BlockId → List BlockId) :
    (bound : Nat) → (queue : List BlockId) → Solution → Solution
  | 0, _, state => state
  | _ + 1, [], state => state
  | bound + 1, b :: queue, state =>
    let incoming := meet count state (sources b)
    let outgoing := problem.transfer b incoming
    let next : Solution :=
      ⟨state.incoming.set b incoming, state.outgoing.set b outgoing⟩
    if state.outgoing[b]? = some outgoing then
      problem.work count sources dependents bound queue next
    else
      let queue := (dependents b).foldl (fun q d ↦ if d ∈ q then q else q ++ [d]) queue
      problem.work count sources dependents bound queue next

/-- The solution of a problem over the blocks reached from the entry. -/
def solve (g : FlowGraph) (direction : Direction) (count : Nat) (problem : GenKill) : Solution :=
  let order := g.reversePostorder
  let reached (blocks : List BlockId) : List BlockId := blocks.filter (· ∈ order)
  let blank := List.replicate g.size (BitSet.empty count)
  let bound := g.size + g.size * g.size * count
  match direction with
  | .forward =>
    problem.work count (fun b ↦ reached (g.predecessors b)) (fun b ↦ reached (g.successors b))
      bound order ⟨blank, blank⟩
  | .backward =>
    problem.work count (fun b ↦ reached (g.successors b)) (fun b ↦ reached (g.predecessors b))
      bound order.reverse ⟨blank, blank⟩

end GenKill

end FlowGauge
