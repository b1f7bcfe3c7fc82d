import FlowGauge.Flow.Graph
import FlowGauge.Graph.Dominators

/-!
# Dominance record of a flow graph

`Dominance` is the record that is kept and exchanged: for every block reached from the entry its
immediate dominator, parent, children, depth and dominance frontier. Blocks that are not reached
have no entry in any of the maps. A record may also be read from outside and be corrupt, so the walk
along immediate dominators is bounded by the number of recorded blocks.
-/

namespace FlowGauge

/-- The dominator tree of a flow graph. -/
structure Dominance where
  /-- The entry block. -/
  entry : Option BlockId := none
  /-- The immediate dominator of a block; the entry is its own. -/
  idom : Std.ExtTreeMap Nat Nat := ∅
  /-- The parent of a block other than the entry. -/
  parent : Std.ExtTreeMap Nat Nat := ∅
  /-- The children of a block. -/
  children : Std.ExtTreeMap Nat BlockSet := ∅
  /-- The depth of a block; the entry has depth zero. -/
  depth : Std.ExtTreeMap Nat Nat := ∅
  /-- The dominance frontier of a block. -/
  frontiers : Std.ExtTreeMap Nat BlockSet := ∅

namespace Dominance

/-- The dominance record of a flow graph. -/
def compute (g : FlowGraph) : Dominance :=
  match g.entry with
  | none => {}
  | some entry =>
    let graph := g.toGraph
    let d := Dominators.compute graph entry
    let nodes := (List.range g.size).filter d.isReachable
    let frontiers := (d.frontiers graph).toArray
    { entry := some entry
      idom := tabulate nodes fun v ↦ (d.idom? v).getD entry
      parent := tabulate (nodes.filter (· ≠ entry)) fun v ↦ (d.idom? v).getD entry
      children := tabulate nodes fun v ↦ .ofList (d.children v)
      depth := tabulate nodes fun v ↦ (d.depth? v).getD 0
      frontiers := tabulate nodes fun v ↦ .ofList (frontiers[v]?.getD []) }

/-- Whether a block is reached from the entry. -/
def isReachable (d : Dominance) (b : BlockId) : Bool :=
  d.idom.contains b

/-- Follow immediate dominators from a block on, for at most `bound` blocks. -/
def climb (d : Dominance) : (bound : Nat) → (b : BlockId) → List BlockId
  | 0, _ => []
  | bound + 1, b =>
    match d.idom[b]? with
    | none => []
    | some up => if up = b then [b] else b :: d.climb bound up

/-- The dominators of a block, from itself up to the entry. One block more than the record holds is
the most that is listed, so that a corrupt record cannot make the walk endless. -/
def chain (d : Dominance) (b : BlockId) : List BlockId :=
  d.climb (d.idom.size + 1) b

/-- Whether `a` dominates `b`. -/
def dominates (d : Dominance) (a b : BlockId) : Bool :=
  a ∈ d.chain b

/-- Whether `a` dominates `b` and differs from it. -/
def strictlyDominates (d : Dominance) (a b : BlockId) : Bool :=
  a ≠ b && d.dominates a b

/-- The number of blocks reached from the entry. -/
def size (d : Dominance) : Nat :=
  d.idom.size

instance : JsonForm Dominance where
  encode d := .obj [("entry", JsonForm.encode d.entry), ("idom", JsonForm.encode d.idom),
    ("parent", JsonForm.encode d.parent), ("children", JsonForm.encode d.children),
    ("depth", JsonForm.encode d.depth), ("frontiers", JsonForm.encode d.frontiers)]
  decode? j := do
    let [entry, idom, parent, children, depth, frontiers] ←
      j.record? ["entry", "idom", "parent", "children", "depth", "frontiers"] | none
    return ⟨← JsonForm.optional entry, ← JsonForm.required idom, ← JsonForm.required parent,
      ← JsonForm.required children, ← JsonForm.required depth, ← JsonForm.required frontiers⟩

end Dominance

end FlowGauge
