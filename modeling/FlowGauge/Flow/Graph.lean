import FlowGauge.Flow.Block
import FlowGauge.Graph.Traversal

/-!
# Flow graphs

`FlowGraph.ofRoutine` cuts a routine into blocks at its leaders and derives the edges of a block
from its last instruction. A leader is the first instruction, the target of a branch, or the
instruction after one that ends a block. A branch whose label is not defined has no edge to a
target.

A `FlowGraph` may also be assembled by hand from any parts. Nothing is assumed about such a graph;
the neighbour functions only leave out blocks that do not exist.
-/

namespace FlowGauge

/-- The flow graph of a routine. -/
structure FlowGraph where
  /-- The name of the routine. -/
  routineName : String
  /-- The blocks; the block of number `k` is expected at position `k`. -/
  blocks : List Block
  /-- The edges in the order of their emission. -/
  edges : List Edge
  /-- The block where execution starts. -/
  entry : Option BlockId
  /-- The blocks where execution ends. -/
  exits : BlockSet
deriving DecidableEq

namespace Routine

/-- The index at which a branch continues when it is taken. -/
def target? (r : Routine) (i : Instruction) : Option Nat :=
  i.branchTarget?.bind r.labelPosition?

/-- The indices at which blocks start, in ascending order. -/
def leaders (r : Routine) : List Nat :=
  let targets := r.instructions.filterMap r.target?
  let afterTransfer := false :: r.instructions.map (·.opcode.endsBlock)
  (List.range r.size).filter fun i ↦ i == 0 || i ∈ targets || afterTransfer[i]?.getD false

end Routine

namespace FlowGraph

/-! ### Construction -/

/-- The number of the next block, if there is one. -/
def next? (count k : Nat) : Option BlockId :=
  if k + 1 < count then some (k + 1) else none

/-- The edges that leave the block of number `k` when `last` is its last instruction. -/
def edgesAfter (r : Routine) (leaders : List Nat) (k : BlockId) (last : Instruction) : List Edge :=
  let target := (r.target? last).bind leaders.idxOf?
  let next := next? leaders.length k
  let edge (dest : Option BlockId) (kind : EdgeKind) : List Edge :=
    dest.toList.map fun t ↦ ⟨k, t, kind⟩
  match last.opcode with
  | .branch => edge target .unconditional
  | .branchIfTrue => edge target .conditionalTrue ++ edge next .conditionalFalse
  | .branchIfFalse => edge target .conditionalFalse ++ edge next .conditionalTrue
  | .call => edge next .callContinuation
  | .ret => []
  | _ => edge next .fallThrough

/-- The flow graph of a routine. A routine without instructions has no blocks and no entry. -/
def ofRoutine (r : Routine) : FlowGraph :=
  let starts := r.leaders
  let bare := (starts.zip (starts.drop 1 ++ [r.size])).zipIdx.map fun ((start, stop), k) ↦
    ({ id := k, start, stop, code := (r.instructions.drop start).take (stop - start) } : Block)
  let edges := bare.flatMap fun b ↦
    match b.terminator? with
    | some last => edgesAfter r starts b.id last
    | none => []
  let blocks := bare.map fun b ↦
    { b with
      predecessors := .ofList ((edges.filter (·.target == b.id)).map Edge.source)
      successors := .ofList ((edges.filter (·.source == b.id)).map Edge.target) }
  { routineName := r.name
    blocks
    edges
    entry := if blocks.isEmpty then none else some 0
    exits := .ofList ((blocks.filter (·.successors.isEmpty)).map Block.id) }

/-! ### Figures and neighbours -/

/-- The block at a position. -/
def block? (g : FlowGraph) (b : BlockId) : Option Block :=
  g.blocks[b]?

/-- The number of blocks. -/
def size (g : FlowGraph) : Nat :=
  g.blocks.length

/-- The number of instructions in all blocks. -/
def instructionCount (g : FlowGraph) : Nat :=
  total (g.blocks.map (·.code.length))

/-- The cyclomatic complexity `E - N + 2`, at least 1 and at most 999. -/
def cyclomatic (g : FlowGraph) : Nat :=
  if g.blocks.isEmpty then 1
  else max 1 (min 999 (g.edges.length + 2 - g.size))

/-- The successors of a block that exist, in ascending order. -/
def successors (g : FlowGraph) (b : BlockId) : List BlockId :=
  (g.block? b).elim [] fun block ↦ block.successors.toList.filter (· < g.size)

/-- The predecessors of a block that exist, in ascending order. -/
def predecessors (g : FlowGraph) (b : BlockId) : List BlockId :=
  (g.block? b).elim [] fun block ↦ block.predecessors.toList.filter (· < g.size)

/-- The graph of the blocks. -/
def toGraph (g : FlowGraph) : Graph where
  size := g.size
  successors := g.successors
  predecessors := g.predecessors

/-- The edges that leave a block. -/
def outgoing (g : FlowGraph) (b : BlockId) : List Edge :=
  g.edges.filter (·.source == b)

/-- The blocks reached from the entry. -/
def reachable (g : FlowGraph) : BlockSet :=
  g.entry.elim ∅ fun entry ↦ .ofList (g.toGraph.depthSweep entry)

/-- The blocks reached from the entry, in reverse postorder. -/
def reversePostorder (g : FlowGraph) : List BlockId :=
  g.entry.elim [] g.toGraph.reversePostorder

/-- Set the loop marks of all blocks. -/
def markLoops (g : FlowGraph) (headers exits : BlockSet) : FlowGraph :=
  { g with blocks := g.blocks.map fun b ↦
      { b with isLoopHeader := headers.contains b.id, isLoopExit := exits.contains b.id } }

instance : JsonForm FlowGraph where
  encode g := .obj [("function_name", JsonForm.encode g.routineName),
    ("blocks", JsonForm.encode g.blocks), ("edges", JsonForm.encode g.edges),
    ("entry", JsonForm.encode g.entry), ("exits", JsonForm.encode g.exits)]
  decode? j := do
    let [name, blocks, edges, entry, exits] ←
      j.record? ["function_name", "blocks", "edges", "entry", "exits"] | none
    return ⟨← JsonForm.required name, ← JsonForm.required blocks, ← JsonForm.required edges,
      ← JsonForm.optional entry, ← JsonForm.required exits⟩

end FlowGraph

end FlowGauge
