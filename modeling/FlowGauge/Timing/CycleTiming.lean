import FlowGauge.Timing.Context

/-!
# Cycles and the critical path

The cycles of a routine are charged to its instructions and summed up per opcode. The critical path
is the greatest sum of block cycles along a path from the entry to an exit, over the edges that lead
forward in reverse postorder. If no exit is reached, the greatest sum to any block counts.

Sums are natural numbers here. `run` computes them in 64-bit words and is stopped when one of them
does not fit.
-/

namespace FlowGauge

/-- The cycles charged to one instruction. -/
structure CycleCharge where
  index : Nat
  opcode : Opcode
  cycles : Nat
  loopDepth : Nat
deriving DecidableEq, Repr

/-- The cycles of a routine. -/
structure CycleTiming where
  enabled : Bool := false
  totalCycles : Nat := 0
  criticalPath : Nat := 0
  /-- One charge per instruction. -/
  charges : List CycleCharge := []
  /-- The cycles of every opcode that occurs, in declaration order. -/
  byOpcode : List (Opcode × Nat) := []
deriving DecidableEq, Repr

/-- The greatest sum of costs found so far on a path to each block. -/
abbrev PathCosts : Type :=
  Std.ExtTreeMap Nat Nat

namespace CycleTiming

/-- Extend the paths that end in a block along its forward edges. -/
def relax (g : FlowGraph) (position? : BlockId → Option Nat) (cost : BlockId → Nat)
    (longest : PathCosts) (b : BlockId) : PathCosts :=
  match longest[b]?, position? b with
  | some here, some position =>
    ((g.successors b).filter fun s ↦ (position? s).any (position < ·)).foldl
      (fun longest s ↦ longest.insert s (max ((longest[s]?).getD 0) (here + cost s))) longest
  | _, _ => longest

/-- The greatest sum of costs on a forward path from the entry to each block. -/
def pathCosts (g : FlowGraph) (entry : BlockId) (cost : BlockId → Nat) : PathCosts :=
  let order := g.toGraph.reversePostorder entry
  order.foldl (relax g order.idxOf? cost) ((∅ : PathCosts).insert entry (cost entry))

/-- The greatest sum of costs on a forward path from the entry to an exit, or to any block when no
exit is reached. Every number that is compared on the way is at most one of the sums in `pathCosts`,
so that a bound on these bounds them all. -/
def criticalPathOf (g : FlowGraph) (cost : BlockId → Nat) : Nat :=
  match g.entry with
  | none => 0
  | some entry =>
    let longest := pathCosts g entry cost
    match g.exits.toList.filterMap fun b ↦ longest[b]? with
    | [] => longest.values.foldl max 0
    | first :: rest => rest.foldl max first

/-- The critical path of a routine. -/
def worstPath (c : TimingContext) : Nat :=
  criticalPathOf c.analysis.graph c.blockCycles

/-- The cycles of all blocks, on which the critical path rests. -/
def costs? (c : TimingContext) : Option (List Nat) :=
  (List.range c.analysis.graph.size).mapM c.blockCycles?

/-- The sums of block cycles along the paths from the entry. A sum only grows along a path, so when
all of these fit a word then so do the sums on the way and those of the single blocks. -/
def pathSums (c : TimingContext) : List Nat :=
  c.analysis.graph.entry.elim [] fun entry ↦
    (pathCosts c.analysis.graph entry c.blockCycles).values

/-- The critical path of a routine, stopped by a look-up outside of a list and by a sum along a path
that does not fit a 64-bit word. -/
def walk (c : TimingContext) : Checked Nat := do
  let _ ← Checked.inside (costs? c)
  let _ ← (pathSums c).mapM Checked.fit64
  return worstPath c

/-- The cycles of a routine. -/
def analyze (c : TimingContext) : CycleTiming :=
  let charges := c.rows.map fun (index, i, loopDepth, cycles) ↦
    ({ index, opcode := i.opcode, cycles, loopDepth } : CycleCharge)
  let present := (Vocabulary.all : List Opcode).filter fun op ↦ charges.any (·.opcode == op)
  { enabled := true
    totalCycles := total (charges.map CycleCharge.cycles)
    criticalPath := worstPath c
    charges
    byOpcode := present.map fun op ↦
      (op, total ((charges.filter (·.opcode == op)).map CycleCharge.cycles)) }

/-- The cycles of a routine, stopped by a look-up outside of a list and by a sum that does not fit a
64-bit word. -/
def run (c : TimingContext) : Checked CycleTiming := do
  let _ ← Checked.inside c.rows?
  let _ ← Checked.fit64 (analyze c).totalCycles
  let _ ← walk c
  return analyze c

/-- The mean cycles of an instruction. -/
def cyclesPerInstruction (t : CycleTiming) : Float :=
  if t.charges.isEmpty then 0.0
  else Float.ofNat t.totalCycles / Float.ofNat t.charges.length

end CycleTiming

end FlowGauge
