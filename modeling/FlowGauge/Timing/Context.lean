import FlowGauge.Analysis
import FlowGauge.Target.Registry

/-!
# Timing context

The sections of a timing run share one context: the routine with its flow analysis, the hardware,
and for every instruction its loop depth and its cycles. A context exists only when the analysis
fits the routine: same name, same number of instructions, and every block within the routine. The
first misfit is the fault that is reported.

The sections look up depths and cycles at indices that the blocks and the loops of the analysis
name, and the analysis may come from anywhere. So every look-up may fail: `depths?`, `rows?`,
`blockCycles?` and `latchCycles?` yield nothing as soon as an index lies outside of its list.
-/

namespace FlowGauge

/-- Why a flow analysis cannot be used for a routine. -/
inductive Misfit where
  /-- The analysis is of the routine `analysed`. -/
  | routineName (analysed expected : String)
  /-- The blocks hold `covered` instructions. -/
  | instructionCount (covered : Nat) (routine : String) (expected : Nat)
  /-- A block lies outside of the routine. -/
  | blockSpan (block : BlockId) (start stop count : Nat)
deriving DecidableEq, Repr

/-- The wording of a misfit. -/
def Misfit.message : Misfit → String
  | routineName analysed expected =>
    "control flow result of '" ++ analysed ++ "' passed for function '" ++ expected ++ "'"
  | instructionCount covered routine expected =>
    "control flow graph covers " ++ toString covered ++ " instructions, function '" ++ routine ++
      "' has " ++ toString expected
  | blockSpan block start stop count =>
    "block " ++ block.text ++ " spans " ++ toString start ++ ".." ++ toString stop ++
      " outside of " ++ toString count ++ " instructions"

/-- The wording of an internal fault. -/
def faultMessage (message : String) : String :=
  "Analysis fault - " ++ message

/-- What all sections of a timing run look at. -/
structure TimingContext where
  routine : Routine
  analysis : Analysis
  hardware : Hardware
  /-- The loop depth of every instruction. -/
  depths : List Nat
  /-- The cycles of every instruction. -/
  cycles : List Nat

namespace TimingContext

/-- A list of loop depths with one depth written over a span, which has to lie inside. -/
def fill? (depth start stop : Nat) (depths : List Nat) : Option (List Nat) :=
  if start ≤ stop ∧ stop ≤ depths.length then
    some (depths.take start ++ List.replicate (stop - start) depth ++ depths.drop stop)
  else none

/-- The loop depth of every index below `count`: zero, and then written block after block. -/
def depths? (a : Analysis) (count : Nat) : Option (List Nat) :=
  a.graph.blocks.foldlM (fun depths b ↦ fill? (a.loopDepth b.id) b.start b.stop depths)
    (List.replicate count 0)

/-- The context of a routine with its analysis, or the first misfit between the two. -/
def of (r : Routine) (a : Analysis) (h : Hardware) : Except Misfit TimingContext :=
  let count := r.size
  if a.routineName ≠ r.name then .error (.routineName a.routineName r.name)
  else if a.graph.instructionCount ≠ count then
    .error (.instructionCount a.graph.instructionCount r.name count)
  else
    match a.graph.blocks.find? fun b ↦ count < b.stop || b.stop < b.start with
    | some b => .error (.blockSpan b.id b.start b.stop count)
    | none => .ok
      { routine := r
        analysis := a
        hardware := h
        depths := (depths? a count).getD []
        cycles := r.instructions.map (·.cycles h.variant) }

/-- The variant of the hardware. -/
def variant (c : TimingContext) : Variant :=
  c.hardware.variant

/-! ### Look-ups -/

/-- The instructions with their index, and the loop depth and the cycles at that index. -/
def rows? (c : TimingContext) : Option (List (Nat × Instruction × Nat × Nat)) :=
  c.routine.instructions.zipIdx.mapM fun (i, index) ↦ do
    return (index, i, ← c.depths[index]?, ← c.cycles[index]?)

/-- The instructions with their index, loop depth and cycles; none when a look-up fails. -/
def rows (c : TimingContext) : List (Nat × Instruction × Nat × Nat) :=
  c.rows?.getD []

/-- The cycles of a block, looked up at every index of its span; zero for a block that does not
exist. -/
def blockCycles? (c : TimingContext) (b : BlockId) : Option Nat :=
  match c.analysis.graph.block? b with
  | none => some 0
  | some block =>
    ((List.range' block.start (block.stop - block.start)).mapM (c.cycles[·]?)).map total

/-- The cycles of the instructions a block spans; zero when a look-up fails. They are summed without
a bound here. Where they count, on a path from the entry, the sum along the path holds them, and it
is that sum which has to fit a word (`CycleTiming.walk`). -/
def blockCycles (c : TimingContext) (b : BlockId) : Nat :=
  (c.blockCycles? b).getD 0

/-- The cycles at the end of every latch of a loop that is a block. A block that ends at index zero
has no last instruction. -/
def latchCycles? (c : TimingContext) (l : Loop) : Option (List Nat) :=
  ((l.latches.toList.filterMap c.analysis.graph.block?).filter (·.stop ≠ 0)).mapM fun b ↦
    c.cycles[b.stop - 1]?

end TimingContext

end FlowGauge
