import FlowGauge.DataFlow.Access
import FlowGauge.DataFlow.Solver

/-!
# Live variables

A variable is live at a point when some path from the point reads it before any instruction writes
it. A backward gen/kill problem over the tracked variables, numbered by name, gives the variables
live at both ends of every block; walking a block backwards gives those live around each
instruction.
-/

namespace FlowGauge

/-- The variables live at both ends of a block. -/
structure BlockLiveness where
  liveIn : NameSet := ∅
  liveOut : NameSet := ∅
deriving DecidableEq

/-- The variables live around one instruction. -/
structure LivePoint where
  /-- The index of the instruction in the routine. -/
  index : Nat
  /-- The tracked variable it writes. -/
  written : Option String
  /-- The first tracked variable a copy reads. -/
  copied : Option String
  /-- The variables live before it. -/
  before : NameSet
  /-- The variables live after it. -/
  after : NameSet
deriving DecidableEq

namespace Liveness

/-- The tracked variables of the listed blocks. -/
def trackedNames (g : FlowGraph) (blocks : List BlockId) : NameSet :=
  .ofList ((g.located blocks).flatMap fun (_, i) ↦ i.uses.map Prod.fst ++ i.defined?.toList)

/-- The variables of an instruction sequence that are read before being written, and those that are
written, given what was found before it. -/
def scan (found : NameSet × NameSet) (i : Instruction) : NameSet × NameSet :=
  let exposed := (i.uses.filter fun (name, _) ↦ !found.2.contains name).map Prod.fst
  (found.1.insertMany exposed, found.2.insertMany i.defined?.toList)

/-- The set of some variables as numbers in the list of all. -/
def numbers (names : List String) (s : NameSet) : BitSet :=
  .ofList names.length (s.toList.filterMap names.idxOf?)

/-- The set of the variables with the given numbers. -/
def named (names : List String) (s : BitSet) : NameSet :=
  .ofList (s.toList.filterMap fun v ↦ names[v]?)

/-- The gen/kill problem of live variables. Blocks that are not listed take no part. -/
def problem (g : FlowGraph) (blocks : List BlockId) (names : List String) : GenKill :=
  let scanned := (List.range g.size).map fun b ↦
    if b ∈ blocks then ((g.block? b).elim [] Block.code).foldl scan (∅, ∅) else (∅, ∅)
  { gen := scanned.map fun (exposed, _) ↦ numbers names exposed
    kill := scanned.map fun (_, written) ↦ numbers names written }

/-- The variables live before an instruction, from those live after it. -/
def beforeOf (i : Instruction) (after : NameSet) : NameSet :=
  (i.defined?.elim after after.erase).insertMany (i.uses.map Prod.fst)

/-- The point around an instruction, from the variables live after it. -/
def pointOf (index : Nat) (i : Instruction) (after : NameSet) : LivePoint :=
  { index
    written := i.defined?
    copied := if i.opcode = .copy then i.uses.head?.map Prod.fst else none
    before := beforeOf i after
    after }

/-- The points of a run of instructions, from the variables live after it; with them the variables
live before it. -/
def points : List (Nat × Instruction) → NameSet → List LivePoint × NameSet
  | [], after => ([], after)
  | (index, i) :: rest, last =>
    let (later, after) := points rest last
    (pointOf index i after :: later, beforeOf i after)

/-- Live variables of the listed blocks. -/
structure Result where
  /-- The variables live at both ends of every listed block. -/
  blocks : Std.ExtTreeMap Nat BlockLiveness
  /-- The points of all instructions of the listed blocks. -/
  points : List LivePoint

/-- Live variables over the blocks reached from the entry, which are listed. -/
def compute (g : FlowGraph) (blocks : List BlockId) : Result :=
  let names := (trackedNames g blocks).toList
  let solution := (problem g blocks names).solve g .backward names.length
  let setAt (sets : List BitSet) (b : BlockId) : NameSet :=
    named names (sets[b]?.getD (.empty names.length))
  { blocks := tabulate blocks fun b ↦
      { liveIn := setAt solution.outgoing b, liveOut := setAt solution.incoming b }
    points := blocks.flatMap fun b ↦
      (Liveness.points ((g.block? b).elim [] Block.indexed) (setAt solution.incoming b)).1 }

end Liveness

instance : JsonForm BlockLiveness where
  encode l := .obj [("live_in", JsonForm.encode l.liveIn), ("live_out", JsonForm.encode l.liveOut)]
  decode? j := do
    let [liveIn, liveOut] ← j.record? ["live_in", "live_out"] | none
    return ⟨← JsonForm.required liveIn, ← JsonForm.required liveOut⟩

end FlowGauge
