import FlowGauge.Code.Record
import FlowGauge.Json.Ordered

/-!
# Blocks and edges of a flow graph

A block is a straight run of instructions of a routine: it covers the instruction indices from
`start` up to, not including, `stop`. An edge remembers the control transfer that it stands for.
-/

namespace FlowGauge

/-- Blocks are numbered from zero. -/
abbrev BlockId : Type :=
  Nat

/-- The name of a block. -/
def BlockId.text (b : BlockId) : String :=
  "B" ++ toString b

/-- A finite set of blocks. -/
abbrev BlockSet : Type :=
  Std.ExtTreeSet Nat

/-- The control transfer an edge stands for. -/
inductive EdgeKind where
  /-- The target of an unconditional jump. -/
  | unconditional
  /-- The way taken when the condition of a jump holds. -/
  | conditionalTrue
  /-- The way taken when the condition of a jump does not hold. -/
  | conditionalFalse
  /-- Flow into the next block after an instruction that does not transfer control. -/
  | fallThrough
  /-- The continuation after a call. -/
  | callContinuation
deriving DecidableEq, Repr

namespace EdgeKind

instance : Vocabulary EdgeKind where
  all := [.unconditional, .conditionalTrue, .conditionalFalse, .fallThrough, .callContinuation]
  word
    | .unconditional => "unconditional"
    | .conditionalTrue => "conditional_true"
    | .conditionalFalse => "conditional_false"
    | .fallThrough => "fall_through"
    | .callContinuation => "call_continuation"

/-- The two ways of a conditional jump. -/
def isConditional : EdgeKind → Bool
  | .conditionalTrue | .conditionalFalse => true
  | _ => false

/-- The edges that follow a jump instruction. -/
def isBranch : EdgeKind → Bool
  | .unconditional | .conditionalTrue | .conditionalFalse => true
  | _ => false

end EdgeKind

/-- A control transfer between two blocks. -/
structure Edge where
  source : BlockId
  target : BlockId
  kind : EdgeKind
deriving DecidableEq, Repr

/-- A block of a flow graph. -/
structure Block where
  /-- The number of the block. -/
  id : BlockId
  /-- The index of its first instruction in the routine. -/
  start : Nat
  /-- One past the index of its last instruction. -/
  stop : Nat
  /-- Its instructions. -/
  code : List Instruction
  /-- The blocks with an edge into this block. -/
  predecessors : BlockSet := ∅
  /-- The blocks this block has an edge to. -/
  successors : BlockSet := ∅
  /-- Whether the block heads a loop. -/
  isLoopHeader : Bool := false
  /-- Whether the block is the target of a loop exit. -/
  isLoopExit : Bool := false
deriving DecidableEq

namespace Block

/-- The block of the given instructions from the index `start` on, not joined to any other block;
refused when the index behind it is no 64-bit word. -/
def ofCode (id : BlockId) (start : Nat) (code : List Instruction) : Checked Block := do
  return { id, start, stop := ← Checked.add64 start code.length, code }

/-- The last instruction, which decides the outgoing edges. -/
def terminator? (b : Block) : Option Instruction :=
  b.code.getLast?

/-- The instructions with their indices in the routine, taken as natural numbers. Those of a block
that is cut out of a routine lie below the size of the routine; a block that is assembled may start
anywhere, and `numbered` says which of its indices are words. -/
def indexed (b : Block) : List (Nat × Instruction) :=
  b.code.zipIdx.map fun (i, offset) ↦ (b.start + offset, i)

/-- The instructions with their indices in the routine, stopped at an index that is no 64-bit word.
-/
def numbered (b : Block) : Checked (List (Nat × Instruction)) :=
  b.code.zipIdx.mapM fun (i, offset) ↦ do return (← Checked.add64 b.start offset, i)

end Block

instance : JsonForm Edge where
  encode e := .obj [("source", JsonForm.encode e.source), ("target", JsonForm.encode e.target),
    ("kind", JsonForm.encode e.kind)]
  decode? j := do
    let [source, target, kind] ← j.record? ["source", "target", "kind"] | none
    return ⟨← JsonForm.required source, ← JsonForm.required target, ← JsonForm.required kind⟩

instance : JsonForm Block where
  encode b := .obj [("id", JsonForm.encode b.id), ("start", JsonForm.encode b.start),
    ("end", JsonForm.encode b.stop), ("instructions", JsonForm.encode b.code),
    ("predecessors", JsonForm.encode b.predecessors),
    ("successors", JsonForm.encode b.successors),
    ("is_loop_header", JsonForm.encode b.isLoopHeader),
    ("is_loop_exit", JsonForm.encode b.isLoopExit)]
  decode? j := do
    let [id, start, stop, code, predecessors, successors, header, exit] ←
      j.record? ["id", "start", "end", "instructions", "predecessors", "successors",
        "is_loop_header", "is_loop_exit"] | none
    return ⟨← JsonForm.required id, ← JsonForm.required start, ← JsonForm.required stop,
      ← JsonForm.required code, ← JsonForm.required predecessors, ← JsonForm.required successors,
      ← JsonForm.required header, ← JsonForm.required exit⟩

end FlowGauge
