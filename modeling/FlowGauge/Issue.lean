import FlowGauge.Flow.Block

/-!
# Issues

An issue is a finding that does not stop an analysis: what it is about, how bad it is, its wording,
and the block or instruction it concerns. Errors invalidate a result, warnings degrade it.
-/

namespace FlowGauge

/-- How bad an issue is. -/
inductive Severity where
  | error
  | warning
  | info
deriving DecidableEq, Repr

instance : Vocabulary Severity where
  all := [.error, .warning, .info]
  word
    | .error => "error"
    | .warning => "warning"
    | .info => "info"

/-- What an issue is about. -/
inductive IssueKind where
  /-- The graph has blocks but no entry block that exists. -/
  | missingEntryBlock
  /-- A declared exit does not exist. -/
  | missingExitBlock
  /-- An end of an edge does not exist. -/
  | danglingEdge
  /-- Edges and block sets disagree. -/
  | oneSidedEdge
  /-- The number of a block differs from its position. -/
  | blockIdMismatch
  /-- A block is not reached from the entry. -/
  | unreachableBlock
  /-- A branch names a label that is not defined. -/
  | danglingBranchTarget
  /-- A cycle with more than one entry. -/
  | irreducibleLoop
  /-- The operand count of an instruction does not fit its opcode. -/
  | malformedInstruction
  /-- A memory region is too small. -/
  | memoryOverflow
  /-- A memory region is nearly full. -/
  | memoryPressure
  /-- The variant lacks an addressing mode. -/
  | unsupportedAddressingMode
  /-- More values are live than registers can hold. -/
  | registerSpillRisk
  /-- The hardware stack is too small. -/
  | stackOverflow
  /-- The hardware stack is nearly full. -/
  | stackPressure
  /-- An interrupt handler takes too long. -/
  | interruptBudgetExceeded
  /-- A routine takes too long for a frame. -/
  | frameBudgetExceeded
  /-- An analysis could not be carried out. -/
  | analysisError
deriving DecidableEq, Repr

namespace IssueKind

instance : Vocabulary IssueKind where
  all := [.missingEntryBlock, .missingExitBlock, .danglingEdge, .oneSidedEdge, .blockIdMismatch,
    .unreachableBlock, .danglingBranchTarget, .irreducibleLoop, .malformedInstruction,
    .memoryOverflow, .memoryPressure, .unsupportedAddressingMode, .registerSpillRisk,
    .stackOverflow, .stackPressure, .interruptBudgetExceeded, .frameBudgetExceeded, .analysisError]
  word
    | .missingEntryBlock => "missing_entry_block"
    | .missingExitBlock => "missing_exit_block"
    | .danglingEdge => "dangling_edge"
    | .oneSidedEdge => "unmirrored_edge"
    | .blockIdMismatch => "block_id_mismatch"
    | .unreachableBlock => "unreachable_block"
    | .danglingBranchTarget => "dangling_branch_target"
    | .irreducibleLoop => "irreducible_loop"
    | .malformedInstruction => "malformed_instruction"
    | .memoryOverflow => "memory_overflow"
    | .memoryPressure => "memory_pressure"
    | .unsupportedAddressingMode => "unsupported_addressing_mode"
    | .registerSpillRisk => "register_spill_risk"
    | .stackOverflow => "stack_overflow"
    | .stackPressure => "stack_pressure"
    | .interruptBudgetExceeded => "interrupt_budget_exceeded"
    | .frameBudgetExceeded => "frame_budget_exceeded"
    | .analysisError => "analysis_error"

/-- Whether the issue is a violation of the graph's own invariants, as opposed to a finding about
the code. -/
def isStructural : IssueKind → Bool
  | .missingEntryBlock | .missingExitBlock | .danglingEdge | .oneSidedEdge | .blockIdMismatch =>
    true
  | _ => false

end IssueKind

/-- A finding. -/
structure Issue where
  kind : IssueKind
  severity : Severity
  message : String
  block : Option BlockId := none
  instruction : Option Nat := none
deriving DecidableEq, Repr

namespace Issue

/-- A finding that invalidates the result. -/
def error (kind : IssueKind) (message : String) : Issue :=
  { kind, severity := .error, message }

/-- A finding that degrades the result. -/
def warning (kind : IssueKind) (message : String) : Issue :=
  { kind, severity := .warning, message }

/-- A finding for information only. -/
def info (kind : IssueKind) (message : String) : Issue :=
  { kind, severity := .info, message }

/-- The finding at a block. -/
def atBlock (issue : Issue) (b : BlockId) : Issue :=
  { issue with block := some b }

/-- The finding at an instruction. -/
def atInstruction (issue : Issue) (index : Nat) : Issue :=
  { issue with instruction := some index }

/-- Whether the finding invalidates the result. -/
def isError (issue : Issue) : Bool :=
  issue.severity == .error

instance : JsonForm Issue where
  encode i := .obj [("kind", JsonForm.encode i.kind), ("severity", JsonForm.encode i.severity),
    ("message", JsonForm.encode i.message), ("block", JsonForm.encode i.block),
    ("instruction", JsonForm.encode i.instruction)]
  decode? j := do
    let [kind, severity, message, block, instruction] ←
      j.record? ["kind", "severity", "message", "block", "instruction"] | none
    return ⟨← JsonForm.required kind, ← JsonForm.required severity, ← JsonForm.required message,
      ← JsonForm.optional block, ← JsonForm.optional instruction⟩

end Issue

end FlowGauge
