import FlowGauge.Code.Routine

/-!
# Assembling a routine step by step

An `Assembler` holds the routine written so far and the counter that numbers its instructions. Every
step returns a new assembler, so a routine taken earlier is never changed by later steps.
-/

namespace FlowGauge

/-- A counter that hands out instruction ids from zero on. -/
structure IdCounter where
  /-- How many ids have been handed out. -/
  issued : Nat := 0
deriving DecidableEq, Repr

/-- The next id and the counter after it. -/
def IdCounter.next (c : IdCounter) : UInt32 × IdCounter :=
  (UInt32.ofNat c.issued, ⟨c.issued + 1⟩)

/-- A routine under construction. -/
structure Assembler where
  /-- The routine written so far. -/
  routine : Routine
  /-- The counter of its instruction ids. -/
  ids : IdCounter := {}
deriving DecidableEq, Repr

namespace Assembler

/-- An empty routine. -/
def start (name : String) : Assembler :=
  { routine := { name } }

/-! ### Declarations -/

/-- Add a parameter. -/
def parameter (a : Assembler) (name : String) (type : DataType) : Assembler :=
  { a with routine.parameters := a.routine.parameters ++ [⟨name, type⟩] }

/-- Set the return type. -/
def returns (a : Assembler) (type : DataType) : Assembler :=
  { a with routine.returnType := type }

/-- Declare a local variable. -/
def declare (a : Assembler) (name : String) (type : DataType) (allocation : StorageClass) :
    Assembler :=
  { a with routine.locals := a.routine.locals ++ [⟨name, type, allocation⟩] }

/-- Say whether the routine serves interrupts. -/
def interruptHandler (a : Assembler) (handler : Bool) : Assembler :=
  { a with routine.isInterruptHandler := handler }

/-! ### Instructions -/

/-- Append an instruction with an explicit result. -/
def emitTo (a : Assembler) (opcode : Opcode) (operands : List Operand) (result : Option Operand) :
    Assembler :=
  let (id, ids) := a.ids.next
  { a with
    routine.instructions := a.routine.instructions ++ [{ id, opcode, operands, result }]
    ids }

/-- Append an instruction. -/
def emit (a : Assembler) (opcode : Opcode) (operands : List Operand) : Assembler :=
  a.emitTo opcode operands none

/-- Change the last instruction, if there is one. -/
def modifyLast (a : Assembler) (f : Instruction → Instruction) : Assembler :=
  let code := a.routine.instructions
  { a with routine.instructions := code.dropLast ++ (code.getLast?.map f).toList }

/-- Attach hints to the last instruction. -/
def withHints (a : Assembler) (hints : Hints) : Assembler :=
  a.modifyLast ({ · with hints := some hints })

/-- Attach a source position to the last instruction. -/
def locate (a : Assembler) (line column : UInt32) : Assembler :=
  a.modifyLast ({ · with source := some ⟨none, line, column⟩ })

/-- Jump to a label. -/
def branch (a : Assembler) (label : String) : Assembler :=
  a.emit .branch [.label label]

/-- Jump to a label when the condition holds. -/
def branchIfTrue (a : Assembler) (condition : Operand) (label : String) : Assembler :=
  a.emit .branchIfTrue [condition, .label label]

/-- Jump to a label when the condition does not hold. -/
def branchIfFalse (a : Assembler) (condition : Operand) (label : String) : Assembler :=
  a.emit .branchIfFalse [condition, .label label]

/-- Call a routine by name. -/
def call (a : Assembler) (callee : String) (arguments : List Operand) (result : Option Operand) :
    Assembler :=
  a.emitTo .call (.label callee :: arguments) result

/-- Leave the routine. -/
def ret (a : Assembler) (value : Option Operand) : Assembler :=
  a.emit .ret value.toList

/-- Define a label. -/
def label (a : Assembler) (name : String) : Assembler :=
  a.emit .label [.label name]

/-- Set a status flag. -/
def setFlag (a : Assembler) (flag : String) : Assembler :=
  a.emit .setFlag [.label flag]

/-- Clear a status flag. -/
def clearFlag (a : Assembler) (flag : String) : Assembler :=
  a.emit .clearFlag [.label flag]

end Assembler

end FlowGauge
