import FlowGauge.Vocabulary

/-!
# Opcodes and their static properties

The opcode set is closed. Everything later stages ask of an opcode without looking at its operands
is decided here: its category, how many operands it takes, whether it transfers control, ends a
block, writes its first operand or touches memory.
-/

namespace FlowGauge

/-- What an instruction does. The comment of each opcode gives its operand order. -/
inductive Opcode where
  /-- Performs `dest = left + right`. -/
  | add
  /-- Performs `dest = left - right`. -/
  | sub
  /-- Performs `dest = left * right`, a software routine on every variant. -/
  | mul
  /-- Performs `dest = left / right`, a software routine on every variant. -/
  | div
  /-- Performs `dest = left % right`. -/
  | mod
  /-- Performs `dest = -src`. -/
  | neg
  /-- Performs `dest = left && right`. -/
  | logicalAnd
  /-- Performs `dest = left || right`. -/
  | logicalOr
  /-- Performs `dest = !src`. -/
  | logicalNot
  /-- Performs `dest = left & right`. -/
  | bitwiseAnd
  /-- Performs `dest = left | right`. -/
  | bitwiseOr
  /-- Performs `dest = left ^ right`. -/
  | bitwiseXor
  /-- Performs `dest = ~src`. -/
  | bitwiseNot
  /-- Performs `dest = left << right`. -/
  | shiftLeft
  /-- Performs `dest = left >> right`. -/
  | shiftRight
  /-- Performs `dest = left == right`. -/
  | compareEq
  /-- Performs `dest = left != right`. -/
  | compareNe
  /-- Performs `dest = left < right`. -/
  | compareLt
  /-- Performs `dest = left <= right`. -/
  | compareLe
  /-- Performs `dest = left > right`. -/
  | compareGt
  /-- Performs `dest = left >= right`. -/
  | compareGe
  /-- Jump to a label. -/
  | branch
  /-- Jump to a label when the condition holds. -/
  | branchIfTrue
  /-- Jump to a label when the condition does not hold. -/
  | branchIfFalse
  /-- Subroutine call; execution goes on with the next instruction. -/
  | call
  /-- Leave the routine, perhaps with a value. -/
  | ret
  /-- Performs `dest = constant`. -/
  | loadImmediate
  /-- Performs `dest = variable`. -/
  | loadVariable
  /-- Performs `variable = src`. -/
  | storeVariable
  /-- Performs `dest = array[index]`. -/
  | loadArray
  /-- Performs `array[index] = value`. -/
  | storeArray
  /-- Performs `dest = src`. -/
  | copy
  /-- The place a branch names. -/
  | label
  /-- Performs `dest = memory[address]`. -/
  | peek
  /-- Performs `memory[address] = value`. -/
  | poke
  /-- Set a processor status flag. -/
  | setFlag
  /-- Clear a processor status flag. -/
  | clearFlag
  /-- Do nothing. -/
  | nop
  /-- A remark that emits no code. -/
  | comment
deriving DecidableEq, Repr, Inhabited

namespace Opcode

instance : Vocabulary Opcode where
  all := [.add, .sub, .mul, .div, .mod, .neg, .logicalAnd, .logicalOr, .logicalNot,
    .bitwiseAnd, .bitwiseOr, .bitwiseXor, .bitwiseNot, .shiftLeft, .shiftRight,
    .compareEq, .compareNe, .compareLt, .compareLe, .compareGt, .compareGe, .branch,
    .branchIfTrue, .branchIfFalse, .call, .ret, .loadImmediate, .loadVariable,
    .storeVariable, .loadArray, .storeArray, .copy, .label, .peek, .poke, .setFlag,
    .clearFlag, .nop, .comment]
  word
    | .add => "ADD"
    | .sub => "SUB"
    | .mul => "MUL"
    | .div => "DIV"
    | .mod => "MOD"
    | .neg => "NEG"
    | .logicalAnd => "LOGICAL_AND"
    | .logicalOr => "LOGICAL_OR"
    | .logicalNot => "LOGICAL_NOT"
    | .bitwiseAnd => "BITWISE_AND"
    | .bitwiseOr => "BITWISE_OR"
    | .bitwiseXor => "BITWISE_XOR"
    | .bitwiseNot => "BITWISE_NOT"
    | .shiftLeft => "SHIFT_LEFT"
    | .shiftRight => "SHIFT_RIGHT"
    | .compareEq => "COMPARE_EQ"
    | .compareNe => "COMPARE_NE"
    | .compareLt => "COMPARE_LT"
    | .compareLe => "COMPARE_LE"
    | .compareGt => "COMPARE_GT"
    | .compareGe => "COMPARE_GE"
    | .branch => "BRANCH"
    | .branchIfTrue => "BRANCH_IF_TRUE"
    | .branchIfFalse => "BRANCH_IF_FALSE"
    | .call => "CALL"
    | .ret => "RETURN"
    | .loadImmediate => "LOAD_IMMEDIATE"
    | .loadVariable => "LOAD_VARIABLE"
    | .storeVariable => "STORE_VARIABLE"
    | .loadArray => "LOAD_ARRAY"
    | .storeArray => "STORE_ARRAY"
    | .copy => "COPY"
    | .label => "LABEL"
    | .peek => "PEEK"
    | .poke => "POKE"
    | .setFlag => "SET_FLAG"
    | .clearFlag => "CLEAR_FLAG"
    | .nop => "NOP"
    | .comment => "COMMENT"

end Opcode

/-- The coarse kind of an opcode. -/
inductive OpcodeCategory where
  | arithmetic
  | logical
  | bitwise
  | shift
  | comparison
  | controlFlow
  | dataMovement
  | label
  | hardware
  | plain
deriving DecidableEq, Repr

instance : Vocabulary OpcodeCategory where
  all := [.arithmetic, .logical, .bitwise, .shift, .comparison, .controlFlow, .dataMovement, .label,
    .hardware, .plain]
  word
    | .arithmetic => "arithmetic"
    | .logical => "logical"
    | .bitwise => "bitwise"
    | .shift => "shift"
    | .comparison => "comparison"
    | .controlFlow => "control_flow"
    | .dataMovement => "data_movement"
    | .label => "label"
    | .hardware => "hardware"
    | .plain => "meta"

/-- How many operands an opcode takes. Without `max` any number from `min` on is accepted. -/
structure OperandLayout where
  /-- The least number of operands. -/
  min : Nat
  /-- The greatest number of operands, if there is one. -/
  max : Option Nat
deriving DecidableEq, Repr

namespace OperandLayout

/-- Exactly `count` operands. -/
def exact (count : Nat) : OperandLayout :=
  ⟨count, some count⟩

/-- Whether `count` operands satisfy the layout. -/
def accepts (layout : OperandLayout) (count : Nat) : Bool :=
  layout.min ≤ count && layout.max.all (count ≤ ·)

end OperandLayout

namespace Opcode

/-- The category of an opcode. -/
def category : Opcode → OpcodeCategory
  | .add | .sub | .mul | .div | .mod | .neg => .arithmetic
  | .logicalAnd | .logicalOr | .logicalNot => .logical
  | .bitwiseAnd | .bitwiseOr | .bitwiseXor | .bitwiseNot => .bitwise
  | .shiftLeft | .shiftRight => .shift
  | .compareEq | .compareNe | .compareLt | .compareLe | .compareGt | .compareGe => .comparison
  | .branch | .branchIfTrue | .branchIfFalse | .call | .ret => .controlFlow
  | .loadImmediate | .loadVariable | .storeVariable | .loadArray | .storeArray | .copy =>
    .dataMovement
  | .label => .label
  | .peek | .poke | .setFlag | .clearFlag => .hardware
  | .nop | .comment => .plain

/-- The operand counts an opcode takes. -/
def layout : Opcode → OperandLayout
  | .add | .sub | .mul | .div | .mod | .logicalAnd | .logicalOr | .bitwiseAnd | .bitwiseOr
  | .bitwiseXor | .shiftLeft | .shiftRight | .compareEq | .compareNe | .compareLt | .compareLe
  | .compareGt | .compareGe | .loadArray | .storeArray => .exact 3
  | .neg | .logicalNot | .bitwiseNot | .copy | .loadImmediate | .loadVariable | .storeVariable
  | .branchIfTrue | .branchIfFalse | .peek | .poke => .exact 2
  | .branch | .label | .setFlag | .clearFlag => .exact 1
  | .call => ⟨1, none⟩
  | .ret | .comment => ⟨0, some 1⟩
  | .nop => .exact 0

/-- The two conditional jumps. -/
def isConditionalBranch : Opcode → Bool
  | .branchIfTrue | .branchIfFalse => true
  | _ => false

/-- The three jumps. -/
def isBranch : Opcode → Bool
  | .branch | .branchIfTrue | .branchIfFalse => true
  | _ => false

/-- Whether the instruction after this one starts a new block. -/
def endsBlock : Opcode → Bool
  | .branch | .branchIfTrue | .branchIfFalse | .call | .ret => true
  | _ => false

/-- Whether the first operand is written. -/
def definesFirstOperand (op : Opcode) : Bool :=
  match op.category with
  | .arithmetic | .logical | .bitwise | .shift | .comparison => true
  | .dataMovement => op != .storeArray
  | .hardware => op == .peek
  | .controlFlow | .label | .plain => false

/-- Whether the opcode reads or writes memory on the target. -/
def isMemoryAccess : Opcode → Bool
  | .loadVariable | .storeVariable | .loadArray | .storeArray | .peek | .poke => true
  | _ => false

/-- The indexed accesses. -/
def isArrayAccess : Opcode → Bool
  | .loadArray | .storeArray => true
  | _ => false

/-- The opcodes that emit no machine code. -/
def isPseudo : Opcode → Bool
  | .label | .comment => true
  | _ => false

end Opcode

end FlowGauge
