import FlowGauge.Code.Opcode
import FlowGauge.Code.Operand

/-!
# Instructions

An instruction is an opcode with its operands, and possibly an explicit result, a source position
and hints. What it writes is its result if there is one, and otherwise the first operand of an
opcode that defines it (`Instruction.definition?`); the operands from `Instruction.firstRead` on are
read.
-/

namespace FlowGauge

/-- How an instruction addresses its operand. -/
inductive AddressingMode where
  | implied
  | immediate
  | zeroPage
  | zeroPageX
  | zeroPageY
  | absolute
  | absoluteX
  | absoluteY
  | indirect
  | indexedIndirect
  | indirectIndexed
  | zeroPageIndirect
  | relative
deriving DecidableEq, Repr

instance : Vocabulary AddressingMode where
  all := [.implied, .immediate, .zeroPage, .zeroPageX, .zeroPageY, .absolute, .absoluteX,
    .absoluteY, .indirect, .indexedIndirect, .indirectIndexed, .zeroPageIndirect, .relative]
  word
    | .implied => "implied"
    | .immediate => "immediate"
    | .zeroPage => "zero_page"
    | .zeroPageX => "zero_page_x"
    | .zeroPageY => "zero_page_y"
    | .absolute => "absolute"
    | .absoluteX => "absolute_x"
    | .absoluteY => "absolute_y"
    | .indirect => "indirect"
    | .indexedIndirect => "indexed_indirect"
    | .indirectIndexed => "indirect_indexed"
    | .zeroPageIndirect => "zero_page_indirect"
    | .relative => "relative"

/-- A position in a source text. -/
structure SourceLocation where
  file : Option String
  line : UInt32
  column : UInt32
deriving DecidableEq, Repr

/-- Wishes of earlier stages about one instruction. -/
structure Hints where
  /-- The addressing mode the code generator intends to use. -/
  mode : Option AddressingMode
  /-- The register the result should be kept in. -/
  register : Option Register
  /-- Whether the instruction was marked as performance critical. -/
  hot : Bool
deriving DecidableEq, Repr

/-- One instruction. Its `id` is independent of its position. -/
structure Instruction where
  id : UInt32
  opcode : Opcode
  operands : List Operand
  /-- An explicit destination, used by calls. -/
  result : Option Operand := none
  source : Option SourceLocation := none
  hints : Option Hints := none
deriving DecidableEq, Repr

namespace Instruction

/-- The operand the instruction writes. An explicit result wins over a defining first operand. -/
def definition? (i : Instruction) : Option Operand :=
  match i.result with
  | some r => some r
  | none => if i.opcode.definesFirstOperand then i.operands.head? else none

/-- The index of the first operand that is read rather than written. -/
def firstRead (i : Instruction) : Nat :=
  if i.result.isNone && i.opcode.definesFirstOperand then 1 else 0

/-- The operands that are read. -/
def reads (i : Instruction) : List Operand :=
  i.operands.drop i.firstRead

/-- The label a branch names, if its label operand is one. -/
def branchTarget? (i : Instruction) : Option String :=
  match i.opcode with
  | .branch => i.operands[0]?.bind Operand.label?
  | .branchIfTrue | .branchIfFalse => i.operands[1]?.bind Operand.label?
  | _ => none

/-- The label a label instruction defines. -/
def labelName? (i : Instruction) : Option String :=
  if i.opcode = .label then i.operands[0]?.bind Operand.label? else none

/-- Whether the number of operands satisfies the layout of the opcode. -/
def hasValidArity (i : Instruction) : Bool :=
  i.opcode.layout.accepts i.operands.length

/-- The operands, followed by the explicit result. -/
def mentions (i : Instruction) : List Operand :=
  i.operands ++ i.result.toList

/-- The number of mentioned operands that are addressed in memory. -/
def memoryOperandCount (i : Instruction) : Nat :=
  i.mentions.countP Operand.isMemory

/-- The hinted addressing mode. -/
def mode? (i : Instruction) : Option AddressingMode :=
  i.hints.bind Hints.mode

/-- The hinted register. -/
def register? (i : Instruction) : Option Register :=
  i.hints.bind Hints.register

/-- The text of an instruction: opcode, operands, and the result behind an arrow. -/
def text (i : Instruction) : String :=
  let operands := match i.operands with
    | [] => ""
    | _ => " " ++ ", ".intercalate (i.operands.map Operand.text)
  let result := match i.result with
    | none => ""
    | some r => " -> " ++ r.text
  Vocabulary.word i.opcode ++ operands ++ result

end Instruction

end FlowGauge
