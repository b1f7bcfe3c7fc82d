import FlowGauge.Target.Platform

/-!
# Cycle costs

The base cost of an opcode is the cycle count of its usual byte-sized code with operands in page
zero. Another addressing mode costs extra cycles for every operand in memory.
-/

namespace FlowGauge

namespace Opcode

/-- The base cost of an opcode. The variants differ only where the usual code itself differs. -/
def baseCycles (v : Variant) : Opcode → Nat
  | .add | .sub => 11
  | .mul => 48
  | .div | .mod => 80
  | .neg => if v = .wdc65C02 then 6 else 8
  | .logicalAnd | .logicalOr => 12
  | .logicalNot => 8
  | .bitwiseAnd | .bitwiseOr | .bitwiseXor => 9
  | .bitwiseNot => 8
  | .shiftLeft | .shiftRight => 5
  | .compareEq | .compareNe | .compareLt | .compareLe | .compareGt | .compareGe => 13
  | .branch => 3
  | .branchIfTrue | .branchIfFalse => 6
  | .call => 12
  | .ret => 6
  | .loadImmediate => 5
  | .loadVariable | .storeVariable | .copy => 6
  | .loadArray | .storeArray => 10
  | .peek | .poke => 8
  | .setFlag | .clearFlag | .nop => 2
  | .label | .comment => 0

end Opcode

namespace AddressingMode

/-- The extra cycles for every operand in memory, compared with page zero. -/
def extraCycles : AddressingMode → Nat
  | .implied | .immediate | .zeroPage | .relative => 0
  | .absolute | .zeroPageX | .zeroPageY => 1
  | .absoluteX | .absoluteY | .indirect | .zeroPageIndirect | .indirectIndexed => 2
  | .indexedIndirect => 3

/-- Whether a variant has an addressing mode. -/
def availableOn (v : Variant) : AddressingMode → Bool
  | .zeroPageIndirect => v.features.contains .zeroPageIndirect
  | _ => true

end AddressingMode

/-- The cost of an instruction, at most what a 32-bit word holds. Without a hint its operands are
taken to lie in page zero. -/
def Instruction.cycles (v : Variant) (i : Instruction) : Nat :=
  min (i.opcode.baseCycles v + (i.mode?.getD .zeroPage).extraCycles * i.memoryOperandCount)
    (Word.bound 32 - 1)

end FlowGauge
