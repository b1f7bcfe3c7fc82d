import FlowGauge.Code.Record

/-!
# Platforms and processor variants

A platform comes with exactly one processor variant. A variant determines the optional features of
its instruction set and the memory regions that compiled code may use.
-/

namespace FlowGauge

/-- A processor variant. -/
inductive Variant where
  | mos6502
  | mos6510
  | wdc65C02
deriving DecidableEq, Repr

instance : Vocabulary Variant where
  all := [.mos6502, .mos6510, .wdc65C02]
  word
    | .mos6502 => "6502"
    | .mos6510 => "6510"
    | .wdc65C02 => "65c02"

/-- A target machine. -/
inductive Platform where
  | c64
  | vic20
  | x16
deriving DecidableEq, Repr

instance : Vocabulary Platform where
  all := [.c64, .vic20, .x16]
  word
    | .c64 => "c64"
    | .vic20 => "vic20"
    | .x16 => "x16"

namespace Platform

/-- The variant a platform comes with. -/
def processor : Platform → Variant
  | .c64 => .mos6510
  | .vic20 => .mos6502
  | .x16 => .wdc65C02

/-- Whether a variant runs on a platform. -/
def supports (p : Platform) (v : Variant) : Bool :=
  p.processor == v

end Platform

/-- An optional feature of a variant. -/
inductive Feature where
  /-- Decimal arithmetic. -/
  | decimalMode
  /-- Input and output lines on the chip. -/
  | ioPort
  /-- Indirect addressing through page zero without an index register. -/
  | zeroPageIndirect
  /-- An instruction that stores zero. -/
  | storeZero
  /-- A relative jump that is always taken. -/
  | branchAlways
  /-- Increment and decrement of the accumulator. -/
  | accumulatorIncDec
  /-- Stack instructions for the index registers. -/
  | indexStackOps
  /-- Instructions that test and set bits. -/
  | testAndSetBits
deriving DecidableEq, Repr

namespace Feature

instance : Vocabulary Feature where
  all := [.decimalMode, .ioPort, .zeroPageIndirect, .storeZero, .branchAlways, .accumulatorIncDec,
    .indexStackOps, .testAndSetBits]
  word
    | .decimalMode => "DECIMAL_MODE"
    | .ioPort => "IO_PORT"
    | .zeroPageIndirect => "ZERO_PAGE_INDIRECT"
    | .storeZero => "STORE_ZERO"
    | .branchAlways => "BRANCH_ALWAYS"
    | .accumulatorIncDec => "ACCUMULATOR_INC_DEC"
    | .indexStackOps => "INDEX_STACK_OPS"
    | .testAndSetBits => "TEST_AND_SET_BITS"

/-- The features in order stand for the bits of a word, the lowest first. -/
def bit (f : Feature) : Nat :=
  1 <<< Vocabulary.position f

end Feature

/-- The sizes of the memory regions, in bytes. -/
structure MemoryMap where
  zeroPage : Nat
  stack : Nat
  ram : Nat
deriving DecidableEq, Repr

/-- The JSON form of a memory map. -/
def MemoryMap.json (m : MemoryMap) : Json :=
  .obj [("zero_page_bytes", .nat m.zeroPage), ("stack_bytes", .nat m.stack),
    ("ram_bytes", .nat m.ram)]

namespace Variant

/-- The features of a variant, in order. -/
def features : Variant → List Feature
  | .mos6502 => [.decimalMode]
  | .mos6510 => [.decimalMode, .ioPort]
  | .wdc65C02 => [.decimalMode, .zeroPageIndirect, .storeZero, .branchAlways, .accumulatorIncDec,
      .indexStackOps, .testAndSetBits]

/-- The word whose bits are the features of a variant. -/
def featureBits (v : Variant) : Nat :=
  total (v.features.map Feature.bit)

/-- The memory that compiled code may use. -/
def memoryMap : Variant → MemoryMap
  | .mos6502 => ⟨112, 256, 3583⟩
  | .mos6510 => ⟨142, 256, 38911⟩
  | .wdc65C02 => ⟨94, 256, 38655⟩

end Variant

end FlowGauge
