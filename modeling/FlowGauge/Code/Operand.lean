import FlowGauge.Vocabulary
import FlowGauge.Code.DataType

/-!
# Operands

An operand is a constant, a named variable, a register, a temporary, a memory cell or a label. Only
variables and temporaries are tracked by the data-flow analyses; `Operand.key?` is the name under
which they are tracked.
-/

namespace FlowGauge

/-- Where a variable would best be kept. -/
inductive StorageHint where
  | auto
  | zeroPage
  | register
  | ram
deriving DecidableEq, Repr, Inhabited

instance : Vocabulary StorageHint where
  all := [.auto, .zeroPage, .register, .ram]
  word
    | .auto => "auto"
    | .zeroPage => "zero_page"
    | .register => "register"
    | .ram => "ram"

/-- Who can see a named variable. -/
inductive VariableScope where
  | global
  | «local»
  | temporary
deriving DecidableEq, Repr

instance : Vocabulary VariableScope where
  all := [.global, .local, .temporary]
  word
    | .global => "global"
    | .local => "local"
    | .temporary => "temporary"

/-- How long a temporary lives. -/
inductive TemporaryScope where
  | expression
  | statement
  | block
  | function
deriving DecidableEq, Repr

instance : Vocabulary TemporaryScope where
  all := [.expression, .statement, .block, .function]
  word
    | .expression => "expression"
    | .statement => "statement"
    | .block => "block"
    | .function => "function"

/-- The registers an allocator can use. -/
inductive Register where
  | a
  | x
  | y
deriving DecidableEq, Repr

instance : Vocabulary Register where
  all := [.a, .x, .y]
  word
    | .a => "A"
    | .x => "X"
    | .y => "Y"

/-- A typed literal. -/
structure Constant where
  type : DataType
  value : Int32
deriving DecidableEq, Repr

/-- Whether `n` is `2 ^ k` for some `k`. -/
def isPowerOfTwo (n : Nat) : Bool :=
  n != 0 && n == 1 <<< n.log2

/-- Whether the literal is a positive power of two. -/
def Constant.isPowerOfTwo (c : Constant) : Bool :=
  0 < c.value.toInt && FlowGauge.isPowerOfTwo c.value.toInt.toNat

/-- A named variable. -/
structure Variable where
  name : String
  type : DataType
  storage : StorageHint
  scope : VariableScope
deriving DecidableEq, Repr

/-- A numbered temporary. -/
structure Temporary where
  id : UInt32
  type : DataType
  scope : TemporaryScope
deriving DecidableEq, Repr

/-- The name under which a temporary is shown and tracked. -/
def Temporary.name (t : Temporary) : String :=
  "%t" ++ toString t.id.toNat

/-- A value at an absolute address. -/
structure MemoryCell where
  address : UInt16
  type : DataType
deriving DecidableEq, Repr

/-- Whether the cell lies in page zero. -/
def MemoryCell.isZeroPage (cell : MemoryCell) : Bool :=
  cell.address < 0x100

/-- An operand or a result of an instruction. -/
inductive Operand where
  | constant (literal : Constant)
  | var (named : Variable)
  | register (register : Register)
  | temporary (temporary : Temporary)
  | memory (cell : MemoryCell)
  | label (name : String)
deriving DecidableEq, Repr

/-- An address in four capital hexadecimal digits. -/
def hexAddress (address : UInt16) : String :=
  let digits := (Nat.toDigits 16 address.toNat).map Char.toUpper
  String.ofList (List.replicate (4 - digits.length) '0' ++ digits)

namespace Operand

/-! ### Short forms -/

/-- A byte literal. -/
def ofByte (value : UInt8) : Operand :=
  .constant ⟨.byte, Int32.ofNat value.toNat⟩

/-- A word literal. -/
def ofWord (value : UInt16) : Operand :=
  .constant ⟨.word, Int32.ofNat value.toNat⟩

/-- A truth literal. -/
def ofBool (value : Bool) : Operand :=
  .constant ⟨.boolean, if value then 1 else 0⟩

/-- A local variable without storage preference. -/
def localVar (name : String) (type : DataType) : Operand :=
  .var ⟨name, type, .auto, .local⟩

/-- A global variable without storage preference. -/
def globalVar (name : String) (type : DataType) : Operand :=
  .var ⟨name, type, .auto, .global⟩

/-- A byte temporary that lives within an expression. -/
def temp (id : UInt32) : Operand :=
  .temporary ⟨id, .byte, .expression⟩

/-- The byte at an address. -/
def byteAt (address : UInt16) : Operand :=
  .memory ⟨address, .byte⟩

/-! ### Questions -/

/-- The key under which the data-flow analyses track the operand, if they do: the name of a
variable, or the shown name of a temporary. -/
def key? : Operand → Option String
  | .var v => some v.name
  | .temporary t => some t.name
  | _ => none

/-- The literal, if the operand is one. -/
def constant? : Operand → Option Constant
  | .constant c => some c
  | _ => none

/-- The label, if the operand is one. -/
def label? : Operand → Option String
  | .label name => some name
  | _ => none

/-- Whether the target addresses the operand in memory: variables and memory cells. -/
def isMemory : Operand → Bool
  | .var _ | .memory _ => true
  | _ => false

/-- Whether the operand is a variable of global scope. -/
def isGlobal : Operand → Bool
  | .var v => v.scope == .global
  | _ => false

/-- The type of the value. Registers hold bytes; labels hold nothing. -/
def type : Operand → DataType
  | .constant c => c.type
  | .var v => v.type
  | .register _ => .byte
  | .temporary t => t.type
  | .memory m => m.type
  | .label _ => .void

/-- The text of an operand. -/
def text : Operand → String
  | .constant c => "#" ++ toString c.value.toInt
  | .var v => v.name
  | .register r => Vocabulary.word r
  | .temporary t => t.name
  | .memory m => "$" ++ hexAddress m.address
  | .label name => "@" ++ name

end Operand

end FlowGauge
