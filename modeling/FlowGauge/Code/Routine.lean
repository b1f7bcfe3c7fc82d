import FlowGauge.Code.Instruction
import FlowGauge.Ordered

/-!
# Routines and programs

A routine is a list of instructions with its declarations; a program is a list of units of routines.
Labels are resolved by `Routine.labelPosition?`: a label names its first definition.
-/

namespace FlowGauge

/-- Where a declared variable is allocated. -/
inductive StorageClass where
  | register
  | zeroPage
  | stack
  | ram
deriving DecidableEq, Repr

instance : Vocabulary StorageClass where
  all := [.register, .zeroPage, .stack, .ram]
  word
    | .register => "register"
    | .zeroPage => "zero_page"
    | .stack => "stack"
    | .ram => "ram"

/-- A declared local or global variable. -/
structure Declaration where
  name : String
  type : DataType
  allocation : StorageClass
deriving DecidableEq, Repr

/-- A parameter of a routine. -/
structure Parameter where
  name : String
  type : DataType
deriving DecidableEq, Repr

/-- A routine, the unit on which every analysis runs. -/
structure Routine where
  name : String
  parameters : List Parameter := []
  returnType : DataType := .void
  instructions : List Instruction := []
  locals : List Declaration := []
  /-- Whether the routine serves interrupts. -/
  isInterruptHandler : Bool := false
deriving DecidableEq, Repr

namespace Routine

/-- The number of instructions. -/
def size (r : Routine) : Nat :=
  r.instructions.length

/-- The instructions that emit machine code. -/
def executable (r : Routine) : List Instruction :=
  r.instructions.filter (!·.opcode.isPseudo)

/-- The position of the first definition of a label. -/
def labelPosition? (r : Routine) (label : String) : Option Nat :=
  r.instructions.findIdx? fun i ↦ i.labelName? == some label

/-- Every defined label with the position of its first definition. -/
def labelPositions (r : Routine) : Std.ExtTreeMap String Nat :=
  r.instructions.zipIdx.foldl
    (fun positions (i, index) ↦ match i.labelName? with
      | some name => positions.insertIfNew name index
      | none => positions)
    ∅

end Routine

/-- A compilation unit: routines and global variables. -/
structure CodeUnit where
  name : String
  routines : List Routine := []
  globals : List Declaration := []
deriving DecidableEq, Repr

/-- A whole program. -/
structure Program where
  name : String
  units : List CodeUnit := []
deriving DecidableEq, Repr

namespace Program

/-- All routines, unit by unit. -/
def routines (p : Program) : List Routine :=
  p.units.flatMap CodeUnit.routines

/-- The first routine of the first unit that has one. -/
def firstRoutine? (p : Program) : Option Routine :=
  p.routines.head?

end Program

end FlowGauge
