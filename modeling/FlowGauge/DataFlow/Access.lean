import FlowGauge.Flow.Graph

/-!
# Variable accesses

What an instruction does to the tracked variables: the variables it reads, each with the role of the
read, and the variable it writes. A written first operand is not read. Locations name an instruction
by its block and its index in the routine, and are ordered in that way.
-/

namespace FlowGauge

/-- Why a variable is read. -/
inductive UseRole where
  | branchCondition
  | arrayIndex
  | callArgument
  | returnValue
  | plainRead
deriving DecidableEq, Repr

instance : Vocabulary UseRole where
  all := [.branchCondition, .arrayIndex, .callArgument, .returnValue, .plainRead]
  word
    | .branchCondition => "branch_condition"
    | .arrayIndex => "array_index"
    | .callArgument => "call_argument"
    | .returnValue => "return_value"
    | .plainRead => "plain_read"

/-- The role of the operand at a position. -/
def UseRole.ofOperand (opcode : Opcode) (position : Nat) : UseRole :=
  match opcode, position with
  | .branchIfTrue, 0 | .branchIfFalse, 0 => .branchCondition
  | .loadArray, 2 | .storeArray, 1 => .arrayIndex
  | .call, 0 => .plainRead
  | .call, _ => .callArgument
  | .ret, 0 => .returnValue
  | _, _ => .plainRead

/-- The position of an instruction: its block and its index in the routine. -/
structure Location where
  block : BlockId
  index : Nat
deriving DecidableEq, Repr

namespace Location

instance : Ord Location :=
  ⟨compareLex (compareOn block) (compareOn index)⟩

instance : Std.TransOrd Location :=
  inferInstanceAs (Std.TransCmp (compareLex (compareOn block) (compareOn index)))

instance : Std.LawfulEqOrd Location where
  eq_of_compare {a b} h := by
    have h' : compareLex (compareOn block) (compareOn index) a b = .eq := h
    rw [compareLex_eq_eq] at h'
    cases a
    cases b
    simp_all [compareOn]

instance : JsonForm Location where
  encode l := .obj [("block", JsonForm.encode l.block), ("index", JsonForm.encode l.index)]
  decode? j := do
    let [block, index] ← j.record? ["block", "index"] | none
    return ⟨← JsonForm.required block, ← JsonForm.required index⟩

end Location

/-- A finite set of locations. -/
abbrev LocationSet : Type :=
  Std.ExtTreeSet Location

namespace Instruction

/-- The tracked variables an instruction reads, with their roles, in operand order. -/
def uses (i : Instruction) : List (String × UseRole) :=
  (i.operands.zipIdx.drop i.firstRead).filterMap fun (operand, position) ↦
    operand.key?.map fun key ↦ (key, .ofOperand i.opcode position)

/-- The tracked variable an instruction writes. -/
def defined? (i : Instruction) : Option String :=
  i.definition?.bind Operand.key?

end Instruction

namespace FlowGraph

/-- The instructions of the listed blocks with their locations. -/
def located (g : FlowGraph) (blocks : List BlockId) : List (Location × Instruction) :=
  blocks.flatMap fun b ↦ (g.block? b).elim [] fun block ↦
    block.indexed.map fun (index, i) ↦ (⟨b, index⟩, i)

end FlowGraph

end FlowGauge
