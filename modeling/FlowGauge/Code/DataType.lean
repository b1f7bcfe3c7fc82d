import FlowGauge.Checked
import FlowGauge.Json

/-!
# Data types and their sizes

A data type is a scalar or a fixed-length array of a data type. Sizes are 32-bit words, so the size
of a deeply nested array may be refused; `DataType.size` says where.
-/

namespace FlowGauge

/-- The type of a value. -/
inductive DataType where
  /-- No value. -/
  | void
  /-- Unsigned 8-bit value. -/
  | byte
  /-- Unsigned 16-bit value. -/
  | word
  /-- Truth value, stored as a byte. -/
  | boolean
  /-- 16-bit address. -/
  | pointer
  /-- Fixed-length array. -/
  | array (element : DataType) (length : UInt16)
deriving DecidableEq, Repr, Inhabited

namespace DataType

/-- The number of bytes a value occupies on the target. Array sizes are computed from the inside
out, and the first product that leaves 32 bits is refused. -/
def size : DataType → Checked Nat
  | void => .ok 0
  | byte | boolean => .ok 1
  | word | pointer => .ok 2
  | array element length => do Checked.mul32 (← element.size) length.toNat

/-- The 16-bit scalars, which cost two 8-bit operations each. -/
def isWide : DataType → Bool
  | word | pointer => true
  | _ => false

/-! ### JSON form -/

/-- Scalars are written as their word, arrays as an object under the name `array`. -/
def encode : DataType → Json
  | void => .str "void"
  | byte => .str "byte"
  | word => .str "word"
  | boolean => .str "boolean"
  | pointer => .str "pointer"
  | array element length =>
    .obj [("array", .obj [("element", element.encode), ("length", JsonForm.encode length)])]

/-- The scalar with the given word. -/
def scalar? : String → Option DataType
  | "void" => some void
  | "byte" => some byte
  | "word" => some word
  | "boolean" => some boolean
  | "pointer" => some pointer
  | _ => none

/-- Reads what `encode` writes, and a scalar also as the only name of an object with `null`. The
element and the length of an array are always named: their list is refused. -/
def decode? (j : Json) : Option DataType :=
  match j with
  | .obj [("array", .obj fields)] =>
    match _h : Json.field? fields "element" with
    | some element => do
      return array (← decode? element) (← JsonForm.required (Json.field? fields "length"))
    | none => none
  | j => j.bareChoice?.bind scalar?
termination_by sizeOf j
decreasing_by
  have := Json.sizeOf_lt_of_field? _h
  simp only [Json.obj.sizeOf_spec, List.cons.sizeOf_spec, Prod.mk.sizeOf_spec]
  omega

instance : JsonForm DataType where
  encode := encode
  decode? := decode?

end DataType

end FlowGauge
