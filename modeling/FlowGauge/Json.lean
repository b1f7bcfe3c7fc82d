import FlowGauge.Word

/-!
# JSON documents and record forms

`Json` is the document type in which routines, graphs and results are exchanged. Whole numbers and
floating-point numbers are different documents, because a whole-number field refuses `3.0` while a
floating-point field accepts `3`.

`JsonForm α` pairs the writer of a type with its reader. The reader's rules are shared by all
records:

* a record is read from its named fields, unknown names ignored, or from the list of exactly its
  fields in declaration order;
* an absent optional field is the same as `null`;
* a choice is read from its word, or from an object with that word as its only name; a choice
  without content takes `null` there, and the fields of one with content are named, never listed;
* numbers must fit the type of the field.

The round trip of a composite form therefore rests on the round trips of its parts and on the field
names being distinct.
-/

namespace FlowGauge

/-- A JSON document. -/
inductive Json where
  | null
  | bool (value : Bool)
  | int (value : Int)
  | float (value : Float)
  | str (value : String)
  | arr (items : List Json)
  | obj (fields : List (String × Json))
deriving Inhabited, BEq

namespace Json

/-- The document of a natural number. -/
def nat (n : Nat) : Json :=
  .int n

/-- The fields of an object; anything else has none. -/
def fields : Json → List (String × Json)
  | .obj fields => fields
  | _ => []

/-- The value of a named field in a list of fields. -/
def field? (fields : List (String × Json)) (name : String) : Option Json :=
  (fields.find? fun entry ↦ entry.1 == name).map Prod.snd

theorem sizeOf_lt_of_field? {fields : List (String × Json)} {name : String} {v : Json}
    (h : field? fields name = some v) : sizeOf v < sizeOf fields := by
  obtain ⟨entry, hfind, rfl⟩ := Option.map_eq_some_iff.1 h
  have hmem := List.sizeOf_lt_of_mem (List.mem_of_find?_eq_some hfind)
  have : sizeOf entry = 1 + sizeOf entry.1 + sizeOf entry.2 := rfl
  omega

/-- The fields of a record with the given field names, in that order; `none` inside for an absent
named field. -/
def record? (names : List String) : Json → Option (List (Option Json))
  | .obj fields => some (names.map (field? fields))
  | .arr items => if items.length = names.length then some (items.map some) else none
  | _ => none

/-- A choice and its content, if the document is one. -/
def choice? : Json → Option (String × Option Json)
  | .str word => some (word, none)
  | .obj [(word, content)] => some (word, some content)
  | _ => none

/-- A choice without content. -/
def bareChoice? (j : Json) : Option String :=
  match j.choice? with
  | some (word, none) => some word
  | some (word, some .null) => some word
  | _ => none

end Json

/-- A type with a JSON form. -/
class JsonForm (α : Type) where
  /-- Write a value. -/
  encode : α → Json
  /-- Read a value; `none` when the document is not a form of one. -/
  decode? : Json → Option α

namespace JsonForm

/-- Read a field that must be there. -/
def required {α : Type} [JsonForm α] (field : Option Json) : Option α :=
  field.bind decode?

/-- Read a field that may be absent or `null`. -/
def optional {α : Type} [JsonForm α] : Option Json → Option (Option α)
  | none => some none
  | some .null => some none
  | some j => (decode? j).map some

/-- Read a whole number between `lo` and `hi`, both included. -/
def intBetween (lo hi : Int) : Json → Option Int
  | .int n => if lo ≤ n ∧ n ≤ hi then some n else none
  | _ => none

instance : JsonForm Bool where
  encode := .bool
  decode?
    | .bool b => some b
    | _ => none

instance : JsonForm String where
  encode := .str
  decode?
    | .str s => some s
    | _ => none

instance : JsonForm Float where
  encode := .float
  decode?
    | .float x => some x
    | .int n => some (Float.ofInt n)
    | _ => none

/-- Indices, counts and sizes are 64-bit words. -/
instance : JsonForm Nat where
  encode := Json.nat
  decode? j := (intBetween 0 (Word.bound 64 - 1) j).map Int.toNat

instance : JsonForm UInt32 where
  encode n := .nat n.toNat
  decode? j := (intBetween 0 (Word.bound 32 - 1) j).map fun n ↦ UInt32.ofNat n.toNat

instance : JsonForm UInt16 where
  encode n := .nat n.toNat
  decode? j := (intBetween 0 (Word.bound 16 - 1) j).map fun n ↦ UInt16.ofNat n.toNat

instance : JsonForm Int32 where
  encode n := .int n.toInt
  decode? j := (intBetween (-(Word.bound 31)) (Word.bound 31 - 1) j).map Int32.ofInt

instance {α : Type} [JsonForm α] : JsonForm (List α) where
  encode xs := .arr (xs.map encode)
  decode?
    | .arr items => items.mapM decode?
    | _ => none

instance {α : Type} [JsonForm α] : JsonForm (Option α) where
  encode
    | none => .null
    | some a => encode a
  decode? j := optional (some j)

instance {α β : Type} [JsonForm α] [JsonForm β] : JsonForm (α × β) where
  encode p := .arr [encode p.1, encode p.2]
  decode?
    | .arr [a, b] => do return (← decode? a, ← decode? b)
    | _ => none

end JsonForm

end FlowGauge
