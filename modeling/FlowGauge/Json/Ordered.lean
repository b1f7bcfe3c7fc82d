import FlowGauge.Json
import FlowGauge.Ordered

/-!
# JSON forms of ordered sets and maps

A set is written as the ascending list of its members and read from any list. A map is written as an
object whose names are the written keys; natural-number keys are written in decimal without leading
zeros, and only that spelling is read.
-/

namespace FlowGauge

/-- A type whose values can be the names of an object. -/
class JsonKey (α : Type) where
  /-- Write a key. -/
  name : α → String
  /-- Read a key. -/
  ofName? : String → Option α

instance : JsonKey String where
  name := id
  ofName? := some

/-- The natural number of a 64-bit word with the given decimal text. -/
def indexOfDecimal? (s : String) : Option Nat := do
  let n ← s.toNat?
  if toString n = s ∧ n < Word.bound 64 then some n else none

instance : JsonKey Nat where
  name := toString
  ofName? := indexOfDecimal?

section

variable {α β : Type} [Ord α] [Std.TransOrd α]

instance [JsonForm α] : JsonForm (Std.ExtTreeSet α) where
  encode s := JsonForm.encode s.toList
  decode? j := (JsonForm.decode? j : Option (List α)).map fun members ↦ .ofList members

instance [JsonKey α] [JsonForm β] : JsonForm (Std.ExtTreeMap α β) where
  encode m := .obj (m.toList.map fun (k, v) ↦ (JsonKey.name k, JsonForm.encode v))
  decode?
    | .obj fields => do
      let entry (field : String × Json) : Option (α × β) := do
        return (← JsonKey.ofName? field.1, ← JsonForm.decode? field.2)
      return .ofList (← fields.mapM entry)
    | _ => none

end

end FlowGauge
