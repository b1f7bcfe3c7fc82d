import FlowGauge.Code.Routine

/-!
# JSON forms of code

Every record is written with all its fields; an absent optional field is written as `null`. An
operand is written as its kind beside its value, and read from these two names or from the list of
the two; `Operand.tag?` takes them apart.
-/

namespace FlowGauge

/-- Members of a vocabulary are written as their word. -/
instance (priority := low) {α : Type} [Vocabulary α] : JsonForm α where
  encode a := .str (Vocabulary.word a)
  decode? j := j.bareChoice?.bind Vocabulary.ofWord?

instance : JsonForm Constant where
  encode c := .obj [("ty", JsonForm.encode c.type), ("value", JsonForm.encode c.value)]
  decode? j := do
    let [type, value] ← j.record? ["ty", "value"] | none
    return ⟨← JsonForm.required type, ← JsonForm.required value⟩

instance : JsonForm Variable where
  encode v := .obj [("name", JsonForm.encode v.name), ("ty", JsonForm.encode v.type),
    ("storage", JsonForm.encode v.storage), ("scope", JsonForm.encode v.scope)]
  decode? j := do
    let [name, type, storage, scope] ← j.record? ["name", "ty", "storage", "scope"] | none
    return ⟨← JsonForm.required name, ← JsonForm.required type, ← JsonForm.required storage,
      ← JsonForm.required scope⟩

instance : JsonForm Temporary where
  encode t := .obj [("id", JsonForm.encode t.id), ("ty", JsonForm.encode t.type),
    ("scope", JsonForm.encode t.scope)]
  decode? j := do
    let [id, type, scope] ← j.record? ["id", "ty", "scope"] | none
    return ⟨← JsonForm.required id, ← JsonForm.required type, ← JsonForm.required scope⟩

instance : JsonForm MemoryCell where
  encode m := .obj [("address", JsonForm.encode m.address), ("ty", JsonForm.encode m.type)]
  decode? j := do
    let [address, type] ← j.record? ["address", "ty"] | none
    return ⟨← JsonForm.required address, ← JsonForm.required type⟩

namespace Operand

/-- The kind and the value of an operand. -/
def tagged (kind : String) (value : Json) : Json :=
  .obj [("kind", .str kind), ("value", value)]

/-- The kind and the value that a document gives. Named, the kind takes either form of a choice;
listed, it is the plain word. -/
def tag? : Json → Option (String × Json)
  | .obj fields => do
    return (← (← Json.field? fields "kind").bareChoice?, ← Json.field? fields "value")
  | .arr [.str kind, value] => some (kind, value)
  | _ => none

/-- The operand of a kind, from its value. -/
def ofTagged? (kind : String) (value : Json) : Option Operand :=
  match kind with
  | "constant" => (JsonForm.decode? value).map .constant
  | "variable" => (JsonForm.decode? value).map .var
  | "register" => (JsonForm.decode? value).map .register
  | "temporary" => (JsonForm.decode? value).map .temporary
  | "memory" => (JsonForm.decode? value).map .memory
  | "label" => (JsonForm.decode? value).map .label
  | _ => none

instance : JsonForm Operand where
  encode
    | .constant c => tagged "constant" (JsonForm.encode c)
    | .var v => tagged "variable" (JsonForm.encode v)
    | .register r => tagged "register" (JsonForm.encode r)
    | .temporary t => tagged "temporary" (JsonForm.encode t)
    | .memory m => tagged "memory" (JsonForm.encode m)
    | .label name => tagged "label" (JsonForm.encode name)
  decode? j := do
    let (kind, value) ← tag? j
    ofTagged? kind value

end Operand

instance : JsonForm SourceLocation where
  encode s := .obj [("file", JsonForm.encode s.file), ("line", JsonForm.encode s.line),
    ("column", JsonForm.encode s.column)]
  decode? j := do
    let [file, line, column] ← j.record? ["file", "line", "column"] | none
    return ⟨← JsonForm.optional file, ← JsonForm.required line, ← JsonForm.required column⟩

instance : JsonForm Hints where
  encode h := .obj [("addressing_mode", JsonForm.encode h.mode),
    ("preferred_register", JsonForm.encode h.register), ("hot_path", JsonForm.encode h.hot)]
  decode? j := do
    let [mode, register, hot] ←
      j.record? ["addressing_mode", "preferred_register", "hot_path"] | none
    return ⟨← JsonForm.optional mode, ← JsonForm.optional register, ← JsonForm.required hot⟩

instance : JsonForm Instruction where
  encode i := .obj [("id", JsonForm.encode i.id), ("opcode", JsonForm.encode i.opcode),
    ("operands", JsonForm.encode i.operands), ("result", JsonForm.encode i.result),
    ("source", JsonForm.encode i.source), ("hints", JsonForm.encode i.hints)]
  decode? j := do
    let [id, opcode, operands, result, source, hints] ←
      j.record? ["id", "opcode", "operands", "result", "source", "hints"] | none
    return ⟨← JsonForm.required id, ← JsonForm.required opcode, ← JsonForm.required operands,
      ← JsonForm.optional result, ← JsonForm.optional source, ← JsonForm.optional hints⟩

instance : JsonForm Declaration where
  encode d := .obj [("name", JsonForm.encode d.name), ("ty", JsonForm.encode d.type),
    ("allocation", JsonForm.encode d.allocation)]
  decode? j := do
    let [name, type, allocation] ← j.record? ["name", "ty", "allocation"] | none
    return ⟨← JsonForm.required name, ← JsonForm.required type, ← JsonForm.required allocation⟩

instance : JsonForm Parameter where
  encode p := .obj [("name", JsonForm.encode p.name), ("ty", JsonForm.encode p.type)]
  decode? j := do
    let [name, type] ← j.record? ["name", "ty"] | none
    return ⟨← JsonForm.required name, ← JsonForm.required type⟩

instance : JsonForm Routine where
  encode r := .obj [("name", JsonForm.encode r.name), ("parameters", JsonForm.encode r.parameters),
    ("return_type", JsonForm.encode r.returnType),
    ("instructions", JsonForm.encode r.instructions), ("locals", JsonForm.encode r.locals),
    ("is_interrupt_handler", JsonForm.encode r.isInterruptHandler)]
  decode? j := do
    let [name, parameters, returnType, instructions, locals, handler] ←
      j.record? ["name", "parameters", "return_type", "instructions", "locals",
        "is_interrupt_handler"] | none
    return ⟨← JsonForm.required name, ← JsonForm.required parameters,
      ← JsonForm.required returnType, ← JsonForm.required instructions,
      ← JsonForm.required locals, ← JsonForm.required handler⟩

instance : JsonForm CodeUnit where
  encode u := .obj [("name", JsonForm.encode u.name), ("functions", JsonForm.encode u.routines),
    ("globals", JsonForm.encode u.globals)]
  decode? j := do
    let [name, routines, globals] ← j.record? ["name", "functions", "globals"] | none
    return ⟨← JsonForm.required name, ← JsonForm.required routines, ← JsonForm.required globals⟩

instance : JsonForm Program where
  encode p := .obj [("name", JsonForm.encode p.name), ("modules", JsonForm.encode p.units)]
  decode? j := do
    let [name, units] ← j.record? ["name", "modules"] | none
    return ⟨← JsonForm.required name, ← JsonForm.required units⟩

end FlowGauge
