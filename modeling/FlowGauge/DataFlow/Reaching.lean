import FlowGauge.DataFlow.Access
import FlowGauge.DataFlow.Solver

/-!
# Reaching definitions

A definition reaches a point when some path leads from it to the point without another definition of
the same variable. Definitions are numbered in the order of the blocks, and a forward gen/kill
problem over these numbers gives the definitions that reach the start of every block; replaying the
block gives those that reach each read. The uses of a definition are the reads that it reaches.
-/

namespace FlowGauge

/-- A read and the definitions that reach it. -/
structure UseDef where
  location : Location
  variableName : String
  role : UseRole
  definitions : LocationSet
deriving DecidableEq

/-- A definition and the reads it reaches. -/
structure DefUse where
  definition : Location
  variableName : String
  uses : LocationSet
deriving DecidableEq

/-- The places where a variable is written and read. -/
structure Sites where
  definitions : LocationSet := ∅
  uses : LocationSet := ∅
deriving DecidableEq

namespace Reaching

/-- A definition: its place and the variable it writes. -/
abbrev Definition : Type :=
  Location × String

/-- The definitions in the listed blocks, in order. -/
def definitions (g : FlowGraph) (blocks : List BlockId) : List Definition :=
  (g.located blocks).filterMap fun (location, i) ↦ i.defined?.map fun name ↦ (location, name)

/-- The definitions of a variable with their numbers. -/
def numbered (all : List Definition) (name : String) : List (Definition × Nat) :=
  all.zipIdx.filter (·.1.2 == name)

/-- The numbers of the definitions of a variable. -/
def definitionsOf (all : List Definition) (name : String) : BitSet :=
  .ofList all.length ((numbered all name).map Prod.snd)

/-- A definition of `name` replaces all definitions of `name` by itself. -/
def define (all : List Definition) (s : BitSet) (name : String) (id : Nat) : BitSet :=
  (s.difference (definitionsOf all name)).insert id

/-- The gen/kill problem of reaching definitions. -/
def problem (all : List Definition) (blockCount : Nat) : GenKill :=
  let inBlock (b : BlockId) : List (Definition × Nat) :=
    all.zipIdx.filter fun ((location, _), _) ↦ location.block == b
  let blank : BitSet := .empty all.length
  { gen := (List.range blockCount).map fun b ↦
      (inBlock b).foldl (fun s ((_, name), id) ↦ define all s name id) blank
    kill := (List.range blockCount).map fun b ↦
      (inBlock b).foldl (fun s ((_, name), _) ↦ s.union (definitionsOf all name)) blank }

/-- The reads of an instruction, when the given definitions reach it. -/
def readsAt (all : List Definition) (reaching : BitSet) (location : Location) (i : Instruction) :
    List UseDef :=
  i.uses.map fun (name, role) ↦
    let here := (numbered all name).filter fun (_, id) ↦ reaching.contains id
    { location, variableName := name, role
      definitions := .ofList (here.map fun ((place, _), _) ↦ place) }

/-- The definitions that reach the point after an instruction. -/
def after (all : List Definition) (reaching : BitSet) (location : Location) (i : Instruction) :
    BitSet :=
  match i.defined? with
  | none => reaching
  | some name =>
    match all.findIdx? (·.1 == location) with
    | some id => define all reaching name id
    | none => reaching.difference (definitionsOf all name)

/-- The reads of a run of instructions, from the definitions that reach its start. -/
def replay (all : List Definition) : BitSet → List (Location × Instruction) → List UseDef
  | _, [] => []
  | reaching, (location, i) :: rest =>
    readsAt all reaching location i ++ replay all (after all reaching location i) rest

/-- All reads in the listed blocks with the definitions that reach them. -/
def useDefs (g : FlowGraph) (blocks : List BlockId) : List UseDef :=
  let all := definitions g blocks
  let solution := (problem all g.size).solve g .forward all.length
  blocks.flatMap fun b ↦
    replay all (solution.incoming[b]?.getD (.empty all.length)) (g.located [b])

/-- All definitions in the listed blocks with the reads they reach. -/
def defUses (g : FlowGraph) (blocks : List BlockId) (reads : List UseDef) : List DefUse :=
  (definitions g blocks).map fun (location, name) ↦
    { definition := location
      variableName := name
      uses := .ofList ((reads.filter fun u ↦
        u.variableName == name && u.definitions.contains location).map UseDef.location) }

/-- The places where the variables of the listed blocks are written and read. -/
def sites (g : FlowGraph) (blocks : List BlockId) : Std.ExtTreeMap String Sites :=
  let code := g.located blocks
  let written := code.filterMap fun (location, i) ↦ i.defined?.map fun name ↦ (name, location)
  let read := code.flatMap fun (location, i) ↦ i.uses.map fun (name, _) ↦ (name, location)
  tabulate ((written ++ read).map Prod.fst) fun name ↦
    { definitions := .ofList ((written.filter (·.1 == name)).map Prod.snd)
      uses := .ofList ((read.filter (·.1 == name)).map Prod.snd) }

end Reaching

instance : JsonForm UseDef where
  encode u := .obj [("location", JsonForm.encode u.location),
    ("variable", JsonForm.encode u.variableName), ("role", JsonForm.encode u.role),
    ("definitions", JsonForm.encode u.definitions)]
  decode? j := do
    let [location, name, role, definitions] ←
      j.record? ["location", "variable", "role", "definitions"] | none
    return ⟨← JsonForm.required location, ← JsonForm.required name, ← JsonForm.required role,
      ← JsonForm.required definitions⟩

instance : JsonForm DefUse where
  encode d := .obj [("definition", JsonForm.encode d.definition),
    ("variable", JsonForm.encode d.variableName), ("uses", JsonForm.encode d.uses)]
  decode? j := do
    let [definition, name, uses] ← j.record? ["definition", "variable", "uses"] | none
    return ⟨← JsonForm.required definition, ← JsonForm.required name, ← JsonForm.required uses⟩

instance : JsonForm Sites where
  encode s := .obj [("definitions", JsonForm.encode s.definitions),
    ("uses", JsonForm.encode s.uses)]
  decode? j := do
    let [definitions, uses] ← j.record? ["definitions", "uses"] | none
    return ⟨← JsonForm.required definitions, ← JsonForm.required uses⟩

end FlowGauge
