import FlowGauge.Flow.Dominance

/-!
# Natural loops

A back edge leads to a block that is still open in the depth-first search from the entry. It makes a
loop when its target, the header, dominates its source, the latch; otherwise control flow is
irreducible there. All back edges into one header make one loop. Its body holds the header and every
block from which a latch is reached backwards without passing the header, through blocks that the
header dominates.

Nesting is computed from the largest loop to the smallest: the depth of a loop is one more than the
greatest depth of the loops that contain its header, and its parent is the smallest of them.
-/

namespace FlowGauge

/-- The shape of a loop. -/
inductive LoopKind where
  /-- Left at the header only. -/
  | preTested
  /-- Left at its single latch only. -/
  | postTested
  /-- Never left. -/
  | infinite
  /-- Several latches or irregular exits. -/
  | complex
deriving DecidableEq, Repr

instance : Vocabulary LoopKind where
  all := [.preTested, .postTested, .infinite, .complex]
  word
    | .preTested => "pre_tested"
    | .postTested => "post_tested"
    | .infinite => "infinite"
    | .complex => "complex"

/-- Properties of the instructions of a loop. -/
structure LoopTraits where
  /-- More than one exit block. -/
  multipleExits : Bool := false
  /-- Some instruction is a call. -/
  hasCalls : Bool := false
  /-- Some instruction accesses an array. -/
  hasArrayAccesses : Bool := false
  /-- Some instruction writes a global variable. -/
  writesGlobals : Bool := false
deriving DecidableEq, Repr

/-- A natural loop. -/
structure Loop where
  /-- The number of the loop; loops are numbered by ascending header. -/
  id : Nat
  /-- The single entry block of the loop. -/
  header : BlockId
  /-- The back edges, by ascending latch. -/
  backEdges : List (BlockId × BlockId)
  /-- The sources of the back edges. -/
  latches : BlockSet
  /-- All blocks of the loop. -/
  body : BlockSet
  /-- The successors of the body outside it. -/
  exits : BlockSet
  /-- The only predecessor of the header outside the body. -/
  preheader : Option BlockId
  /-- The number of the smallest loop around this one. -/
  parent : Option Nat := none
  /-- The nesting depth; outermost loops have depth one. -/
  depth : Nat := 1
  /-- Whether no other header lies in the body. -/
  isInnermost : Bool := true
  kind : LoopKind
  traits : LoopTraits
deriving DecidableEq

namespace Loop

/-! ### Back edges -/

/-- The edges that close a cycle in the depth-first search from the entry. -/
def backEdgesOf (g : FlowGraph) : List (BlockId × BlockId) :=
  g.entry.elim [] fun entry ↦ (g.toGraph.trail entry).backEdges

/-- The back edges whose target does not dominate their source. -/
def irreducibleEdges (g : FlowGraph) (d : Dominance) : List (BlockId × BlockId) :=
  (backEdgesOf g).filter fun (latch, header) ↦ !d.dominates header latch

/-! ### One loop -/

/-- The blocks of the loop with the given header and latches: the header, and what is swept
backwards from the latches through blocks that the header dominates, stopping at the header. -/
def bodyOf (g : FlowGraph) (d : Dominance) (header : BlockId) (latches : BlockSet) : BlockSet :=
  let back (b : BlockId) : List BlockId := (g.predecessors b).filter (d.dominates header)
  let sources := latches.toList.filter (· ≠ header)
  .ofList (header :: g.toGraph.sweep back (· ++ ·) g.size sources (header :: sources))

/-- The shape of a loop, from its exits and the blocks that leave it. -/
def kindOf (header : BlockId) (latches exits exiting : BlockSet) : LoopKind :=
  if exits.isEmpty then .infinite
  else if 1 < latches.size then .complex
  else if exiting.size = 1 then
    if latches.toList.all exiting.contains then .postTested
    else if exiting.contains header then .preTested
    else .complex
  else .complex

/-- Whether an instruction writes a global variable. Storing into an array writes the array. -/
def writesGlobal (i : Instruction) : Bool :=
  let target := if i.opcode = .storeArray then i.operands.head? else i.definition?
  target.any Operand.isGlobal

/-- The properties of the instructions of a body. -/
def traitsOf (g : FlowGraph) (body exits : BlockSet) : LoopTraits :=
  let code := (body.toList.filterMap g.block?).flatMap Block.code
  { multipleExits := 1 < exits.size
    hasCalls := code.any (·.opcode == .call)
    hasArrayAccesses := code.any (·.opcode.isArrayAccess)
    writesGlobals := code.any writesGlobal }

/-- The loop with the given number, header and latches, not yet nested. -/
def ofLatches (g : FlowGraph) (d : Dominance) (id : Nat) (header : BlockId) (latches : BlockSet) :
    Loop :=
  let body := bodyOf g d header latches
  let leaving := body.toList.flatMap fun b ↦
    ((g.successors b).filter (!body.contains ·)).map fun s ↦ (b, s)
  let exits : BlockSet := .ofList (leaving.map Prod.snd)
  { id
    header
    backEdges := latches.toList.map fun latch ↦ (latch, header)
    latches
    body
    exits
    preheader := match (g.predecessors header).filter (!body.contains ·) with
      | [single] => some single
      | _ => none
    kind := kindOf header latches exits (.ofList (leaving.map Prod.fst))
    traits := traitsOf g body exits }

/-! ### Nesting -/

/-- The positions of the other loops that contain the header of the loop at a position. -/
def around (loops : List Loop) (position : Nat) : List Nat :=
  match loops[position]? with
  | none => []
  | some inner => (List.range loops.length).filter fun other ↦
      other ≠ position && (loops[other]?.any (·.body.contains inner.header))

/-- The smaller of two positions by the size of the loops there, and then by position. -/
def smaller (loops : List Loop) (a b : Nat) : Nat :=
  let size (i : Nat) : Nat := (loops[i]?.map (·.body.size)).getD 0
  if size b < size a ∨ (size b = size a ∧ b < a) then b else a

/-- Set depth and parent of the loop at a position from the loops around it. -/
def nestOne (loops : List Loop) (position : Nat) : List Loop :=
  let outer := around loops position
  let depth := 1 + (outer.filterMap fun o ↦ loops[o]?.map Loop.depth).foldl max 0
  let parent := match outer with
    | [] => none
    | first :: rest => some (rest.foldl (smaller loops) first)
  loops.modify position ({ · with depth, parent })

/-- Set depths, parents and innermost marks of all loops. -/
def nest (loops : List Loop) : List Loop :=
  let size (i : Nat) : Nat := (loops[i]?.map (·.body.size)).getD 0
  let order := (List.range loops.length).mergeSort fun a b ↦
    size b < size a || (size a == size b && a ≤ b)
  let nested := order.foldl nestOne loops
  nested.zipIdx.map fun (l, position) ↦
    { l with isInnermost := !nested.zipIdx.any fun (other, k) ↦
        k ≠ position && l.body.contains other.header }

/-- The natural loops of a graph, by ascending header. -/
def find (g : FlowGraph) (d : Dominance) : List Loop :=
  let closing := (backEdgesOf g).filter fun (latch, header) ↦ d.dominates header latch
  let headers : BlockSet := .ofList (closing.map Prod.snd)
  nest (headers.toList.zipIdx.map fun (header, id) ↦
    ofLatches g d id header (.ofList ((closing.filter (·.2 == header)).map Prod.fst)))

/-- The greatest depth of the loops that contain a block, zero outside of loops. -/
def depthAt (loops : List Loop) (b : BlockId) : Nat :=
  ((loops.filter (·.body.contains b)).map Loop.depth).foldl max 0

instance : JsonForm LoopTraits where
  encode t := .obj [("multiple_exits", JsonForm.encode t.multipleExits),
    ("has_calls", JsonForm.encode t.hasCalls),
    ("has_array_accesses", JsonForm.encode t.hasArrayAccesses),
    ("writes_globals", JsonForm.encode t.writesGlobals)]
  decode? j := do
    let [exits, calls, arrays, globals] ←
      j.record? ["multiple_exits", "has_calls", "has_array_accesses", "writes_globals"] | none
    return ⟨← JsonForm.required exits, ← JsonForm.required calls, ← JsonForm.required arrays,
      ← JsonForm.required globals⟩

instance : JsonForm Loop where
  encode l := .obj [("id", JsonForm.encode l.id), ("header", JsonForm.encode l.header),
    ("back_edges", JsonForm.encode l.backEdges), ("latches", JsonForm.encode l.latches),
    ("body", JsonForm.encode l.body), ("exits", JsonForm.encode l.exits),
    ("preheader", JsonForm.encode l.preheader), ("parent", JsonForm.encode l.parent),
    ("depth", JsonForm.encode l.depth), ("is_innermost", JsonForm.encode l.isInnermost),
    ("kind", JsonForm.encode l.kind), ("characteristics", JsonForm.encode l.traits)]
  decode? j := do
    let [id, header, backEdges, latches, body, exits, preheader, parent, depth, innermost, kind,
        traits] ←
      j.record? ["id", "header", "back_edges", "latches", "body", "exits", "preheader", "parent",
        "depth", "is_innermost", "kind", "characteristics"] | none
    return ⟨← JsonForm.required id, ← JsonForm.required header, ← JsonForm.required backEdges,
      ← JsonForm.required latches, ← JsonForm.required body, ← JsonForm.required exits,
      ← JsonForm.optional preheader, ← JsonForm.optional parent, ← JsonForm.required depth,
      ← JsonForm.required innermost, ← JsonForm.required kind, ← JsonForm.required traits⟩

end Loop

end FlowGauge
