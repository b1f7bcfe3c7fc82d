import FlowGauge.Timing.Context

/-!
# Recommendations

Each recommendation names a transformation that would save cycles or bytes. They are collected per
instruction, per variable used in loops, and per small inner loop, and listed by descending
priority, then by instruction, kind and variable.
-/

namespace FlowGauge

/-- What a recommendation suggests. -/
inductive RecommendationKind where
  /-- Multiply, divide or take the remainder by a power of two with shifts or a mask. -/
  | strengthReduction
  /-- Add or subtract one with a single instruction. -/
  | incrementDecrement
  /-- Move a variable that is used in loops into page zero. -/
  | zeroPagePromotion
  /-- Store zero with a single instruction. -/
  | storeZero
  /-- Jump with a relative instruction. -/
  | branchAlways
  /-- Unroll a small inner loop. -/
  | loopUnrolling
deriving DecidableEq, Repr

instance : Vocabulary RecommendationKind where
  all := [.strengthReduction, .incrementDecrement, .zeroPagePromotion, .storeZero, .branchAlways,
    .loopUnrolling]
  word
    | .strengthReduction => "strength_reduction"
    | .incrementDecrement => "increment_decrement"
    | .zeroPagePromotion => "zero_page_promotion"
    | .storeZero => "store_zero"
    | .branchAlways => "branch_always"
    | .loopUnrolling => "loop_unrolling"

/-- How hard a recommendation is to follow. -/
inductive Difficulty where
  | trivial
  | easy
  | moderate
  | hard
deriving DecidableEq, Repr

instance : Vocabulary Difficulty where
  all := [.trivial, .easy, .moderate, .hard]
  word
    | .trivial => "trivial"
    | .easy => "easy"
    | .moderate => "moderate"
    | .hard => "hard"

/-- A suggested transformation. -/
structure Recommendation where
  kind : RecommendationKind
  /-- The first instruction concerned. -/
  instruction : Option Nat
  /-- The variable concerned. -/
  variableName : Option String := none
  /-- From 0 to 100. -/
  priority : Nat
  difficulty : Difficulty
  cycleBenefit : Nat
  byteBenefit : Nat
  description : String
deriving DecidableEq, Repr

/-- The recommendations for a routine. -/
structure Recommendations where
  enabled : Bool := false
  recommendations : List Recommendation := []
  totalCycleBenefit : Nat := 0
  totalByteBenefit : Nat := 0
deriving DecidableEq, Repr

namespace Recommendations

/-- A priority grows by ten with every loop around, up to 100. -/
def priorityAt (base depth : Nat) : Nat :=
  min (base + depth * 10) 100

/-- The value of a literal operand. -/
def literal? (i : Instruction) (position : Nat) : Option Int :=
  ((i.operands[position]?).bind Operand.constant?).map (·.value.toInt)

/-- The tracked variable of an operand. -/
def key? (i : Instruction) (position : Nat) : Option String :=
  (i.operands[position]?).bind Operand.key?

/-! ### One instruction -/

/-- Multiplication, division or remainder by a power of two of at least two. -/
def strengthReduction? (v : Variant) (index depth : Nat) (i : Instruction) :
    Option Recommendation := do
  let divisor ← (i.operands[2]?).bind Operand.constant?
  let value := divisor.value.toInt
  if !divisor.isPowerOfTwo || value < 2 then none
  else
    let shift := value.toNat.log2
    let (cost, way) ← match i.opcode with
      | .mul => some (shift * 5, "shift left by " ++ toString shift)
      | .div => some (shift * 5, "shift right by " ++ toString shift)
      | .mod => some (9, "mask with " ++ toString (value - 1))
      | _ => none
    return {
      kind := .strengthReduction
      instruction := some index
      priority := priorityAt 60 depth
      difficulty := .easy
      cycleBenefit := i.opcode.baseCycles v - cost
      byteBenefit := 3
      description := Vocabulary.word i.opcode ++ " by " ++ toString value ++ " can be a " ++ way }

/-- Addition or subtraction of one. -/
def increment? (index depth : Nat) (i : Instruction) : Option Recommendation :=
  if (i.opcode = .add || i.opcode = .sub) && literal? i 2 == some 1 then
    let dest := key? i 0
    let inPlace := dest.isSome && dest == key? i 1
    some {
      kind := .incrementDecrement
      instruction := some index
      variableName := dest
      priority := priorityAt 40 depth
      difficulty := .trivial
      cycleBenefit := if inPlace then 6 else 2
      byteBenefit := if inPlace then 4 else 1
      description := Vocabulary.word i.opcode ++ " by one can use " ++
        (if i.opcode = .add then "INC" else "DEC") }
  else none

/-- Storing zero, on a variant that has an instruction for it. -/
def storeZero? (v : Variant) (index depth : Nat) (i : Instruction) : Option Recommendation :=
  if v.features.contains .storeZero && i.opcode = .storeVariable && literal? i 1 == some 0 then
    some {
      kind := .storeZero
      instruction := some index
      variableName := key? i 0
      priority := priorityAt 35 depth
      difficulty := .trivial
      cycleBenefit := 2
      byteBenefit := 2
      description := "storing zero can use STZ" }
  else none

/-- An unconditional jump, on a variant that has a relative instruction for it. -/
def branchAlways? (v : Variant) (index depth : Nat) (i : Instruction) : Option Recommendation :=
  if v.features.contains .branchAlways && i.opcode = .branch then
    some {
      kind := .branchAlways
      instruction := some index
      priority := priorityAt 20 depth
      difficulty := .trivial
      cycleBenefit := 0
      byteBenefit := 1
      description := "unconditional branch can use BRA" }
  else none

/-- The recommendations for one instruction. -/
def forInstruction (v : Variant) (index depth : Nat) (i : Instruction) : List Recommendation :=
  (strengthReduction? v index depth i).toList ++ (increment? index depth i).toList ++
    (storeZero? v index depth i).toList ++ (branchAlways? v index depth i).toList

/-! ### Variables used in loops -/

/-- An occurrence of a variable inside a loop. -/
structure LoopAccess where
  name : String
  depth : Nat
  index : Nat
deriving DecidableEq, Repr

/-- Whether a variable could be moved into page zero and is not there yet. -/
def isPromotable (r : Routine) (v : Variable) : Bool :=
  v.scope != .temporary && v.storage != .zeroPage &&
    !r.locals.any fun l ↦ l.allocation == .zeroPage && l.name == v.name

/-- The occurrences inside loops of variables that could be moved into page zero, in order. -/
def loopAccesses (c : TimingContext) : List LoopAccess :=
  c.rows.flatMap fun (index, i, depth, _) ↦
    if depth = 0 then []
    else i.mentions.filterMap fun
      | .var v => if isPromotable c.routine v then some ⟨v.name, depth, index⟩ else none
      | _ => none

/-- The recommendation for the variable of some occurrences; the first comes first. Both benefits
are their number, which `run` counts in a word and is stopped when it does not fit. -/
def promotion (first : LoopAccess) (all : List LoopAccess) : Recommendation :=
  let count := all.length
  { kind := .zeroPagePromotion
    instruction := some first.index
    variableName := some first.name
    priority := priorityAt (30 + min count 20) ((all.map LoopAccess.depth).foldl max 0)
    difficulty := .moderate
    cycleBenefit := count
    byteBenefit := count
    description := first.name ++ " is accessed " ++ toString count ++ " times inside loops" }

/-- The variables used in loops that could be moved into page zero. -/
def loopVariables (c : TimingContext) : NameSet :=
  .ofList ((loopAccesses c).map LoopAccess.name)

/-- One recommendation for every variable used in loops that could be moved into page zero. -/
def promotions (c : TimingContext) : List Recommendation :=
  (loopVariables c).toList.filterMap fun name ↦
    match (loopAccesses c).filter (·.name == name) with
    | [] => none
    | first :: rest => some (promotion first (first :: rest))

/-! ### Inner loops -/

/-- The most instructions of a loop that is still worth unrolling. -/
def unrollLimit : Nat :=
  16

/-- The recommendation to unroll a loop, if it is an inner loop at depth two or more and small. It
saves the cycles at the latches three times, at most what a 32-bit word holds. -/
def unrolling? (c : TimingContext) (l : Loop) : Option Recommendation :=
  let g := c.analysis.graph
  let size := total ((l.body.toList.filterMap g.block?).map (·.code.length))
  if l.isInnermost && 2 ≤ l.depth && size ≤ unrollLimit then do
    let header ← g.block? l.header
    let branchCycles := total ((c.latchCycles? l).getD [])
    return {
      kind := .loopUnrolling
      instruction := some header.start
      priority := priorityAt 50 l.depth
      difficulty := .hard
      cycleBenefit := min (branchCycles * 3) (Word.bound 32 - 1)
      byteBenefit := 0
      description := "loop at " ++ l.header.text ++ " has " ++ toString size ++
        " instructions at depth " ++ toString l.depth }
  else none

/-! ### All of them -/

/-- Whether an optional name comes before another; no name comes first. -/
def nameOrder : Option String → Option String → Ordering
  | none, none => .eq
  | none, some _ => .lt
  | some _, none => .gt
  | some a, some b => compare a b

/-- The order of the list: descending priority, instruction, kind, variable. -/
def order (a b : Recommendation) : Ordering :=
  (compare b.priority a.priority)
    |>.then (compare (a.instruction.getD (Word.bound 64)) (b.instruction.getD (Word.bound 64)))
    |>.then (compare (Vocabulary.position a.kind) (Vocabulary.position b.kind))
    |>.then (nameOrder a.variableName b.variableName)

/-- The recommendations for a routine. -/
def analyze (c : TimingContext) : Recommendations :=
  let perInstruction := c.rows.flatMap fun (index, i, depth, _) ↦
    forInstruction c.variant index depth i
  let found := perInstruction ++ promotions c ++ c.analysis.loops.filterMap (unrolling? c)
  { enabled := true
    recommendations := found.mergeSort fun a b ↦ (order a b).isLE
    totalCycleBenefit := total (found.map Recommendation.cycleBenefit)
    totalByteBenefit := total (found.map Recommendation.byteBenefit) }

/-- How often a variable is used in loops, counted in a 32-bit word. -/
def countAccesses (c : TimingContext) (name : String) : Checked Nat :=
  Checked.sum32 (((loopAccesses c).filter (·.name == name)).map fun _ ↦ .ok 1)

/-- The cycles at the latches of a loop, looked up and summed up in a 32-bit word. -/
def sumLatches (c : TimingContext) (l : Loop) : Checked Nat := do
  Checked.sum32 ((← Checked.inside (c.latchCycles? l)).map .ok)

/-- The recommendations for a routine. The run is stopped by a look-up outside of a list, by a
variable or a loop that is recommended for something and whose count or sum does not fit its word,
and by a total that does not fit a 64-bit word. -/
def run (c : TimingContext) : Checked Recommendations := do
  let _ ← Checked.inside c.rows?
  let _ ← (loopVariables c).toList.mapM (countAccesses c)
  let _ ← (c.analysis.loops.filter fun l ↦ (unrolling? c l).isSome).mapM (sumLatches c)
  let _ ← Checked.fit64 (analyze c).totalCycleBenefit
  let _ ← Checked.fit64 (analyze c).totalByteBenefit
  return analyze c

/-- The number of recommendations of a kind. -/
def countOf (r : Recommendations) (kind : RecommendationKind) : Nat :=
  r.recommendations.countP (·.kind == kind)

end Recommendations

end FlowGauge
