import FlowGauge.Quality.Performance

/-!
# Optimisation readiness

How ready a routine is for each category of transformations, how safely it can be transformed, and
what the timing recommendations promise. Places where a transformation applies are counted in the
code, so the counts do not depend on which timing sections were computed. Benefits come from the
recommendations when they cover the category, and from a fixed estimate per place otherwise.
-/

namespace FlowGauge

/-- A category of transformations. -/
inductive OptimizationCategory where
  /-- Cheaper arithmetic. -/
  | arithmetic
  /-- Branches and loops. -/
  | controlFlow
  /-- Loads, stores and the placement of variables. -/
  | memory
  /-- Registers and copies. -/
  | register
  /-- Instructions of the variant and access to the hardware. -/
  | hardwareSpecific
  /-- Computation on constants. -/
  | constant
deriving DecidableEq, Repr

namespace OptimizationCategory

instance : Vocabulary OptimizationCategory where
  all := [.arithmetic, .controlFlow, .memory, .register, .hardwareSpecific, .constant]
  word
    | .arithmetic => "arithmetic"
    | .controlFlow => "control_flow"
    | .memory => "memory"
    | .register => "register"
    | .hardwareSpecific => "hardware_specific"
    | .constant => "constant"

/-- The confidence in a category when there is a timing, from 0 to 1. -/
def baseConfidence : OptimizationCategory → Float
  | .constant => 0.95
  | .arithmetic => 0.9
  | .hardwareSpecific => 0.85
  | .memory => 0.8
  | .controlFlow => 0.7
  | .register => 0.6

/-- The benefit in percent taken for one place when no recommendation covers the category. -/
def benefitPerPlace : OptimizationCategory → Float
  | .arithmetic | .constant => 3.0
  | .controlFlow => 4.0
  | .memory | .hardwareSpecific => 2.0
  | .register => 1.5

/-- Whether recommendations of a kind belong to a category. -/
def covers : OptimizationCategory → RecommendationKind → Bool
  | .arithmetic, .strengthReduction | .arithmetic, .incrementDecrement
  | .memory, .zeroPagePromotion
  | .hardwareSpecific, .storeZero | .hardwareSpecific, .branchAlways
  | .controlFlow, .loopUnrolling => true
  | _, _ => false

/-! ### Places where a transformation applies -/

/-- Whether an instruction multiplies, divides or takes the remainder by a power of two, or adds or
subtracts one. -/
def isCheapArithmetic (i : Instruction) : Bool :=
  match i.opcode with
  | .mul | .div | .mod => ((i.reads[1]?).bind Operand.constant?).any Constant.isPowerOfTwo
  | .add | .sub => (i.reads.filterMap Operand.constant?).any fun c ↦ c.value == 1 || c.value == -1
  | _ => false

/-- Whether an instruction computes on constants only. -/
def isFoldable (i : Instruction) : Bool :=
  let computes := match i.opcode.category with
    | .arithmetic | .logical | .bitwise | .shift | .comparison => true
    | _ => false
  computes && !i.reads.isEmpty && i.reads.all (·.constant?.isSome)

/-- Whether an instruction moves a variable or an array element. -/
def movesData (i : Instruction) : Bool :=
  match i.opcode with
  | .loadVariable | .storeVariable | .loadArray | .storeArray => true
  | _ => false

/-- Whether an instruction stores zero. -/
def storesZero (i : Instruction) : Bool :=
  (i.opcode == .storeVariable || i.opcode == .poke) &&
    ((i.operands[1]?).bind Operand.constant?).any (·.value == 0)

/-- Whether an instruction sets or clears a flag. -/
def changesFlag (i : Instruction) : Bool :=
  i.opcode == .setFlag || i.opcode == .clearFlag

/-- The number of places where a transformation of the category applies. -/
def places (r : Routine) (a : Analysis) : OptimizationCategory → Nat
  | .arithmetic => r.instructions.countP isCheapArithmetic
  | .controlFlow => r.instructions.countP (·.opcode.isBranch) + a.loops.length
  | .memory => r.instructions.countP movesData
  | .register => r.instructions.countP (·.opcode == .copy) + (a.dataFlow.maxLive - 3)
  | .hardwareSpecific =>
    r.instructions.countP storesZero + r.instructions.countP changesFlag
  | .constant => r.instructions.countP isFoldable

/-- The number of places, counted in a 64-bit word. It may not fit: how many variables are live at
once is a mere number in an analysis that comes from elsewhere. -/
def opportunities (r : Routine) (a : Analysis) (c : OptimizationCategory) : Checked Nat :=
  Checked.fit64 (c.places r a)

/-- The benefit in percent that the recommendations of a timing promise, if they promise any. What
they save is a sum of 32-bit words, and no list of recommendations is so long that it leaves a word
of 64 bits. -/
def promisedBenefit? (t : Option Timing) (c : OptimizationCategory) : Option Float := do
  let t ← t
  if !t.recommendations.enabled || t.totalCycles = 0 then none
  else
    let covered := t.recommendations.recommendations.filter fun r ↦ c.covers r.kind
    let saved := total (covered.map Recommendation.cycleBenefit)
    if saved = 0 then none else some (Score.clamp (Score.percent saved t.totalCycles))

end OptimizationCategory

/-- The readiness of a routine for one category. -/
structure CategoryReadiness where
  category : OptimizationCategory
  /-- From 0 to 100; 0 when there is nothing to do. -/
  score : Float
  /-- From 0 to 1. -/
  confidence : Float
  /-- The estimated saving of cycles in percent. -/
  benefit : Float
  opportunities : Nat

/-- How safely a routine can be transformed, from 0 to 100. -/
structure Safety where
  /-- That the behaviour is kept. -/
  semantic : Float := 0.0
  /-- That the timing does not get worse. -/
  performance : Float := 0.0
  /-- That the result fits the hardware. -/
  platform : Float := 0.0
  /-- The mean of the three. -/
  overall : Float := 0.0

/-- What the timing recommendations promise. -/
structure Impact where
  cycleSavings : Nat := 0
  byteSavings : Nat := 0
  speedupPercent : Float := 0.0

/-- The readiness of a routine for transformations. -/
structure Readiness where
  enabled : Bool := false
  /-- One entry per category. -/
  categories : List CategoryReadiness := []
  /-- The mean over the categories. -/
  overall : Float := 0.0
  safety : Safety := {}
  impact : Impact := {}

/-! ### Safety -/

namespace Safety

/-- The number of issues of a severity. -/
def countOf (severity : Severity) (issues : List Issue) : Float :=
  Score.ofCount (issues.countP (·.severity == severity))

/-- That the behaviour is kept: issues, access to the hardware and interrupts lower it. -/
def ofBehaviour (r : Routine) (issues : List Issue) : Float :=
  let accesses := r.instructions.countP fun i ↦ i.opcode == .peek || i.opcode == .poke
  let s := 100.0 - 20.0 * countOf .error issues - 5.0 * countOf .warning issues
  let s := s - Score.lesser (5.0 * Score.ofCount accesses) 30.0
  if r.isInterruptHandler then s - 10.0 else s

/-- That the timing does not get worse: headroom and spilled registers lower it. -/
def ofTiming (t : Timing) : Float :=
  let s := 100.0 - t.headroom * 0.3
  if t.registers.spillRisk then s - 20.0 else s

/-- That the result fits the hardware: issues of the timing lower it. -/
def ofIssues (issues : List Issue) : Float :=
  100.0 - 25.0 * countOf .error issues - 10.0 * countOf .warning issues

/-- How safely a routine can be transformed. Without a timing, the confidence of the prediction and
an even chance stand in for the two scores that need one. -/
def assess (r : Routine) (a : Analysis) (confidence : Float) (t : Option Timing) : Safety :=
  let semantic := Score.clamp (ofBehaviour r a.issues)
  let performance := Score.clamp (t.elim (100.0 * confidence) ofTiming)
  let platform := Score.clamp (t.elim 50.0 fun t ↦ ofIssues t.issues)
  { semantic, performance, platform, overall := (semantic + performance + platform) / 3.0 }

end Safety

/-- What the recommendations of a timing promise; nothing without such a section. -/
def Impact.assess (t : Option Timing) : Impact :=
  match t.filter (·.recommendations.enabled) with
  | none => {}
  | some t =>
    { cycleSavings := t.recommendations.totalCycleBenefit
      byteSavings := t.recommendations.totalByteBenefit
      speedupPercent :=
        if t.totalCycles = 0 then 0.0
        else Score.clamp (Score.percent t.recommendations.totalCycleBenefit t.totalCycles) }

/-! ### Readiness -/

namespace Readiness

/-- The score of a category from the complexity, the headroom and the number of places. -/
def scoreOf (complexity headroom : Float) (opportunities : Nat) : Float :=
  if opportunities = 0 then 0.0
  else Score.clamp (0.4 * (100.0 - complexity) + 0.3 * headroom +
    0.3 * Score.lesser (Score.ofCount opportunities * 20.0) 100.0)

/-- The benefit of a category in percent: what is promised, else an estimate. -/
def benefitOf (t : Option Timing) (c : OptimizationCategory) (opportunities : Nat) : Float :=
  if opportunities = 0 then 0.0
  else (c.promisedBenefit? t).getD
    (Score.lesser (Score.ofCount opportunities * c.benefitPerPlace) 50.0)

/-- The readiness for a category with some number of places. -/
def rate (complexity : Float) (t : Option Timing) (c : OptimizationCategory)
    (opportunities : Nat) : CategoryReadiness where
  category := c
  score := scoreOf complexity (t.elim 0.0 Timing.headroom) opportunities
  confidence := Score.between 0.0 1.0 (c.baseConfidence * (if t.isSome then 1.0 else 0.7))
  benefit := benefitOf t c opportunities
  opportunities

/-- The readiness of a routine for one category. -/
def assessCategory (r : Routine) (a : Analysis) (complexity : Float) (t : Option Timing)
    (c : OptimizationCategory) : Checked CategoryReadiness := do
  return rate complexity t c (← c.opportunities r a)

/-- The readiness of a routine for transformations. -/
def assess (r : Routine) (a : Analysis) (complexity confidence : Float) (t : Option Timing) :
    Checked Readiness := do
  let categories ← (Vocabulary.all : List OptimizationCategory).mapM
    (assessCategory r a complexity t)
  return {
    enabled := true
    categories
    overall := Score.clamp (Score.mean (categories.map CategoryReadiness.score))
    safety := Safety.assess r a confidence t
    impact := Impact.assess t }

/-- The readiness for a category, if it was computed. -/
def category? (r : Readiness) (c : OptimizationCategory) : Option CategoryReadiness :=
  r.categories.find? (·.category == c)

end Readiness

/-! ### JSON forms -/

/-- The JSON form of the readiness for one category. -/
def CategoryReadiness.json (c : CategoryReadiness) : Json :=
  .obj [("category", JsonForm.encode c.category), ("readiness_score", .float c.score),
    ("confidence", .float c.confidence), ("estimated_benefit_percent", .float c.benefit),
    ("opportunities", .nat c.opportunities)]

/-- The JSON form of the safety of transformations. -/
def Safety.json (s : Safety) : Json :=
  .obj [("semantic_safety", .float s.semantic), ("performance_safety", .float s.performance),
    ("platform_safety", .float s.platform), ("overall_safety", .float s.overall)]

/-- The JSON form of what the recommendations promise. -/
def Impact.json (i : Impact) : Json :=
  .obj [("estimated_cycle_savings", .nat i.cycleSavings),
    ("estimated_byte_savings", .nat i.byteSavings),
    ("estimated_speedup_percent", .float i.speedupPercent)]

/-- The JSON form of the readiness of a routine. -/
def Readiness.json (r : Readiness) : Json :=
  .obj [("enabled", .bool r.enabled),
    ("categories", .arr (r.categories.map CategoryReadiness.json)),
    ("overall_readiness", .float r.overall), ("safety", r.safety.json), ("impact", r.impact.json)]

end FlowGauge
