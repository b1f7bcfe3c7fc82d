import FlowGauge.Preset
import FlowGauge.Quality.Gate
import FlowGauge.Refusal

/-!
# Quality options

Which sections of a report are computed, the values at which a complexity component counts as full,
the weights of the complexity scores, and the gates. Options are consistent when the weights are
finite, not negative and not all zero, every limit is finite and positive, and every gate threshold
is finite. The faults are looked for in that order.
-/

namespace FlowGauge

/-- The values at which the components of complexity reach 100. -/
structure ComplexityLimits where
  instructions : Float := 200.0
  branchDensity : Float := 0.3
  callDensity : Float := 0.2
  memoryDensity : Float := 0.6
  blocks : Float := 50.0
  edges : Float := 80.0
  loopDepth : Float := 4.0
  cyclomatic : Float := 20.0
  variableCount : Float := 40.0
  chainLength : Float := 8.0
  liveVariables : Float := 8.0
  interferenceEdges : Float := 60.0

namespace ComplexityLimits

/-- The limits with their written names, in order. -/
def fields (l : ComplexityLimits) : List (String × Float) :=
  [("max_instructions", l.instructions), ("max_branch_density", l.branchDensity),
    ("max_call_density", l.callDensity), ("max_memory_density", l.memoryDensity),
    ("max_blocks", l.blocks), ("max_edges", l.edges), ("max_loop_depth", l.loopDepth),
    ("max_cyclomatic", l.cyclomatic), ("max_variables", l.variableCount),
    ("max_chain_length", l.chainLength), ("max_live_variables", l.liveVariables),
    ("max_interference_edges", l.interferenceEdges)]

/-- Replace every limit by what `f` makes of its written name and its value, in order. -/
def mapFields {m : Type → Type} [Monad m] (f : String → Float → m Float) (l : ComplexityLimits) :
    m ComplexityLimits := do
  return {
    instructions := ← f "max_instructions" l.instructions
    branchDensity := ← f "max_branch_density" l.branchDensity
    callDensity := ← f "max_call_density" l.callDensity
    memoryDensity := ← f "max_memory_density" l.memoryDensity
    blocks := ← f "max_blocks" l.blocks
    edges := ← f "max_edges" l.edges
    loopDepth := ← f "max_loop_depth" l.loopDepth
    cyclomatic := ← f "max_cyclomatic" l.cyclomatic
    variableCount := ← f "max_variables" l.variableCount
    chainLength := ← f "max_chain_length" l.chainLength
    liveVariables := ← f "max_live_variables" l.liveVariables
    interferenceEdges := ← f "max_interference_edges" l.interferenceEdges }

/-- Whether every limit is finite and positive. -/
def isPositive (l : ComplexityLimits) : Bool :=
  l.fields.all fun (_, limit) ↦ limit.isFinite && !decide (limit ≤ 0.0)

end ComplexityLimits

/-- The weights of the three complexity scores. -/
structure ComplexityWeights where
  instruction : Float := 0.3
  controlFlow : Float := 0.4
  dataFlow : Float := 0.3

namespace ComplexityWeights

/-- The weights with their written names, in order. -/
def fields (w : ComplexityWeights) : List (String × Float) :=
  [("instruction", w.instruction), ("control_flow", w.controlFlow), ("data_flow", w.dataFlow)]

/-- Replace every weight by what `f` makes of its written name and its value, in order. -/
def mapFields {m : Type → Type} [Monad m] (f : String → Float → m Float) (w : ComplexityWeights) :
    m ComplexityWeights := do
  return {
    instruction := ← f "instruction" w.instruction
    controlFlow := ← f "control_flow" w.controlFlow
    dataFlow := ← f "data_flow" w.dataFlow }

/-- The sum of the weights. -/
def total (w : ComplexityWeights) : Float :=
  w.instruction + w.controlFlow + w.dataFlow

/-- Whether the weights are finite and not negative, with a sum that is not zero. -/
def isUsable (w : ComplexityWeights) : Bool :=
  w.fields.all (fun (_, weight) ↦ weight.isFinite && !decide (weight < 0.0)) &&
    !decide (w.total ≤ 0.0)

end ComplexityWeights

/-- The thresholds of the standard gates. -/
structure GateThresholds where
  complexity : Float := 70.0
  performance : Float := 50.0
  memoryUsage : Float := 90.0
  safety : Float := 60.0
  readiness : Float := 20.0

namespace GateThresholds

/-- The standard gates, in order. -/
def rules (t : GateThresholds) : List GateRule :=
  [⟨"max_complexity", .overallComplexity, .atMost, t.complexity, .mandatory⟩,
    ⟨"min_performance_score", .performanceScore, .atLeast, t.performance, .important⟩,
    ⟨"max_memory_usage", .memoryUsage, .atMost, t.memoryUsage, .mandatory⟩,
    ⟨"min_safety_score", .safetyScore, .atLeast, t.safety, .mandatory⟩,
    ⟨"min_optimization_readiness", .optimizationReadiness, .atLeast, t.readiness, .optional⟩]

/-- The thresholds with their written names, in order. -/
def fields (t : GateThresholds) : List (String × Float) :=
  t.rules.map fun rule ↦ (rule.name, rule.threshold)

/-- Replace every threshold by what `f` makes of its written name and its value, in order. -/
def mapFields {m : Type → Type} [Monad m] (f : String → Float → m Float) (t : GateThresholds) :
    m GateThresholds := do
  return {
    complexity := ← f "max_complexity" t.complexity
    performance := ← f "min_performance_score" t.performance
    memoryUsage := ← f "max_memory_usage" t.memoryUsage
    safety := ← f "min_safety_score" t.safety
    readiness := ← f "min_optimization_readiness" t.readiness }

end GateThresholds

/-- What a report holds, and how it is scored. -/
structure QualityOptions where
  complexity : Bool := true
  performance : Bool := true
  readiness : Bool := true
  gates : Bool := true
  limits : ComplexityLimits := {}
  weights : ComplexityWeights := {}
  thresholds : GateThresholds := {}
  customGates : List GateRule := []

namespace QualityOptions

/-- Complexity only. -/
def minimal : QualityOptions where
  performance := false
  readiness := false
  gates := false

/-- Every section, with one more gate on the cyclomatic number. -/
def comprehensive : QualityOptions where
  customGates := [⟨"cyclomatic_complexity", .cyclomaticComplexity, .atMost, 15.0, .important⟩]

/-- The options of a preset. -/
def ofPreset : Preset → QualityOptions
  | .standard => {}
  | .minimal => minimal
  | .comprehensive => comprehensive

/-- The standard gates followed by the custom gates. -/
def rules (o : QualityOptions) : List GateRule :=
  o.thresholds.rules ++ o.customGates

/-- Refuses unusable weights, limits or gate thresholds. -/
def validate (o : QualityOptions) : Except Refusal Unit :=
  if !o.weights.isUsable then .error (.invalidConfiguration .complexityWeights)
  else if !o.limits.isPositive then .error (.invalidConfiguration .complexityThresholds)
  else if !o.rules.all (·.threshold.isFinite) then .error (.invalidConfiguration .gateThresholds)
  else .ok ()

end QualityOptions

end FlowGauge
