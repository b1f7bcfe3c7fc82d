import FlowGauge.Code.Record
import FlowGauge.Score

/-!
# Gates

A gate holds one measured value against a threshold. It passes when the threshold is kept, warns
when it is missed by at most a tenth of the threshold, and fails otherwise; without a measured value
it is not applicable. A set of gates fails when a mandatory gate fails, warns when an important gate
warns or fails, and passes otherwise. Optional gates never change that outcome.
-/

namespace FlowGauge

/-- How much a gate matters. -/
inductive Importance where
  | mandatory
  | important
  | optional
deriving DecidableEq, Repr

instance : Vocabulary Importance where
  all := [.mandatory, .important, .optional]
  word
    | .mandatory => "mandatory"
    | .important => "important"
    | .optional => "optional"

/-- What a gate measures. -/
inductive GateMetric where
  | overallComplexity
  | instructionComplexity
  | controlFlowComplexity
  | dataFlowComplexity
  | cyclomaticComplexity
  | performanceScore
  /-- The greatest use of a memory region in percent. -/
  | memoryUsage
  | safetyScore
  | optimizationReadiness
  | averageCycles
  /-- The confidence of the cycle prediction, from 0 to 1. -/
  | confidence
deriving DecidableEq, Repr

instance : Vocabulary GateMetric where
  all := [.overallComplexity, .instructionComplexity, .controlFlowComplexity, .dataFlowComplexity,
    .cyclomaticComplexity, .performanceScore, .memoryUsage, .safetyScore, .optimizationReadiness,
    .averageCycles, .confidence]
  word
    | .overallComplexity => "overall_complexity"
    | .instructionComplexity => "instruction_complexity"
    | .controlFlowComplexity => "control_flow_complexity"
    | .dataFlowComplexity => "data_flow_complexity"
    | .cyclomaticComplexity => "cyclomatic_complexity"
    | .performanceScore => "performance_score"
    | .memoryUsage => "memory_usage"
    | .safetyScore => "safety_score"
    | .optimizationReadiness => "optimization_readiness"
    | .averageCycles => "average_cycles"
    | .confidence => "confidence"

/-- On which side of the threshold a gate passes. -/
inductive Comparison where
  | atMost
  | atLeast
deriving DecidableEq, Repr

instance : Vocabulary Comparison where
  all := [.atMost, .atLeast]
  word
    | .atMost => "at_most"
    | .atLeast => "at_least"

/-- The outcome of a gate, or of a set of gates. -/
inductive GateStatus where
  | pass
  | warning
  | fail
  /-- There is no measured value. -/
  | notApplicable
deriving DecidableEq, Repr

instance : Vocabulary GateStatus where
  all := [.pass, .warning, .fail, .notApplicable]
  word
    | .pass => "pass"
    | .warning => "warning"
    | .fail => "fail"
    | .notApplicable => "not_applicable"

/-! ### One gate -/

/-- What a gate demands. -/
structure GateRule where
  name : String
  metric : GateMetric
  comparison : Comparison
  threshold : Float
  importance : Importance

/-- A gate with its measured value and its outcome. -/
structure Gate where
  rule : GateRule
  actual : Option Float
  status : GateStatus

namespace GateStatus

/-- The part of the threshold by which a miss is still a warning. -/
def warningMargin : Float :=
  0.1

/-- The outcome of a comparison with a threshold. -/
def of (comparison : Comparison) (threshold : Float) : (actual : Option Float) → GateStatus
  | none => .notApplicable
  | some actual =>
    let margin := threshold.abs * warningMargin
    match comparison with
    | .atMost =>
      if actual ≤ threshold then .pass
      else if actual ≤ threshold + margin then .warning
      else .fail
    | .atLeast =>
      if actual ≥ threshold then .pass
      else if actual ≥ threshold - margin then .warning
      else .fail

/-- The points of an outcome towards the score of a set of gates. -/
def points : GateStatus → Float
  | .pass => 1.0
  | .warning => 0.5
  | .fail | .notApplicable => 0.0

end GateStatus

/-- The gate of a rule for a measured value. -/
def GateRule.apply (rule : GateRule) (actual : Option Float) : Gate where
  rule
  actual
  status := .of rule.comparison rule.threshold actual

/-! ### Sets of gates -/

/-- The gates of a routine. -/
structure GateResults where
  enabled : Bool := false
  gates : List Gate := []
  status : GateStatus := .pass
  /-- The share of applicable gates passed, from 0 to 100; a warning counts half. -/
  score : Float := 100.0

namespace Gate

/-- Whether the gate is mandatory and fails. -/
def blocks (g : Gate) : Bool :=
  g.rule.importance == .mandatory && g.status == .fail

/-- Whether the gate is important and does not keep its threshold. -/
def cautions (g : Gate) : Bool :=
  g.rule.importance == .important && (g.status == .warning || g.status == .fail)

/-- The outcome of a set of gates. -/
def overall (gates : List Gate) : GateStatus :=
  if gates.any blocks then .fail
  else if gates.any cautions then .warning
  else .pass

/-- The score of a set of gates. -/
def score (gates : List Gate) : Float :=
  let applicable := gates.filter (·.status != .notApplicable)
  if applicable.isEmpty then 100.0
  else Score.sum (applicable.map (·.status.points)) * 100.0 / Score.ofCount applicable.length

end Gate

namespace GateResults

/-- The results of a set of gates. -/
def ofGates (gates : List Gate) : GateResults where
  enabled := true
  gates
  status := Gate.overall gates
  score := Gate.score gates

/-- The number of gates with an outcome. -/
def countOf (r : GateResults) (status : GateStatus) : Nat :=
  r.gates.countP (·.status == status)

theorem ofGates_status_eq_fail_iff {gates : List Gate} :
    (ofGates gates).status = .fail ↔ ∃ g ∈ gates, g.blocks := by
  rw [← List.any_eq_true]
  simp only [ofGates, Gate.overall]
  cases gates.any Gate.blocks <;> cases gates.any Gate.cautions <;> simp

end GateResults

/-! ### JSON forms -/

instance : JsonForm GateRule where
  encode r := .obj [("name", JsonForm.encode r.name), ("metric", JsonForm.encode r.metric),
    ("comparison", JsonForm.encode r.comparison), ("threshold", JsonForm.encode r.threshold),
    ("importance", JsonForm.encode r.importance)]
  decode? j := do
    let [name, metric, comparison, threshold, importance] ←
      j.record? ["name", "metric", "comparison", "threshold", "importance"] | none
    return ⟨← JsonForm.required name, ← JsonForm.required metric, ← JsonForm.required comparison,
      ← JsonForm.required threshold, ← JsonForm.required importance⟩

/-- The JSON form of a gate. -/
def Gate.json (g : Gate) : Json :=
  .obj [("name", .str g.rule.name), ("metric", JsonForm.encode g.rule.metric),
    ("comparison", JsonForm.encode g.rule.comparison), ("threshold", .float g.rule.threshold),
    ("actual", JsonForm.encode g.actual), ("importance", JsonForm.encode g.rule.importance),
    ("status", JsonForm.encode g.status)]

/-- The JSON form of the gates of a routine. -/
def GateResults.json (r : GateResults) : Json :=
  .obj [("enabled", .bool r.enabled), ("gates", .arr (r.gates.map Gate.json)),
    ("overall_status", JsonForm.encode r.status), ("gate_quality_score", .float r.score)]

end FlowGauge
