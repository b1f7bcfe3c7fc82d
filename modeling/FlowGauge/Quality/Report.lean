import FlowGauge.Quality.Complexity
import FlowGauge.Quality.Readiness

/-!
# Quality reports

A report gathers the four sections, an overall score and a summary in words. A report is acceptable
when nothing critical is found and no mandatory gate fails. Input that cannot be judged yields a
report with critical issues, empty sections and the score zero.
-/

namespace FlowGauge

/-- The findings of a report in words. -/
structure QualitySummary where
  critical : List String := []
  warnings : List String := []
  strengths : List String := []
  recommendations : List String := []
deriving DecidableEq, Repr

/-- The quality of a routine. -/
structure QualityReport where
  routineName : String
  complexity : Complexity := {}
  performance : Performance := {}
  readiness : Readiness := {}
  gates : GateResults := {}
  /-- From 0 to 100, the higher the better. -/
  score : Float := 0.0
  summary : QualitySummary

namespace QualityReport

/-- The report on input that cannot be judged. -/
def malformed (routine : String) (critical : List String) : QualityReport where
  routineName := routine
  summary := { critical }

/-- Whether something critical is found. -/
def hasCriticalIssues (r : QualityReport) : Bool :=
  !r.summary.critical.isEmpty

/-- Whether nothing critical is found and the gates do not fail. -/
def isAcceptable (r : QualityReport) : Bool :=
  !r.hasCriticalIssues && r.gates.status != .fail

end QualityReport

/-! ### Gates of a report -/

/-- The sections of a report that gates may look at. -/
structure GateInputs where
  complexity : Option Complexity
  performance : Option Performance
  readiness : Option Readiness
  timing : Option Timing

namespace GateInputs

/-- The value of a metric, if its section is there. -/
def value? (g : GateInputs) : GateMetric → Option Float
  | .overallComplexity => g.complexity.map Complexity.overall
  | .instructionComplexity => g.complexity.map Complexity.instructionScore
  | .controlFlowComplexity => g.complexity.map Complexity.controlFlowScore
  | .dataFlowComplexity => g.complexity.map Complexity.dataFlowScore
  | .cyclomaticComplexity => g.complexity.map fun c ↦ Score.ofCount c.cyclomatic
  | .performanceScore => g.performance.map Performance.score
  | .memoryUsage =>
    ((g.timing.map Timing.memoryLayout).filter MemoryLayout.enabled).map
      MemoryLayout.peakUtilization
  | .safetyScore => g.readiness.map (·.safety.overall)
  | .optimizationReadiness => g.readiness.map Readiness.overall
  | .averageCycles => g.performance.map Performance.averageCycles
  | .confidence => g.performance.map Performance.confidence

/-- The gates of some rules. -/
def evaluate (g : GateInputs) (rules : List GateRule) : GateResults :=
  .ofGates (rules.map fun rule ↦ rule.apply (g.value? rule.metric))

end GateInputs

/-! ### Summaries -/

namespace QualitySummary

/-- The number of recommendations in a summary. -/
def recommendationLimit : Nat :=
  3

/-- The wording of a gate that does not pass. -/
def gateLine (g : Gate) : String :=
  "gate " ++ g.rule.name ++ " " ++ Vocabulary.word g.status ++ ": " ++
    Decimal.fixed 1 (g.actual.getD 0.0) ++ " against " ++ Decimal.fixed 1 g.rule.threshold

/-- The lines of the gates that are critical. -/
def criticalGates (gates : List Gate) : List String :=
  (gates.filter Gate.blocks).map gateLine

/-- The lines of the other gates that do not pass. -/
def gateWarnings (gates : List Gate) : List String :=
  (gates.filter fun g ↦ !g.blocks && (g.status == .fail || g.status == .warning)).map gateLine

/-- The wording of the issues of a severity. -/
def messages (severity : Severity) (issues : List Issue) : List String :=
  (issues.filter (·.severity == severity)).map Issue.message

/-- What a routine does well. -/
def strengthsOf (c : Complexity) (p : Performance) (r : Readiness) : List String :=
  (if c.enabled && c.overall < 30.0 then ["low complexity"] else []) ++
    (if p.enabled && p.score ≥ 80.0 then ["efficient for the target"] else []) ++
    (if r.enabled && r.safety.overall ≥ 80.0 then ["safe to transform"] else [])

/-- The findings of a report, from the gates, the flow analysis and the timing, in that order. -/
def of (a : Analysis) (t : Option Timing) (c : Complexity) (p : Performance) (r : Readiness)
    (g : GateResults) : QualitySummary :=
  let timingIssues := t.elim [] Timing.issues
  { critical := criticalGates g.gates ++ messages .error a.issues ++ messages .error timingIssues
    warnings := gateWarnings g.gates ++ messages .warning a.issues ++
      messages .warning timingIssues
    strengths := strengthsOf c p r
    recommendations := (t.elim [] (·.recommendations.recommendations)).take recommendationLimit
      |>.map Recommendation.description }

end QualitySummary

/-! ### JSON forms -/

/-- The JSON form of a summary. -/
def QualitySummary.json (s : QualitySummary) : Json :=
  .obj [("critical_issues", JsonForm.encode s.critical), ("warnings", JsonForm.encode s.warnings),
    ("strengths", JsonForm.encode s.strengths),
    ("recommendations", JsonForm.encode s.recommendations)]

/-- The JSON form of a report. -/
def QualityReport.json (r : QualityReport) : Json :=
  .obj [("function_name", .str r.routineName), ("complexity", r.complexity.json),
    ("performance", r.performance.json), ("readiness", r.readiness.json),
    ("gates", r.gates.json), ("overall_quality_score", .float r.score),
    ("summary", r.summary.json)]

end FlowGauge
