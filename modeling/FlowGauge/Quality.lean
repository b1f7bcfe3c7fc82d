import FlowGauge.Quality.Report

/-!
# Quality of a routine

`QualityReport.ofRoutine` judges a routine from its flow analysis and, if there is one, its timing.
It never refuses: a missing analysis, an analysis of a broken graph, or results that belong to
another routine yield a report that is not acceptable. Only a number in the analysis that is too
great to count on from stops it. The overall score is the mean of the enabled sections, lowered for
every error of the analysis.
-/

namespace FlowGauge

/-- Why results cannot be used for a routine. -/
inductive Mismatch where
  /-- The analysis is of the routine `analysed`. -/
  | analysisName (analysed expected : String)
  /-- The analysis is of `covered` instructions. -/
  | instructionCount (covered expected : Nat)
  /-- The timing is of the routine `timed`. -/
  | timingName (timed expected : String)
deriving DecidableEq, Repr

namespace Mismatch

/-- The wording of a mismatch. -/
def message : Mismatch → String
  | analysisName analysed expected =>
    "control flow result belongs to " ++ analysed ++ ", not " ++ expected
  | instructionCount covered expected =>
    "control flow result covers " ++ toString covered ++ " instructions, function has " ++
      toString expected
  | timingName timed expected => "timing result belongs to " ++ timed ++ ", not " ++ expected

/-- The first mismatch between a routine and its results. -/
def find? (r : Routine) (a : Analysis) (t : Option Timing) : Option Mismatch :=
  if a.routineName ≠ r.name then some (.analysisName a.routineName r.name)
  else if a.figures.instructionCount ≠ r.size then
    some (.instructionCount a.figures.instructionCount r.size)
  else (t.filter (·.routineName != r.name)).map fun t ↦ .timingName t.routineName r.name

end Mismatch

namespace QualityReport

/-- What an error of the analysis costs. -/
def errorPenalty : Float :=
  20.0

/-- The overall score of the enabled sections, lowered for every error. -/
def scoreOf (c : Complexity) (p : Performance) (r : Readiness) (g : GateResults) (errors : Nat) :
    Float :=
  let parts := (if c.enabled then [100.0 - c.overall] else []) ++
    (if p.enabled then [p.score] else []) ++ (if r.enabled then [r.safety.overall] else []) ++
    (if g.enabled then [g.score] else [])
  let base := if parts.isEmpty then 100.0 else Score.mean parts
  Score.clamp (base - errorPenalty * Score.ofCount errors)

/-- The report on a routine with results that belong to it, once its readiness is known. -/
def compose (o : QualityOptions) (r : Routine) (a : Analysis) (t : Option Timing)
    (readiness : Readiness) : QualityReport :=
  let complexity := if o.complexity then Complexity.measure r a o.limits o.weights else {}
  let performance := if o.performance then Performance.predict r a t else {}
  let inputs : GateInputs :=
    { complexity := if o.complexity then some complexity else none
      performance := if o.performance then some performance else none
      readiness := if o.readiness then some readiness else none
      timing := t }
  let gates := if o.gates then inputs.evaluate o.rules else {}
  { routineName := r.name
    complexity
    performance
    readiness
    gates
    score := scoreOf complexity performance readiness gates (a.issues.countP Issue.isError)
    summary := .of a t complexity performance readiness gates }

/-- The report on a routine with results that belong to it. Readiness rests on the complexity and
the predicted performance also when their own sections are not asked for. -/
def run (o : QualityOptions) (r : Routine) (a : Analysis) (t : Option Timing) :
    Checked QualityReport := do
  let complexity := (Complexity.measure r a o.limits o.weights).overall
  let confidence := (Performance.predict r a t).confidence
  return compose o r a t
    (← Checked.onRequest o.readiness (Readiness.assess r a complexity confidence t) {})

/-- The wording of the errors that break the graph of an analysis. -/
def structuralFaults (a : Analysis) : List String :=
  (a.issues.filter fun i ↦ i.isError && i.kind.isStructural).map fun i ↦
    "malformed control flow graph: " ++ i.message

/-- The report on a routine. -/
def ofRoutine (o : QualityOptions) (r : Routine) (a : Option Analysis) (t : Option Timing) :
    Checked QualityReport :=
  match a with
  | none => .ok (malformed r.name ["no control flow analysis result"])
  | some a =>
    if a.hasStructuralErrors then .ok (malformed r.name (structuralFaults a))
    else
      match Mismatch.find? r a t with
      | some m => .ok (malformed r.name ["internal analysis fault: " ++ faultMessage m.message])
      | none => run o r a t

end QualityReport

/-- Options with the number of reports handed out so far. -/
structure QualityAnalyzer where
  options : QualityOptions := {}
  analyzed : Nat := 0

namespace QualityAnalyzer

/-- An analyzer with consistent options, or the refusal of inconsistent ones. -/
def ofOptions (o : QualityOptions) : Except Refusal QualityAnalyzer := do
  o.validate
  return { options := o }

/-- Report on a routine. -/
def analyzeRoutine (q : QualityAnalyzer) (r : Routine) (a : Option Analysis) (t : Option Timing) :
    Checked (QualityReport × QualityAnalyzer) := do
  return (← QualityReport.ofRoutine q.options r a t, { q with analyzed := q.analyzed + 1 })

end QualityAnalyzer

end FlowGauge
