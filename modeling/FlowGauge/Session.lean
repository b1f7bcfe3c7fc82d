import FlowGauge.Quality

/-!
# Sessions

A session judges routines one after another with the same options. A routine is analysed, timed and
judged; or it is judged with the results kept from before. A refused analysis keeps nothing and a
refused timing keeps the analysis only, so a report never rests on results of two different steps.
-/

namespace FlowGauge

/-- The options of a session with what it keeps. -/
structure Session where
  analyzer : Analyzer
  timingOptions : TimingOptions
  registry : Registry
  quality : QualityAnalyzer
  analysis : Option Analysis := none
  timing : Option Timing := none

namespace Session

/-- Analyse and time a routine, and keep the results. -/
def renew (s : Session) (r : Routine) : Checked (Option Refusal × Session) :=
  let (result, analyzer) := s.analyzer.analyzeRoutine r
  match result with
  | .error e => .ok (some e, { s with analyzer, analysis := none, timing := none })
  | .ok a =>
    match Timing.ofRoutine s.timingOptions s.registry r a with
    | .error e => .ok (some e, { s with analyzer, analysis := some a, timing := none })
    | .ok timing => do
      return (none, { s with analyzer, analysis := some a, timing := some (← timing) })

/-- Judge a routine with the kept results. -/
def judge (s : Session) (r : Routine) : Checked (QualityReport × Session) := do
  let (report, quality) ← s.quality.analyzeRoutine r s.analysis s.timing
  return (report, { s with quality })

/-- One step: judge a routine with new or with kept results. -/
def step (s : Session) (r : Routine) (reuse : Bool) :
    Checked (Option Refusal × QualityReport × Session) := do
  let (refusal, s) ← if reuse then .ok (none, s) else s.renew r
  let (report, s) ← s.judge r
  return (refusal, report, s)

end Session

end FlowGauge
