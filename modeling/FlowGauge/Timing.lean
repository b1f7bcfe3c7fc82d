import FlowGauge.Timing.Constraints
import FlowGauge.Timing.CycleTiming
import FlowGauge.Timing.Hotspots
import FlowGauge.Timing.MemoryLayout
import FlowGauge.Timing.Options
import FlowGauge.Timing.Recommendations
import FlowGauge.Timing.RegisterDemand

/-!
# Timing of a routine

`Timing.ofRoutine` holds a routine with its flow analysis against a target. Only the configuration
can lead to a refusal. An analysis that does not fit the routine yields a failed result with a
single error and empty sections; sections that are not asked for are empty too. Byte sizes, counts
and sums of cycles are kept in words, and depths and cycles are looked up in lists, so a fault may
stop a consistent request. It is always a word that is too narrow, and never a look-up.
-/

namespace FlowGauge

/-- What a timing run finds in a routine. -/
structure Timing where
  routineName : String
  platform : Platform
  variant : Variant
  /-- Whether no issue is an error. -/
  isValid : Bool
  cycleTiming : CycleTiming := {}
  memoryLayout : MemoryLayout := {}
  registers : RegisterDemand := {}
  hotspots : Hotspots := {}
  constraints : Constraints := {}
  recommendations : Recommendations := {}
  issues : List Issue

namespace Timing

/-- The result for an analysis that does not fit the routine. -/
def failed (r : Routine) (o : TimingOptions) (m : Misfit) : Timing where
  routineName := r.name
  platform := o.platform
  variant := o.variant
  isValid := false
  issues := [.error .analysisError (faultMessage m.message)]

/-- The result in a context. -/
def run (o : TimingOptions) (c : TimingContext) : Checked Timing := do
  let cycleTiming ← Checked.onRequest o.cycleTiming (CycleTiming.run c) {}
  let (memoryLayout, memoryIssues) ←
    Checked.onRequest o.memoryLayout (MemoryLayout.analyze c) ({}, [])
  let (registers, registerIssues) := if o.registers then RegisterDemand.analyze c else ({}, [])
  let hotspots ← Checked.onRequest o.hotspots (Hotspots.run c) {}
  let (constraints, constraintIssues) ← Checked.onRequest o.constraints
    (Constraints.run c o.interruptBudget o.frameBudget) ({}, [])
  let recommendations ← Checked.onRequest o.recommendations (Recommendations.run c) {}
  let issues := memoryIssues ++ registerIssues ++ constraintIssues
  return {
    routineName := c.routine.name
    platform := o.platform
    variant := o.variant
    isValid := !issues.any Issue.isError
    cycleTiming, memoryLayout, registers, hotspots, constraints, recommendations, issues }

/-- The timing of a routine, or the refusal of the configuration. -/
def ofRoutine (o : TimingOptions) (registry : Registry) (r : Routine) (a : Analysis) :
    Except Refusal (Checked Timing) := do
  o.validate
  let hardware ← registry.find o.variant
  match TimingContext.of r a hardware with
  | .ok c => return run o c
  | .error m => return .ok (failed r o m)

/-- The cycles of all instructions. -/
def totalCycles (t : Timing) : Nat :=
  t.cycleTiming.totalCycles

/-- The cycles along the critical path. -/
def criticalPath (t : Timing) : Nat :=
  t.cycleTiming.criticalPath

/-- The headroom score: the higher, the more there is to gain. -/
def headroom (t : Timing) : Float :=
  t.hotspots.headroom

end Timing

end FlowGauge
