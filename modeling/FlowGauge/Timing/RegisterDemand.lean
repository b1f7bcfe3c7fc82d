import FlowGauge.Score
import FlowGauge.Timing.Context

/-!
# Demand for registers

How often each register is named or asked for, and whether more variables are live at once than
there are registers.
-/

namespace FlowGauge

/-- The demand for one register. -/
structure RegisterUsage where
  register : Register
  /-- How often it is named. -/
  operandUses : Nat
  /-- How often it is asked for by a hint. -/
  preferredHints : Nat
  /-- The demand in percent of the executable instructions. -/
  pressure : Float

/-- The demand for registers in a routine. -/
structure RegisterDemand where
  enabled : Bool := false
  registers : List RegisterUsage := []
  allocatable : Nat := 0
  maxLive : Nat := 0
  interferenceEdges : Nat := 0
  overallPressure : Float := 0.0
  /-- Whether more variables are live at once than there are registers. -/
  spillRisk : Bool := false

namespace RegisterDemand

/-- The demand for one register. -/
def usageOf (r : Routine) (register : Register) : RegisterUsage :=
  let uses := (r.instructions.flatMap Instruction.mentions).count (.register register)
  let hints := r.instructions.countP (·.register? == some register)
  let count := r.executable.length
  { register
    operandUses := uses
    preferredHints := hints
    pressure := if count = 0 then 0.0 else Score.lesser (Score.percent (uses + hints) count) 100.0 }

/-- The demand for registers in a routine, with the issues found. -/
def analyze (c : TimingContext) : RegisterDemand × List Issue :=
  let registers := (Vocabulary.all : List Register).map (usageOf c.routine)
  let allocatable := registers.length
  let maxLive := c.analysis.dataFlow.maxLive
  let spillRisk := decide (allocatable < maxLive)
  ({ enabled := true
     registers
     allocatable
     maxLive
     interferenceEdges := c.analysis.dataFlow.interference.edgeCount
     overallPressure := Score.lesser (Score.percent maxLive allocatable) 100.0
     spillRisk },
   if spillRisk then
     [.warning .registerSpillRisk (c.routine.name ++ ": " ++ toString maxLive ++
       " variables live at once, " ++ toString allocatable ++ " registers available")]
   else [])

end RegisterDemand

end FlowGauge
