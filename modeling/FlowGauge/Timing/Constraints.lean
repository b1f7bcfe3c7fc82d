import FlowGauge.Decimal
import FlowGauge.Score
import FlowGauge.Timing.CycleTiming

/-!
# Stack depth and cycle budgets

The stack is estimated as two bytes for every call, the locals on the stack, and a return address.
An interrupt handler has a cycle budget of its own, and any routine may have one; both are held
against the critical path.
-/

namespace FlowGauge

/-- How a routine stands against the limits of the hardware. -/
structure Constraints where
  enabled : Bool := false
  callCount : Nat := 0
  stackLocals : Nat := 0
  estimatedStack : Nat := 0
  stackLimit : Nat := 0
  stackUtilization : Float := 0.0
  worstCaseCycles : Nat := 0
  isInterruptHandler : Bool := false
  interruptBudget : Nat := 0
  frameBudget : Option Nat := none
  /-- The number of limits that are not kept or nearly reached. -/
  violations : Nat := 0

namespace Constraints

/-- The use of the stack above which a warning is given, in percent. -/
def pressurePercent : Float :=
  75.0

/-- The bytes of the locals on the stack. -/
def stackLocalBytes (r : Routine) : Checked Nat :=
  Checked.sum32 ((r.locals.filter (·.allocation == .stack)).map (·.type.size))

/-- The estimated bytes on the stack, at most what a 32-bit word holds. -/
def estimate (calls stackLocals : Nat) : Nat :=
  min (calls * 2 + stackLocals + 2) (Word.bound 32 - 1)

/-- The issue with the stack. -/
def stackIssue? (routine : String) (used limit : Nat) (utilization : Float) : Option Issue :=
  if limit < used then
    some (.error .stackOverflow (routine ++ ": estimated stack depth " ++ toString used ++
      " bytes exceeds " ++ toString limit ++ " bytes"))
  else if pressurePercent < utilization then
    some (.warning .stackPressure (routine ++ ": estimated stack depth uses " ++
      Decimal.fixed 1 utilization ++ "% of the stack"))
  else none

/-- The issue with the budget of an interrupt handler. -/
def interruptIssue? (r : Routine) (worst budget : Nat) : Option Issue :=
  if r.isInterruptHandler && budget < worst then
    some (.error .interruptBudgetExceeded ("interrupt handler " ++ r.name ++ " needs " ++
      toString worst ++ " cycles, budget is " ++ toString budget))
  else none

/-- The issue with the budget of any routine. -/
def frameIssue? (r : Routine) (worst : Nat) (budget : Option Nat) : Option Issue := do
  let budget ← budget
  if budget < worst then
    some (.warning .frameBudgetExceeded (r.name ++ " needs " ++ toString worst ++
      " cycles, frame budget is " ++ toString budget))
  else none

/-- How a routine stands against the limits, with the issues found. -/
def analyze (c : TimingContext) (interruptBudget : Nat) (frameBudget : Option Nat) :
    Checked (Constraints × List Issue) := do
  let r := c.routine
  let callCount := r.instructions.countP (·.opcode == .call)
  let stackLocals ← stackLocalBytes r
  let estimatedStack := estimate callCount stackLocals
  let stackLimit := c.hardware.memory.stack
  let stackUtilization :=
    if stackLimit = 0 then 100.0 else Score.percent estimatedStack stackLimit
  let worst := CycleTiming.worstPath c
  let issues := (stackIssue? r.name estimatedStack stackLimit stackUtilization).toList ++
    (interruptIssue? r worst interruptBudget).toList ++ (frameIssue? r worst frameBudget).toList
  return (
    { enabled := true
      callCount
      stackLocals
      estimatedStack
      stackLimit
      stackUtilization
      worstCaseCycles := worst
      isInterruptHandler := r.isInterruptHandler
      interruptBudget
      frameBudget
      violations := issues.length },
    issues)

/-- How a routine stands against the limits, with the issues found; stopped when the critical
path is. -/
def run (c : TimingContext) (interruptBudget : Nat) (frameBudget : Option Nat) :
    Checked (Constraints × List Issue) := do
  let found ← analyze c interruptBudget frameBudget
  let _ ← CycleTiming.walk c
  return found

end Constraints

end FlowGauge
