import FlowGauge.Analysis
import FlowGauge.Quality.Options

/-!
# Complexity

Each component of complexity is scaled so that its limit scores 100, and capped there. The three
scores are weighted sums of their components, and the overall score is their weighted mean. A higher
score is more complex.
-/

namespace FlowGauge

/-- The complexity of a routine. -/
structure Complexity where
  enabled : Bool := false
  instructions : Nat := 0
  cyclomatic : Nat := 0
  /-- Branches per executable instruction. -/
  branchDensity : Float := 0.0
  /-- Calls per executable instruction. -/
  callDensity : Float := 0.0
  /-- Instructions that access memory per executable instruction. -/
  memoryDensity : Float := 0.0
  instructionScore : Float := 0.0
  controlFlowScore : Float := 0.0
  dataFlowScore : Float := 0.0
  overall : Float := 0.0

namespace Complexity

/-- A value scaled so that its limit scores 100. -/
def component (value limit : Float) : Float :=
  Score.clamp (value * 100.0 / limit)

/-- A count scaled so that its limit scores 100. -/
def countComponent (count : Nat) (limit : Float) : Float :=
  component (Score.ofCount count) limit

/-- The share of the executable instructions with a property. -/
def density (r : Routine) (p : Instruction → Bool) : Float :=
  Score.ratio (r.executable.countP p) r.executable.length

/-- Branches per executable instruction. -/
def branchDensityOf (r : Routine) : Float :=
  density r (·.opcode.isBranch)

/-- Calls per executable instruction. -/
def callDensityOf (r : Routine) : Float :=
  density r (·.opcode == .call)

/-- Instructions that access memory per executable instruction. -/
def memoryDensityOf (r : Routine) : Float :=
  density r fun i ↦ i.opcode.isMemoryAccess || 0 < i.memoryOperandCount

/-- The score of the instructions. -/
def scoreInstructions (r : Routine) (l : ComplexityLimits) : Float :=
  0.4 * countComponent r.executable.length l.instructions +
    0.2 * component (branchDensityOf r) l.branchDensity +
    0.2 * component (callDensityOf r) l.callDensity +
    0.2 * component (memoryDensityOf r) l.memoryDensity

/-- The score of the control flow. -/
def scoreControlFlow (a : Analysis) (l : ComplexityLimits) : Float :=
  0.2 * countComponent a.figures.blockCount l.blocks +
    0.2 * countComponent a.figures.edgeCount l.edges +
    0.3 * countComponent a.figures.maxLoopDepth l.loopDepth +
    0.3 * countComponent a.graph.cyclomatic l.cyclomatic

/-- The score of the data flow. -/
def scoreDataFlow (d : DataFlow) (l : ComplexityLimits) : Float :=
  0.25 * countComponent d.sites.size l.variableCount +
    0.25 * component d.averageChainLength l.chainLength +
    0.25 * countComponent d.maxLive l.liveVariables +
    0.25 * countComponent d.interference.edgeCount l.interferenceEdges

/-- The complexity of a routine with its flow analysis. -/
def measure (r : Routine) (a : Analysis) (l : ComplexityLimits) (w : ComplexityWeights) :
    Complexity :=
  let instructionScore := scoreInstructions r l
  let controlFlowScore := scoreControlFlow a l
  let dataFlowScore := scoreDataFlow a.dataFlow l
  { enabled := true
    instructions := r.size
    cyclomatic := a.graph.cyclomatic
    branchDensity := branchDensityOf r
    callDensity := callDensityOf r
    memoryDensity := memoryDensityOf r
    instructionScore := Score.clamp instructionScore
    controlFlowScore := Score.clamp controlFlowScore
    dataFlowScore := Score.clamp dataFlowScore
    overall := Score.clamp
      ((w.instruction * instructionScore + w.controlFlow * controlFlowScore +
        w.dataFlow * dataFlowScore) / w.total) }

/-- The JSON form of the complexity of a routine. -/
def json (c : Complexity) : Json :=
  .obj [("enabled", .bool c.enabled), ("total_instructions", .nat c.instructions),
    ("cyclomatic_complexity", .nat c.cyclomatic), ("branch_density", .float c.branchDensity),
    ("call_density", .float c.callDensity), ("memory_density", .float c.memoryDensity),
    ("instruction_complexity", .float c.instructionScore),
    ("control_flow_complexity", .float c.controlFlowScore),
    ("data_flow_complexity", .float c.dataFlowScore),
    ("overall_complexity_score", .float c.overall)]

end Complexity

end FlowGauge
