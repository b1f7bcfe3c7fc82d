import FlowGauge.Timing

/-!
# Performance

The cycles of a routine are predicted from its timing, or from a fixed cost per executable
instruction without one. Every assumption made lowers the confidence of the prediction. The score
starts from 100; headroom, spilled registers, full memory and costly instructions lower it.
-/

namespace FlowGauge

/-- What a prediction takes for granted. -/
inductive Assumption where
  /-- Cycles are estimated per instruction. -/
  | noTimingData
  /-- It is unknown how often loops run. -/
  | unknownTripCounts
  /-- The cycles of called routines are left out. -/
  | callsNotModelled
  /-- It is unknown how often a branch is taken. -/
  | branchProbabilities
deriving DecidableEq, Repr

instance : Vocabulary Assumption where
  all := [.noTimingData, .unknownTripCounts, .callsNotModelled, .branchProbabilities]
  word
    | .noTimingData => "no_timing_data"
    | .unknownTripCounts => "unknown_trip_counts"
    | .callsNotModelled => "calls_not_modelled"
    | .branchProbabilities => "branch_probabilities"

/-- The memory a routine is expected to use, in bytes. -/
structure MemoryEstimate where
  zeroPage : Nat := 0
  stack : Nat := 0
  ram : Nat := 0
  /-- The greatest use of a region in percent. -/
  peak : Float := 0.0

/-- The predicted performance of a routine. -/
structure Performance where
  enabled : Bool := false
  bestCycles : Float := 0.0
  averageCycles : Float := 0.0
  worstCycles : Float := 0.0
  /-- From 0.1 to 0.9. -/
  confidence : Float := 0.0
  assumptions : List Assumption := []
  memory : MemoryEstimate := {}
  registerPressure : Float := 0.0
  spillRisk : Bool := false
  cyclesPerInstruction : Float := 0.0
  /-- From 0 to 100, the higher the better. -/
  score : Float := 0.0

/-- The memory of a timing result; nothing without a memory section. -/
def MemoryEstimate.ofTiming (t : Option Timing) : MemoryEstimate :=
  match (t.map Timing.memoryLayout).filter MemoryLayout.enabled with
  | some m => ⟨m.zeroPage.used, m.stack.used, m.ram.used, m.peakUtilization⟩
  | none => {}

namespace Performance

/-- The cycles taken for an executable instruction without timing. -/
def estimatedCycles : Float :=
  4.0

/-- The confidence without an assumption. -/
def baseConfidence : Float :=
  0.9

/-- What is taken for granted; `timed` says whether there are cycles from a timing. -/
def assumptionsOf (r : Routine) (a : Analysis) (timed : Bool) : List Assumption :=
  (if timed then [] else [.noTimingData]) ++
    (if a.loops.isEmpty then [] else [.unknownTripCounts]) ++
    (if r.instructions.any (·.opcode == .call) then [.callsNotModelled] else []) ++
    (if r.instructions.any (·.opcode.isConditionalBranch) then [.branchProbabilities] else [])

/-- The confidence left by a number of assumptions. -/
def confidenceAfter (assumptions : Nat) : Float :=
  Score.greater (baseConfidence - 0.1 * Score.ofCount assumptions) 0.1

/-- The score from the headroom, the risk of spills, the greatest use of a memory region and the
cycles per instruction. -/
def scoreOf (headroom : Float) (spillRisk : Bool) (peak cyclesPerInstruction : Float) : Float :=
  let s := 100.0 - headroom * 0.4
  let s := if spillRisk then s - 15.0 else s
  let s := s - Score.greater (peak - 50.0) 0.0 * 0.5
  let s := s - Score.greater (cyclesPerInstruction - 8.0) 0.0 * 2.0
  Score.clamp s

/-- The predicted performance of a routine with its flow analysis and its timing, if there is one.
-/
def predict (r : Routine) (a : Analysis) (t : Option Timing) : Performance :=
  let count := r.executable.length
  let timed := (t.map Timing.cycleTiming).filter CycleTiming.enabled
  let averageCycles := match timed with
    | some c => Score.ofCount c.totalCycles
    | none => Score.ofCount count * estimatedCycles
  let assumptions := assumptionsOf r a timed.isSome
  let memory := MemoryEstimate.ofTiming t
  let registers := (t.map Timing.registers).filter RegisterDemand.enabled
  let spillRisk := registers.any RegisterDemand.spillRisk
  let cyclesPerInstruction := if count = 0 then 0.0 else averageCycles / Score.ofCount count
  let headroom := ((t.map Timing.hotspots).filter Hotspots.enabled).elim 0.0 Hotspots.headroom
  { enabled := true
    bestCycles := averageCycles * 0.8
    averageCycles
    worstCycles := averageCycles * 1.3
    confidence := confidenceAfter assumptions.length
    assumptions
    memory
    registerPressure := registers.elim 0.0 RegisterDemand.overallPressure
    spillRisk
    cyclesPerInstruction
    score := scoreOf headroom spillRisk memory.peak cyclesPerInstruction }

/-- The JSON form of a predicted performance. -/
def json (p : Performance) : Json :=
  .obj [("enabled", .bool p.enabled), ("best_case_cycles", .float p.bestCycles),
    ("average_cycles", .float p.averageCycles), ("worst_case_cycles", .float p.worstCycles),
    ("confidence", .float p.confidence), ("assumptions", JsonForm.encode p.assumptions),
    ("memory", .obj [("zero_page_bytes", .nat p.memory.zeroPage),
      ("stack_bytes", .nat p.memory.stack), ("ram_bytes", .nat p.memory.ram),
      ("peak_utilization", .float p.memory.peak)]),
    ("register_pressure", .float p.registerPressure), ("spill_risk", .bool p.spillRisk),
    ("cycles_per_instruction", .float p.cyclesPerInstruction),
    ("performance_score", .float p.score)]

end Performance

end FlowGauge
