import FlowGauge.Timing

/-!
# JSON forms of timing results

Timing results are written and never read. Every section is written with all its fields, whether or
not it was asked for; what a section derives from its fields (the use of a region, its validity) is
written beside them.
-/

namespace FlowGauge

/-- The JSON form of the cycles charged to one instruction. -/
def CycleCharge.json (c : CycleCharge) : Json :=
  .obj [("index", .nat c.index), ("opcode", JsonForm.encode c.opcode), ("cycles", .nat c.cycles),
    ("loop_depth", .nat c.loopDepth)]

/-- The JSON form of the cycles of a routine. -/
def CycleTiming.json (t : CycleTiming) : Json :=
  .obj [("enabled", .bool t.enabled), ("total_cycles", .nat t.totalCycles),
    ("critical_path_cycles", .nat t.criticalPath),
    ("attributions", .arr (t.charges.map CycleCharge.json)),
    ("by_opcode", .obj (t.byOpcode.map fun (op, cycles) ↦ (Vocabulary.word op, .nat cycles)))]

/-- The JSON form of the use of a region. -/
def RegionUsage.json (u : RegionUsage) : Json :=
  .obj [("region", JsonForm.encode u.region), ("used_bytes", .nat u.used),
    ("capacity_bytes", .nat u.capacity), ("utilization", .float u.utilization),
    ("is_valid", .bool u.isValid)]

/-- The JSON form of the memory a routine needs. -/
def MemoryLayout.json (m : MemoryLayout) : Json :=
  .obj [("enabled", .bool m.enabled), ("zero_page", m.zeroPage.json), ("stack", m.stack.json),
    ("ram", m.ram.json), ("register_locals", .nat m.registerLocals),
    ("unsupported_modes", .nat m.unsupportedModes)]

/-- The JSON form of the demand for one register. -/
def RegisterUsage.json (u : RegisterUsage) : Json :=
  .obj [("register", JsonForm.encode u.register), ("operand_uses", .nat u.operandUses),
    ("preferred_hints", .nat u.preferredHints), ("pressure", .float u.pressure)]

/-- The JSON form of the demand for registers. -/
def RegisterDemand.json (d : RegisterDemand) : Json :=
  .obj [("enabled", .bool d.enabled),
    ("registers", .obj (d.registers.map fun u ↦ (Vocabulary.word u.register, u.json))),
    ("allocatable_registers", .nat d.allocatable), ("max_live_variables", .nat d.maxLive),
    ("interference_edges", .nat d.interferenceEdges),
    ("overall_pressure", .float d.overallPressure), ("spill_risk", .bool d.spillRisk)]

/-- The JSON form of a hotspot. -/
def Hotspot.json (h : Hotspot) : Json :=
  .obj [("index", .nat h.index), ("opcode", JsonForm.encode h.opcode), ("cycles", .nat h.cycles),
    ("loop_depth", .nat h.loopDepth), ("weighted_cycles", .nat h.weightedCycles),
    ("exceeds_threshold", .bool h.exceedsThreshold), ("deep_loop", .bool h.deepLoop),
    ("hinted", .bool h.hinted)]

/-- The JSON form of the hotspots of a routine. -/
def Hotspots.json (h : Hotspots) : Json :=
  .obj [("enabled", .bool h.enabled), ("threshold_cycles", .nat h.threshold),
    ("hotspots", .arr (h.hotspots.map Hotspot.json)),
    ("total_weighted_cycles", .nat h.totalWeighted),
    ("hotspot_weighted_cycles", .nat h.hotspotWeighted), ("performance_score", .float h.headroom)]

/-- The JSON form of how a routine stands against the limits. -/
def Constraints.json (c : Constraints) : Json :=
  .obj [("enabled", .bool c.enabled), ("call_count", .nat c.callCount),
    ("stack_locals_bytes", .nat c.stackLocals), ("estimated_stack_bytes", .nat c.estimatedStack),
    ("stack_limit_bytes", .nat c.stackLimit), ("stack_utilization", .float c.stackUtilization),
    ("worst_case_cycles", .nat c.worstCaseCycles),
    ("is_interrupt_handler", .bool c.isInterruptHandler),
    ("interrupt_budget_cycles", .nat c.interruptBudget),
    ("frame_budget_cycles", JsonForm.encode c.frameBudget), ("violations", .nat c.violations)]

/-- The JSON form of a recommendation. -/
def Recommendation.json (r : Recommendation) : Json :=
  .obj [("kind", JsonForm.encode r.kind), ("instruction", JsonForm.encode r.instruction),
    ("variable", JsonForm.encode r.variableName), ("priority", .nat r.priority),
    ("difficulty", JsonForm.encode r.difficulty), ("cycle_benefit", .nat r.cycleBenefit),
    ("byte_benefit", .nat r.byteBenefit), ("description", .str r.description)]

/-- The JSON form of the recommendations for a routine. -/
def Recommendations.json (r : Recommendations) : Json :=
  .obj [("enabled", .bool r.enabled),
    ("recommendations", .arr (r.recommendations.map Recommendation.json)),
    ("total_cycle_benefit", .nat r.totalCycleBenefit),
    ("total_byte_benefit", .nat r.totalByteBenefit)]

/-- The JSON form of a timing result. -/
def Timing.json (t : Timing) : Json :=
  .obj [("function_name", .str t.routineName), ("platform", JsonForm.encode t.platform),
    ("variant", JsonForm.encode t.variant), ("is_valid", .bool t.isValid),
    ("cycle_timing", t.cycleTiming.json), ("memory_layout", t.memoryLayout.json),
    ("registers", t.registers.json), ("hotspots", t.hotspots.json),
    ("constraints", t.constraints.json), ("recommendations", t.recommendations.json),
    ("issues", JsonForm.encode t.issues)]

end FlowGauge
