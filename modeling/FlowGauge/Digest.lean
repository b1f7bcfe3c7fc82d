import FlowGauge.Quality
import FlowGauge.Timing.Record

/-!
# Digests of results

A digest is the JSON form of a result together with the figures that are derived from it. In a
digest, a flow graph is outlined: its blocks list the numbers of their instructions in place of the
instructions.
-/

namespace FlowGauge

/-- The outline of a block. -/
def Block.outline (b : Block) : Checked Json := do
  let numbered ← b.numbered
  return .obj [("id", .nat b.id), ("start", .nat b.start), ("end", .nat b.stop),
    ("len", .nat b.code.length), ("empty", .bool b.code.isEmpty),
    ("ids", JsonForm.encode (b.code.map Instruction.id)),
    ("indices", JsonForm.encode (numbered.map Prod.fst)),
    ("terminator", JsonForm.encode (b.terminator?.map Instruction.opcode)),
    ("preds", JsonForm.encode b.predecessors), ("succs", JsonForm.encode b.successors),
    ("header", .bool b.isLoopHeader), ("exit", .bool b.isLoopExit)]

/-- The outline of a flow graph. -/
def FlowGraph.outline (g : FlowGraph) : Checked Json := do
  return .obj [("function", .str g.routineName), ("blocks", .arr (← g.blocks.mapM Block.outline)),
    ("edges", .arr (g.edges.map fun e ↦
      .arr [.nat e.source, .nat e.target, JsonForm.encode e.kind])),
    ("entry", JsonForm.encode g.entry), ("exits", JsonForm.encode g.exits)]

/-- The digest of a data-flow summary. -/
def DataFlow.digest (d : DataFlow) : Json :=
  .obj ((JsonForm.encode d).fields ++ [("average_chain_length", .float d.averageChainLength),
    ("max_degree", .nat d.interference.maxDegree)])

namespace Analysis

/-- The digest of an analysis. -/
def digest (a : Analysis) : Checked Json := do
  let depths := (List.range (a.figures.instructionCount + 1)).map a.instructionDepth
  let outline ← a.graph.outline
  return .obj ((JsonForm.encode a).fields.map (fun (name, value) ↦
      (name, if name == "cfg" then outline else value)) ++
    [("has_errors", .bool a.hasErrors), ("has_structural_errors", .bool a.hasStructuralErrors),
      ("is_complete", .bool a.isComplete), ("instruction_depths", JsonForm.encode depths)])

/-- The figures and issues of an analysis. -/
def brief (a : Analysis) : Json :=
  .obj [("function_name", .str a.routineName), ("metrics", JsonForm.encode a.figures),
    ("analysis_quality", JsonForm.encode a.trust), ("issues", JsonForm.encode a.issues)]

end Analysis

/-- The digest of a timing. -/
def Timing.digest (t : Timing) : Json :=
  let byKind := (Vocabulary.all : List RecommendationKind).map fun kind ↦
    (Vocabulary.word kind, Json.nat (t.recommendations.countOf kind))
  .obj (t.json.fields ++
    [("cycles_per_instruction", .float t.cycleTiming.cyclesPerInstruction),
      ("by_kind", .obj byKind), ("memory_valid", .bool t.memoryLayout.isValid),
      ("peak_utilization", .float t.memoryLayout.peakUtilization)])

/-- The digest of a report. -/
def QualityReport.digest (r : QualityReport) : Json :=
  .obj (r.json.fields ++ [("has_critical_issues", .bool r.hasCriticalIssues),
    ("is_acceptable", .bool r.isAcceptable)])

end FlowGauge
