import FlowGauge.DataFlow.Summary
import FlowGauge.Flow.Loops
import FlowGauge.Flow.Validation
import FlowGauge.Preset
import FlowGauge.Refusal

/-!
# Flow analysis of a routine

`Analysis.ofRoutine` runs the enabled analyses on a routine and collects their findings. A malformed
routine never leads to a refusal: it yields issues, and the result is then only `Trust.degraded`.
The only refusals are contradictory options and, for whole programs, a program without routines.

An `Analyzer` is a set of options with the number of results handed out so far. Analysing all
routines of a program is analysing them one by one.
-/

namespace FlowGauge

/-- Which analyses are run, and how. -/
structure AnalysisOptions where
  dominance : Bool := true
  loops : Bool := true
  dataFlow : Bool := true
  validation : Bool := true
  precision : Precision := .precise
  /-- The time an analysis should take at most, in microseconds. -/
  timeBudget : Nat := 1000000
deriving DecidableEq, Repr

namespace AnalysisOptions

/-- The graph and its validation only. -/
def minimal : AnalysisOptions where
  dominance := false
  loops := false
  dataFlow := false
  precision := .coarse
  timeBudget := 100000

/-- Every analysis, with much time. -/
def comprehensive : AnalysisOptions where
  timeBudget := 10000000

/-- The options of a preset. -/
def ofPreset : Preset → AnalysisOptions
  | .standard => {}
  | .minimal => minimal
  | .comprehensive => comprehensive

/-- Refuses contradictory options. -/
def check (o : AnalysisOptions) : Except Refusal Unit :=
  if o.loops && !o.dominance then .error (.invalidConfiguration .loopsWithoutDominance)
  else if o.timeBudget = 0 then .error (.invalidConfiguration .noAnalysisTime)
  else .ok ()

end AnalysisOptions

/-- How far a result can be trusted. -/
inductive Trust where
  /-- There is neither an error nor a warning. -/
  | complete
  /-- There is an error or a warning. -/
  | degraded
deriving DecidableEq, Repr

instance : Vocabulary Trust where
  all := [.complete, .degraded]
  word
    | .complete => "complete"
    | .degraded => "degraded"

/-- Size figures of an analysed routine. -/
structure Figures where
  instructionCount : Nat
  blockCount : Nat
  edgeCount : Nat
  reachableBlockCount : Nat
  loopCount : Nat
  maxLoopDepth : Nat
  cyclomatic : Nat
  variableCount : Nat
  interferenceEdges : Nat
deriving DecidableEq, Repr

/-- What the flow analyses find in a routine. -/
structure Analysis where
  routineName : String
  /-- The flow graph, with loop marks. -/
  graph : FlowGraph
  /-- The dominance record; empty when not asked for. -/
  dominance : Dominance
  /-- The loops; none when not asked for. -/
  loops : List Loop
  /-- The data-flow summary; empty when not asked for. -/
  dataFlow : DataFlow
  issues : List Issue
  trust : Trust
  figures : Figures

namespace Analysis

/-- The trust that a list of issues leaves. -/
def trustOf (issues : List Issue) : Trust :=
  if issues.any (·.severity != .info) then .degraded else .complete

/-- Warnings about cycles with more than one entry. -/
def irreducibleIssues (g : FlowGraph) (d : Dominance) : List Issue :=
  (Loop.irreducibleEdges g d).map fun (latch, header) ↦
    (Issue.warning .irreducibleLoop ("back edge " ++ latch.text ++ " -> " ++ header.text ++
      " enters a cycle with multiple entries")).atBlock latch

/-- The graph with the loop marks of the given loops. -/
def marked (g : FlowGraph) (loops : List Loop) : FlowGraph :=
  g.markLoops (.ofList (loops.map Loop.header)) (.ofList (loops.flatMap (·.exits.toList)))

/-- The analysis of a routine, when the options are consistent. -/
def run (o : AnalysisOptions) (r : Routine) : Analysis :=
  let bare := FlowGraph.ofRoutine r
  let dominance := if o.dominance then Dominance.compute bare else {}
  let loops := if o.loops then Loop.find bare dominance else []
  let graph := if o.loops then marked bare loops else bare
  let irreducible := if o.loops then irreducibleIssues graph dominance else []
  let dataFlow :=
    if o.dataFlow then DataFlow.analyze graph o.precision else { precision := o.precision }
  let found := if o.validation then graph.structuralIssues ++ r.instructionIssues else []
  let issues := found ++ irreducible
  { routineName := r.name
    graph
    dominance
    loops
    dataFlow
    issues
    trust := trustOf issues
    figures :=
      { instructionCount := r.size
        blockCount := graph.size
        edgeCount := graph.edges.length
        reachableBlockCount := graph.reachable.size
        loopCount := loops.length
        maxLoopDepth := (loops.map Loop.depth).foldl max 0
        cyclomatic := graph.cyclomatic
        variableCount := dataFlow.sites.size
        interferenceEdges := dataFlow.interference.edgeCount } }

/-- The analysis of a routine, or the refusal of contradictory options. -/
def ofRoutine (o : AnalysisOptions) (r : Routine) : Except Refusal Analysis := do
  o.check
  return run o r

/-- Whether some issue is an error. -/
def hasErrors (a : Analysis) : Bool :=
  a.issues.any Issue.isError

/-- Whether some error breaks the invariants of the graph, so that it cannot be measured. -/
def hasStructuralErrors (a : Analysis) : Bool :=
  a.issues.any fun i ↦ i.isError && i.kind.isStructural

/-- Whether there is neither an error nor a warning. -/
def isComplete (a : Analysis) : Bool :=
  a.trust == .complete

/-- The loop depth of a block. -/
def loopDepth (a : Analysis) (b : BlockId) : Nat :=
  Loop.depthAt a.loops b

/-- The loop depth of the block that holds an instruction. -/
def instructionDepth (a : Analysis) (index : Nat) : Nat :=
  match a.graph.blocks.find? fun b ↦ b.start ≤ index && index < b.stop with
  | some b => a.loopDepth b.id
  | none => 0

instance : JsonForm Figures where
  encode f := .obj [("instruction_count", JsonForm.encode f.instructionCount),
    ("block_count", JsonForm.encode f.blockCount), ("edge_count", JsonForm.encode f.edgeCount),
    ("reachable_block_count", JsonForm.encode f.reachableBlockCount),
    ("loop_count", JsonForm.encode f.loopCount),
    ("max_loop_depth", JsonForm.encode f.maxLoopDepth),
    ("cyclomatic_complexity", JsonForm.encode f.cyclomatic),
    ("variable_count", JsonForm.encode f.variableCount),
    ("interference_edges", JsonForm.encode f.interferenceEdges)]
  decode? j := do
    let [instructions, blocks, edges, reachable, loops, depth, cyclomatic, names, conflicts] ←
      j.record? ["instruction_count", "block_count", "edge_count", "reachable_block_count",
        "loop_count", "max_loop_depth", "cyclomatic_complexity", "variable_count",
        "interference_edges"] | none
    return ⟨← JsonForm.required instructions, ← JsonForm.required blocks,
      ← JsonForm.required edges, ← JsonForm.required reachable, ← JsonForm.required loops,
      ← JsonForm.required depth, ← JsonForm.required cyclomatic, ← JsonForm.required names,
      ← JsonForm.required conflicts⟩

instance : JsonForm Analysis where
  encode a := .obj [("function_name", JsonForm.encode a.routineName),
    ("cfg", JsonForm.encode a.graph), ("dominance", JsonForm.encode a.dominance),
    ("loops", JsonForm.encode a.loops), ("data_flow", JsonForm.encode a.dataFlow),
    ("issues", JsonForm.encode a.issues), ("analysis_quality", JsonForm.encode a.trust),
    ("metrics", JsonForm.encode a.figures)]
  decode? j := do
    let [name, graph, dominance, loops, dataFlow, issues, trust, figures] ←
      j.record? ["function_name", "cfg", "dominance", "loops", "data_flow", "issues",
        "analysis_quality", "metrics"] | none
    return ⟨← JsonForm.required name, ← JsonForm.required graph, ← JsonForm.required dominance,
      ← JsonForm.required loops, ← JsonForm.required dataFlow, ← JsonForm.required issues,
      ← JsonForm.required trust, ← JsonForm.required figures⟩

end Analysis

/-- Options with the number of analyses handed out so far. -/
structure Analyzer where
  options : AnalysisOptions
  analyzed : Nat := 0
deriving DecidableEq, Repr

namespace Analyzer

/-- Analyse a routine; a refusal leaves the count as it was. -/
def analyzeRoutine (a : Analyzer) (r : Routine) : Except Refusal Analysis × Analyzer :=
  match Analysis.ofRoutine a.options r with
  | .ok result => (.ok result, { a with analyzed := a.analyzed + 1 })
  | .error e => (.error e, a)

/-- Analyse the first routine of a program. -/
def analyzeFirst (a : Analyzer) (p : Program) : Except Refusal Analysis × Analyzer :=
  match p.firstRoutine? with
  | some r => a.analyzeRoutine r
  | none => (.error (.missingInput p.name), a)

/-- Analyse all routines of a program, in order. -/
def analyzeAll (a : Analyzer) (p : Program) : Except Refusal (List Analysis) × Analyzer :=
  match p.routines with
  | [] => (.error (.missingInput p.name), a)
  | routines =>
    match routines.mapM (Analysis.ofRoutine a.options) with
    | .ok results => (.ok results, { a with analyzed := a.analyzed + results.length })
    | .error e => (.error e, a)

end Analyzer

end FlowGauge
