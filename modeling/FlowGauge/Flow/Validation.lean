import FlowGauge.Flow.Graph
import FlowGauge.Issue

/-!
# Validation

`FlowGraph.structuralIssues` checks a graph against its own invariants: the entry and the exits
exist, blocks are numbered by position, edges connect existing blocks, and the block sets are
exactly the projections of the edges. Blocks that are not reached from an existing entry are warned
about. `Routine.instructionIssues` checks operand counts and branch targets.
-/

namespace FlowGauge

namespace FlowGraph

/-- Whether a block exists. -/
def hasBlock (g : FlowGraph) (b : BlockId) : Bool :=
  b < g.size

/-- Issues with the entry. -/
def entryIssues (g : FlowGraph) : List Issue :=
  match g.entry with
  | none =>
    if 0 < g.size then [.error .missingEntryBlock "graph has blocks but no entry block"] else []
  | some entry =>
    if g.hasBlock entry then []
    else [(Issue.error .missingEntryBlock
      ("entry block " ++ entry.text ++ " does not exist")).atBlock entry]

/-- Issues with declared exits. -/
def exitIssues (g : FlowGraph) : List Issue :=
  (g.exits.toList.filter (!g.hasBlock ·)).map fun exit ↦
    (Issue.error .missingExitBlock ("exit block " ++ exit.text ++ " does not exist")).atBlock exit

/-- Issues with the numbers of blocks. -/
def numberIssues (g : FlowGraph) : List Issue :=
  (g.blocks.zipIdx.filter fun (b, position) ↦ b.id ≠ position).map fun (b, position) ↦
    (Issue.error .blockIdMismatch
      ("block at position " ++ toString position ++ " carries id " ++ b.id.text)).atBlock position

/-- Whether an edge connects existing blocks. -/
def hasEnds (g : FlowGraph) (e : Edge) : Bool :=
  g.hasBlock e.source && g.hasBlock e.target

/-- The issue with one edge, if there is one: an end is missing, or a block set lacks it. -/
def edgeIssue? (g : FlowGraph) (e : Edge) : Option Issue :=
  let name := "edge " ++ e.source.text ++ " -> " ++ e.target.text
  if !g.hasEnds e then
    some ((Issue.error .danglingEdge (name ++ " references a missing block")).atBlock e.source)
  else if (g.block? e.source).any (·.successors.contains e.target) &&
      (g.block? e.target).any (·.predecessors.contains e.source) then
    none
  else
    some ((Issue.error .oneSidedEdge (name ++ " is not mirrored in the block sets")).atBlock
      e.source)

/-- Whether an edge between existing blocks connects `source` and `target`. -/
def hasEdge (g : FlowGraph) (source target : BlockId) : Bool :=
  g.edges.any fun e ↦ e.source == source && e.target == target && g.hasEnds e

/-- Issues with members of the block sets that have no edge. -/
def setIssues (g : FlowGraph) : List Issue :=
  g.blocks.zipIdx.flatMap fun (b, position) ↦
    let issue (role : String) (member : BlockId) : Issue :=
      (Issue.error .oneSidedEdge
        (role ++ " " ++ member.text ++ " of " ++ BlockId.text position ++ " has no edge")).atBlock
        position
    (b.successors.toList.filter (!g.hasEdge position ·)).map (issue "successor") ++
      (b.predecessors.toList.filter (!g.hasEdge · position)).map (issue "predecessor")

/-- Warnings about blocks that are not reached, when the entry exists. -/
def reachabilityIssues (g : FlowGraph) : List Issue :=
  if g.entry.any g.hasBlock then
    let reached := g.reachable
    ((List.range g.size).filter (!reached.contains ·)).map fun b ↦
      (Issue.warning .unreachableBlock
        ("block " ++ BlockId.text b ++ " is unreachable from the entry")).atBlock b
  else []

/-- All issues with the structure of a graph. -/
def structuralIssues (g : FlowGraph) : List Issue :=
  g.entryIssues ++ g.exitIssues ++ g.numberIssues ++ g.edges.filterMap g.edgeIssue? ++
    g.setIssues ++ g.reachabilityIssues

end FlowGraph

namespace Routine

/-- The issue with the operand count of an instruction. -/
def arityIssue? (i : Instruction) : Option Issue :=
  if i.hasValidArity then none
  else some (.warning .malformedInstruction
    (Vocabulary.word i.opcode ++ " has " ++ toString i.operands.length ++ " operands"))

/-- The issue with the target of a branch. -/
def targetIssue? (r : Routine) (i : Instruction) : Option Issue :=
  if i.opcode.isBranch then
    match i.branchTarget? with
    | some target =>
      if (r.labelPosition? target).isSome then none
      else some (.error .danglingBranchTarget ("branch target '" ++ target ++ "' is not defined"))
    | none =>
      some (.error .danglingBranchTarget (Vocabulary.word i.opcode ++ " has no label operand"))
  else none

/-- All issues with the instructions of a routine, in order. -/
def instructionIssues (r : Routine) : List Issue :=
  r.instructions.zipIdx.flatMap fun (i, index) ↦
    ((arityIssue? i).toList ++ (r.targetIssue? i).toList).map (·.atInstruction index)

end Routine

end FlowGauge
