import FlowGauge.Analysis
import FlowGauge.Proofs.Flow.Dominance
import FlowGauge.Proofs.Flow.Validation

/-!
# The trust level means what it says

A result is complete when there are no issues, because none of them is for information only. The
issues come from three sources, and each is empty for a reason of its own. The graph of a routine is
well formed, so that only blocks that are not reached count against its structure
(`WellFormed.structuralIssues_eq_nil_iff`). The instructions have as many operands as their opcodes
take and jump to labels that are defined (`instructionIssues_eq_nil_iff`). And every back edge of
the search leads to a dominator of its source, which is to say that the graph is reducible, whatever
the order of the search (`WellFormed.irreducibleEdges_eq_nil_iff`).

## Three sources

Each source of issues is compared with a property that is stated without it: operands and labels
with the code, blocks with paths, and back edges with cycles. `Faultless` collects the properties.
It speaks of the routine alone and so is the same for all options.

A full analysis is one with dominance, loops and validation. The time budget must not be zero, as
such a budget is refused; otherwise it decides nothing.
-/

namespace FlowGauge

namespace Issue

/-- The issue counts against the trust. -/
def Matters (i : Issue) : Prop :=
  i.severity ≠ .info

/-- An error is no mere information. -/
theorem error_matters (kind : IssueKind) (message : String) : (error kind message).Matters := by
  show Severity.error ≠ .info
  decide

/-- Neither is a warning. -/
theorem warning_matters (kind : IssueKind) (message : String) :
    (warning kind message).Matters := by
  show Severity.warning ≠ .info
  decide

/-- Where an issue is does not change whether it matters. -/
theorem Matters.atBlock {i : Issue} (h : i.Matters) (b : BlockId) : (i.atBlock b).Matters :=
  h

theorem Matters.atInstruction {i : Issue} (h : i.Matters) (index : Nat) :
    (i.atInstruction index).Matters :=
  h

end Issue

namespace Routine

variable {r : Routine}

/-! ### Instructions -/

/-- Some instruction defines the label. -/
def DefinesLabel (r : Routine) (name : String) : Prop :=
  ∃ c ∈ r.instructions, c.Defines name

/-- The instruction names a label that is defined in its operand at a position. -/
def Targets (r : Routine) (c : Instruction) (position : Nat) : Prop :=
  ∃ name, c.operands[position]? = some (.label name) ∧ r.DefinesLabel name

/-- A label has a position when some instruction defines it. -/
theorem isSome_labelPosition?_iff {name : String} :
    (r.labelPosition? name).isSome = true ↔ r.DefinesLabel name := by
  rw [labelPosition?, List.findIdx?_isSome, List.any_eq_true]
  simp only [beq_iff_eq, Instruction.labelName?_eq_some_iff]
  rfl

/-- No issue is made of as many operands as the opcode takes. -/
theorem arityIssue?_eq_none_iff {c : Instruction} :
    arityIssue? c = none ↔ c.opcode.layout.accepts c.operands.length = true := by
  rw [arityIssue?, Instruction.hasValidArity]
  split <;> simp_all

/-- A jump names a label that is defined, in the operand that is its label. -/
theorem targetIssue?_eq_none_iff {c : Instruction} : r.targetIssue? c = none ↔
    (c.opcode = .branch → r.Targets c 0) ∧
      (c.opcode = .branchIfTrue ∨ c.opcode = .branchIfFalse → r.Targets c 1) := by
  have htarget : (c.branchTarget?.any fun name ↦ (r.labelPosition? name).isSome) = true ↔
      ∃ name, c.branchTarget? = some name ∧ r.DefinesLabel name := by
    simp only [Option.any_eq_true, isSome_labelPosition?_iff]
  have hissue : r.targetIssue? c = none ↔ (c.opcode.isBranch = true →
      ∃ name, c.branchTarget? = some name ∧ r.DefinesLabel name) := by
    rw [← htarget, targetIssue?]
    rcases c.branchTarget? with - | name
    · simp
    · by_cases hlabel : (r.labelPosition? name).isSome = true <;> simp [hlabel]
  rw [hissue]
  simp only [Instruction.branchTarget?_eq_some_iff, Targets]
  cases c.opcode <;> simp [Opcode.isBranch]

/-- An instruction that is well formed within a routine. -/
structure Fits (r : Routine) (c : Instruction) : Prop where
  /-- There are as many operands as the opcode takes. -/
  arity : c.opcode.layout.accepts c.operands.length = true
  /-- A jump names a label that is defined in its first operand. -/
  branch : c.opcode = .branch → r.Targets c 0
  /-- A conditional jump names one in its second operand. -/
  conditional : c.opcode = .branchIfTrue ∨ c.opcode = .branchIfFalse → r.Targets c 1

/-- An instruction without issues has its operands, and its jump has a target. -/
theorem issues_eq_none_iff {c : Instruction} :
    arityIssue? c = none ∧ r.targetIssue? c = none ↔ r.Fits c := by
  rw [arityIssue?_eq_none_iff, targetIssue?_eq_none_iff]
  exact ⟨fun h ↦ ⟨h.1, h.2.1, h.2.2⟩, fun h ↦ ⟨h.arity, h.branch, h.conditional⟩⟩

/-- **There is no issue with the instructions exactly when all of them are well formed.** -/
theorem instructionIssues_eq_nil_iff :
    r.instructionIssues = [] ↔ ∀ c ∈ r.instructions, r.Fits c := by
  simp only [instructionIssues, List.flatMap_eq_nil_iff, List.map_eq_nil_iff,
    List.append_eq_nil_iff, Option.toList_eq_nil_iff, issues_eq_none_iff]
  rw [← List.forall_mem_map (f := Prod.fst) (P := r.Fits), List.zipIdx_map_fst]

/-- All issues with instructions matter. -/
theorem instructionIssues_matter {i : Issue} (h : i ∈ r.instructionIssues) : i.Matters := by
  obtain ⟨⟨c, index⟩, -, h⟩ := List.mem_flatMap.1 h
  obtain ⟨issue, hissue, rfl⟩ := List.mem_map.1 h
  refine Issue.Matters.atInstruction ?_ index
  rcases List.mem_append.1 hissue with hissue | hissue
  · rw [Option.mem_toList, arityIssue?] at hissue
    split at hissue
    · exact absurd hissue (by simp)
    · exact Option.some.inj hissue ▸ Issue.warning_matters _ _
  · rw [Option.mem_toList, targetIssue?] at hissue
    split at hissue
    · split at hissue
      · split at hissue
        · exact absurd hissue (by simp)
        · exact Option.some.inj hissue ▸ Issue.error_matters _ _
      · exact Option.some.inj hissue ▸ Issue.error_matters _ _
    · exact absurd hissue (by simp)

end Routine

namespace FlowGraph

variable {g : FlowGraph}

/-! ### Structure -/

/-- All issues with the structure matter. -/
theorem structuralIssues_matter {i : Issue} (h : i ∈ g.structuralIssues) : i.Matters := by
  rw [structuralIssues_eq] at h
  rcases List.mem_append.1 h with h | h
  · have herror := (isError_of_mem_violations h).1
    rw [Issue.isError, beq_iff_eq] at herror
    rw [Issue.Matters, herror]
    decide
  · obtain ⟨blocks, -, hissues, -⟩ := g.exists_reachabilityIssues_eq
    obtain ⟨b, -, rfl⟩ := List.mem_map.1 (hissues ▸ h)
    exact (Issue.warning_matters _ _).atBlock b

/-- Every block is reached from the entry. -/
def AllReached (g : FlowGraph) : Prop :=
  ∀ b < g.size, ∃ entry, g.entry = some entry ∧ g.toGraph.Reaches entry b

/-- **There is no issue with the structure of a well-formed graph exactly when all its blocks are
reached.** -/
theorem WellFormed.structuralIssues_eq_nil_iff (h : g.WellFormed) :
    g.structuralIssues = [] ↔ g.AllReached := by
  obtain ⟨blocks, -, hissues, hmem⟩ := g.exists_reachabilityIssues_eq
  rw [structuralIssues_eq, violations_eq_nil_iff.2 h, List.nil_append, hissues,
    List.map_eq_nil_iff, List.eq_nil_iff_forall_not_mem]
  simp only [hmem, AllReached]
  -- Without an entry nothing is reported, but then there is no block to be reached either.
  rcases h.entry_exists with ⟨hnone, hempty⟩ | ⟨entry, hsome, hlt⟩
  · simp [hnone, hempty, size]
  · simp [hsome, hlt]

/-- What is reached does not depend on loop marks. -/
theorem markLoops_allReached_iff (headers exits : BlockSet) :
    (g.markLoops headers exits).AllReached ↔ g.AllReached := by
  rw [AllReached, AllReached, markLoops_toGraph, markLoops_size]
  rfl

/-! ### Back edges -/

/-- The part of the graph that the entry reaches, if there is one, is reducible. -/
def Reducible (g : FlowGraph) : Prop :=
  ∀ entry, g.entry = some entry → g.toGraph.Reducible entry

/-- Neither do the back edges. -/
theorem backEdgesOf_markLoops (headers exits : BlockSet) :
    Loop.backEdgesOf (g.markLoops headers exits) = Loop.backEdgesOf g := by
  rw [Loop.backEdgesOf, Loop.backEdgesOf, markLoops_toGraph]
  rfl

/-- **No back edge is irreducible exactly when the graph is reducible**, so that the order of the
search does not matter. -/
theorem WellFormed.irreducibleEdges_eq_nil_iff (h : g.WellFormed) (hco : g.toGraph.Coherent) :
    Loop.irreducibleEdges g (Dominance.compute g) = [] ↔ g.Reducible := by
  rw [Loop.irreducibleEdges, List.filter_eq_nil_iff, Loop.backEdgesOf, Reducible]
  rcases h.entry_exists with ⟨hnone, -⟩ | ⟨entry, hsome, hlt⟩
  · simp [hnone]
  · have hdominates := (Dominance.compute_exact hco hsome hlt).dominates_iff
    have hreducible : (∀ e ∈ (g.toGraph.trail entry).backEdges,
        ¬(!(Dominance.compute g).dominates e.2 e.1) = true) ↔ g.toGraph.Reducible entry := by
      rw [Graph.reducible_iff]
      simp only [Prod.forall, Bool.not_eq_true', Bool.not_eq_false, hdominates]
    rw [hsome]
    exact hreducible.trans (by simp)

end FlowGraph

namespace Routine

/-- Nothing is wrong with a routine. -/
structure Faultless (r : Routine) : Prop where
  fits : ∀ c ∈ r.instructions, r.Fits c
  reached : (FlowGraph.ofRoutine r).AllReached
  reducible : (FlowGraph.ofRoutine r).Reducible

end Routine

namespace Analysis

variable {g : FlowGraph} {d : Dominance} {o : AnalysisOptions} {r : Routine}

/-! ### Trust -/

/-- Irreducible edges matter, too, so all three sources count. -/
theorem irreducibleIssues_matter {i : Issue} (h : i ∈ irreducibleIssues g d) : i.Matters := by
  obtain ⟨⟨latch, header⟩, -, rfl⟩ := List.mem_map.1 h
  exact (Issue.warning_matters _ _).atBlock latch

/-- Issues that matter leave a result complete only when there are none. -/
theorem trustOf_eq_complete_iff {issues : List Issue} (h : ∀ i ∈ issues, i.Matters) :
    trustOf issues = .complete ↔ issues = [] := by
  have hany : issues.any (·.severity != .info) = true ↔ issues ≠ [] := by
    rw [List.any_eq_true]
    constructor
    · rintro ⟨i, hi, -⟩
      exact List.ne_nil_of_mem hi
    · intro hne
      obtain ⟨i, hi⟩ := List.exists_mem_of_ne_nil issues hne
      exact ⟨i, hi, bne_iff_ne.2 (h i hi)⟩
  rw [trustOf]
  split
  · next hissues => simpa using hany.1 hissues
  · next hissues => simpa using not_not.1 (mt hany.2 hissues)

/-- The issues of a full analysis are about the marked graph, the instructions and back edges. -/
theorem run_issues (hloops : o.loops = true) (hdominance : o.dominance = true)
    (hvalidation : o.validation = true) : ∃ headers exits : BlockSet,
      (run o r).issues = ((FlowGraph.ofRoutine r).markLoops headers exits).structuralIssues ++
        r.instructionIssues ++ irreducibleIssues ((FlowGraph.ofRoutine r).markLoops headers exits)
          (Dominance.compute (FlowGraph.ofRoutine r)) := by
  simp only [run, hloops, hdominance, hvalidation, if_true, marked]
  exact ⟨_, _, rfl⟩

/-- **A full analysis is complete exactly when nothing is wrong with the routine.** -/
theorem run_trust_iff (hloops : o.loops = true) (hdominance : o.dominance = true)
    (hvalidation : o.validation = true) : (run o r).trust = .complete ↔ r.Faultless := by
  obtain ⟨headers, exits, hissues⟩ := run_issues (r := r) hloops hdominance hvalidation
  have hmatter : ∀ i ∈ (run o r).issues, i.Matters := by
    rw [hissues]
    intro i hi
    rcases List.mem_append.1 hi with hi | hi
    · rcases List.mem_append.1 hi with hi | hi
      · exact FlowGraph.structuralIssues_matter hi
      · exact Routine.instructionIssues_matter hi
    · exact irreducibleIssues_matter hi
  have hformed := FlowGraph.ofRoutine_wellFormed r
  have hstructure := (hformed.markLoops headers exits).structuralIssues_eq_nil_iff.trans
    (FlowGraph.markLoops_allReached_iff headers exits)
  have hirreducible := hformed.irreducibleEdges_eq_nil_iff (FlowGraph.ofRoutine_coherent r)
  show trustOf (run o r).issues = .complete ↔ _
  -- The dominance record is that of the bare graph, and loop marks change neither its back edges
  -- nor what is reached.
  rw [trustOf_eq_complete_iff hmatter, hissues, List.append_eq_nil_iff, List.append_eq_nil_iff,
    hstructure, Routine.instructionIssues_eq_nil_iff, irreducibleIssues, List.map_eq_nil_iff,
    Loop.irreducibleEdges, FlowGraph.backEdgesOf_markLoops, ← Loop.irreducibleEdges, hirreducible]
  exact ⟨fun h ↦ ⟨h.1.2, h.1.1, h.2⟩, fun h ↦ ⟨⟨h.reached, h.fits⟩, h.reducible⟩⟩

/-- With dominance asked for and time to spend, no analysis is refused. -/
theorem ofRoutine_eq_ok (hdominance : o.dominance = true) (htime : 0 < o.timeBudget) :
    ofRoutine o r = .ok (run o r) := by
  have hcheck : o.check = .ok () := by
    simp [AnalysisOptions.check, hdominance, Nat.ne_of_gt htime]
  rw [ofRoutine, hcheck]
  rfl

end Analysis

namespace Analyzer

/-- **The trust level means what it says.** A full analysis is never refused, and its result is
complete exactly when all operands fit, all jumps go to defined labels, all blocks are reached and
the graph is reducible. -/
theorem analyzeRoutine_trust_iff (analyzer : Analyzer)
    (hdominance : analyzer.options.dominance = true) (hloops : analyzer.options.loops = true)
    (hvalidation : analyzer.options.validation = true) (htime : 0 < analyzer.options.timeBudget)
    (r : Routine) : ∃ a, (analyzer.analyzeRoutine r).1 = .ok a ∧
      (a.trust = .complete ↔ r.Faultless) := by
  refine ⟨Analysis.run analyzer.options r, ?_,
    Analysis.run_trust_iff hloops hdominance hvalidation⟩
  rw [analyzeRoutine, Analysis.ofRoutine_eq_ok hdominance htime]

/-- A loop that is entered at its top and in its middle. -/
def sideEntry : Routine where
  name := "side"
  instructions := [⟨0, .branchIfTrue, [.temp 0, .label "middle"], none, none, none⟩,
    ⟨1, .label, [.label "top"], none, none, none⟩, ⟨2, .nop, [], none, none, none⟩,
    ⟨3, .label, [.label "middle"], none, none, none⟩,
    ⟨4, .branchIfTrue, [.temp 1, .label "top"], none, none, none⟩,
    ⟨5, .ret, [], none, none, none⟩]

theorem analyzeRoutine_trust_iff_sideEntry :
    (AnalysisOptions.dominance {} = true ∧ AnalysisOptions.loops {} = true ∧
      AnalysisOptions.validation {} = true ∧ 0 < AnalysisOptions.timeBudget {}) ∧
        (∃ a, (analyzeRoutine ⟨{}, 0⟩ sideEntry).1 = .ok a ∧
          (a.trust = .complete ↔ sideEntry.Faultless)) ∧ ¬sideEntry.Faultless := by
  have hdegraded : (Analysis.run {} sideEntry).trust ≠ .complete := by decide +kernel
  refine ⟨⟨rfl, rfl, rfl, by decide⟩,
    analyzeRoutine_trust_iff ⟨{}, 0⟩ rfl rfl rfl (by decide) sideEntry, fun hfaultless ↦ ?_⟩
  exact hdegraded ((Analysis.run_trust_iff rfl rfl rfl).2 hfaultless)

end Analyzer

end FlowGauge
