import FlowGauge.Flow.Validation
import FlowGauge.Proofs.Flow.Construction
import FlowGauge.Proofs.Graph.Sweep

/-!
# Structural validation is sound and complete

The issues with the structure of a graph are violations of its invariants, which are all errors, and
then warnings about blocks that are not reached. Each check is empty exactly when its invariant
holds (`exitIssues_eq_nil_iff` and the lemmas beside it). Edges and block sets are checked against
each other from both sides: an edge between existing blocks is in both sets, and a member of a set
has an edge between existing blocks. Together these say that the sets are the projections of the
edges (`violations_eq_nil_iff`).

The graph of a routine is well formed, and neither its invariants nor what is reached depends on
loop marks.

## Graphs of any parts

A graph may be put together from parts that have nothing to do with each other, and every check has
to work on such a graph without a look-up that fails. Duplicate edges are no fault, as sets know no
duplicates. A set that is checked against an edge with a missing end finds nothing, so that the one
fault is reported as often as it shows, at the edge and at the sets.

When the entry itself is missing nothing is reached, and no block is warned about: the error about
the entry says enough.
-/

namespace FlowGauge

namespace FlowGraph

variable {g : FlowGraph} {i : Issue}

/-! ### Well-formed graphs -/

/-- The parts of a graph agree with each other. -/
structure WellFormed (g : FlowGraph) : Prop where
  /-- A graph without blocks has no entry, or the entry exists. -/
  entry_exists : g.entry = none ∧ g.blocks = [] ∨ ∃ entry, g.entry = some entry ∧ entry < g.size
  exits_exist : ∀ b ∈ g.exits, b < g.size
  id_eq : ∀ (k : Nat) (b : Block), g.blocks[k]? = some b → b.id = k
  ends_exist : ∀ e ∈ g.edges, e.source < g.size ∧ e.target < g.size
  mem_successors_iff : ∀ (k : Nat) (b : Block), g.blocks[k]? = some b → ∀ v,
    v ∈ b.successors ↔ ∃ e ∈ g.edges, e.source = k ∧ e.target = v
  mem_predecessors_iff : ∀ (k : Nat) (b : Block), g.blocks[k]? = some b → ∀ v,
    v ∈ b.predecessors ↔ ∃ e ∈ g.edges, e.target = k ∧ e.source = v

/-! ### Violations -/

/-- The issues that violate an invariant of the graph. -/
def violations (g : FlowGraph) : List Issue :=
  g.entryIssues ++ g.exitIssues ++ g.numberIssues ++ g.edges.filterMap g.edgeIssue? ++ g.setIssues

/-- Errors come first, then the warnings. -/
theorem structuralIssues_eq (g : FlowGraph) :
    g.structuralIssues = g.violations ++ g.reachabilityIssues :=
  rfl

/-- Violations are errors about the structure of the graph. -/
theorem isError_of_mem_violations (h : i ∈ g.violations) :
    i.isError = true ∧ i.kind.isStructural = true := by
  simp only [violations, List.mem_append, or_assoc] at h
  rcases h with h | h | h | h | h
  · unfold entryIssues at h
    split at h <;> split at h <;> simp_all [Issue.error, Issue.atBlock, Issue.isError,
      IssueKind.isStructural]
  · obtain ⟨b, -, rfl⟩ := List.mem_map.1 h
    exact ⟨rfl, rfl⟩
  · obtain ⟨⟨b, position⟩, -, rfl⟩ := List.mem_map.1 h
    exact ⟨rfl, rfl⟩
  · obtain ⟨e, -, he⟩ := List.mem_filterMap.1 h
    simp only [edgeIssue?] at he
    split at he
    · obtain rfl := Option.some.inj he
      exact ⟨rfl, rfl⟩
    · split at he
      · exact absurd he (by simp)
      · obtain rfl := Option.some.inj he
        exact ⟨rfl, rfl⟩
  · obtain ⟨⟨b, position⟩, -, h⟩ := List.mem_flatMap.1 h
    rcases List.mem_append.1 h with h | h
    · obtain ⟨v, -, rfl⟩ := List.mem_map.1 h
      exact ⟨rfl, rfl⟩
    · obtain ⟨v, -, rfl⟩ := List.mem_map.1 h
      exact ⟨rfl, rfl⟩

theorem hasBlock_iff {b : Nat} : g.hasBlock b = true ↔ b < g.size :=
  decide_eq_true_iff

/-- An edge is checked further only when both its ends exist. -/
theorem hasEnds_iff {e : Edge} :
    g.hasEnds e = true ↔ e.source < g.size ∧ e.target < g.size := by
  rw [hasEnds, Bool.and_eq_true, hasBlock_iff, hasBlock_iff]

/-- What a member of a set is checked against: an edge between existing blocks. -/
theorem hasEdge_iff {u v : Nat} : g.hasEdge u v = true ↔
    ∃ e ∈ g.edges, e.source = u ∧ e.target = v ∧ u < g.size ∧ v < g.size := by
  simp only [hasEdge, List.any_eq_true, Bool.and_eq_true, beq_iff_eq, hasEnds_iff]
  refine exists_congr fun e ↦ and_congr_right fun _ ↦ ?_
  constructor
  · rintro ⟨⟨rfl, rfl⟩, hends⟩
    exact ⟨rfl, rfl, hends⟩
  · rintro ⟨rfl, rfl, hends⟩
    exact ⟨⟨rfl, rfl⟩, hends⟩

/-- A graph without entry is accepted only when it has no blocks. -/
theorem entryIssues_eq_nil_iff : g.entryIssues = [] ↔
    g.entry = none ∧ g.blocks = [] ∨ ∃ entry, g.entry = some entry ∧ entry < g.size := by
  unfold entryIssues
  rcases g.entry with - | entry
  · simp [size, List.length_pos_iff]
  · simp [hasBlock_iff]

/-- Exits are blocks of the graph. -/
theorem exitIssues_eq_nil_iff : g.exitIssues = [] ↔ ∀ b ∈ g.exits, b < g.size := by
  simp [exitIssues, List.filter_eq_nil_iff, hasBlock_iff]

/-- Blocks carry the number of their place. -/
theorem numberIssues_eq_nil_iff : g.numberIssues = [] ↔
    ∀ (k : Nat) (b : Block), g.blocks[k]? = some b → b.id = k := by
  simp only [numberIssues, List.map_eq_nil_iff, List.filter_eq_nil_iff, Prod.forall,
    List.mem_zipIdx_iff_getElem?, decide_eq_true_eq, not_not]
  exact forall_comm

/-- From the edges: both ends exist, and each end has the other in its set. -/
theorem edgeIssues_eq_nil_iff : g.edges.filterMap g.edgeIssue? = [] ↔ ∀ e ∈ g.edges,
    (e.source < g.size ∧ e.target < g.size) ∧
      (∃ b, g.blocks[e.source]? = some b ∧ e.target ∈ b.successors) ∧
        ∃ b, g.blocks[e.target]? = some b ∧ e.source ∈ b.predecessors := by
  rw [List.filterMap_eq_nil_iff]
  refine forall_congr' fun e ↦ forall_congr' fun _ ↦ ?_
  have hsets : ((g.block? e.source).any (·.successors.contains e.target) &&
      (g.block? e.target).any (·.predecessors.contains e.source)) = true ↔
        (∃ b, g.blocks[e.source]? = some b ∧ e.target ∈ b.successors) ∧
          ∃ b, g.blocks[e.target]? = some b ∧ e.source ∈ b.predecessors := by
    simp only [Bool.and_eq_true, Option.any_eq_true, block?, Std.ExtTreeSet.contains_iff_mem]
  rw [edgeIssue?, ← hsets, ← hasEnds_iff]
  by_cases hends : g.hasEnds e = true
  · simp only [hends, Bool.not_true, Bool.false_eq_true, if_false, true_and, ite_eq_left_iff,
      reduceCtorEq, imp_false, not_not]
  · simp [hends]

/-- From the sets: each member stands for an edge. -/
theorem setIssues_eq_nil_iff : g.setIssues = [] ↔
    ∀ (k : Nat) (b : Block), g.blocks[k]? = some b →
      (∀ v ∈ b.successors, g.hasEdge k v = true) ∧
        ∀ v ∈ b.predecessors, g.hasEdge v k = true := by
  simp only [setIssues, List.flatMap_eq_nil_iff, Prod.forall, List.mem_zipIdx_iff_getElem?,
    List.append_eq_nil_iff, List.map_eq_nil_iff, List.filter_eq_nil_iff,
    Std.ExtTreeSet.mem_toList, Bool.not_eq_true', Bool.not_eq_false]
  exact forall_comm

/-- **There are no violations exactly when the graph is well formed.** -/
theorem violations_eq_nil_iff : g.violations = [] ↔ g.WellFormed := by
  simp only [violations, List.append_eq_nil_iff, entryIssues_eq_nil_iff, exitIssues_eq_nil_iff,
    numberIssues_eq_nil_iff, edgeIssues_eq_nil_iff, setIssues_eq_nil_iff, hasEdge_iff]
  constructor
  · rintro ⟨⟨⟨⟨hentry, hexits⟩, hids⟩, hedges⟩, hsets⟩
    -- The check of a set gives an edge for each member, the check of the edges the converse.
    refine ⟨hentry, hexits, hids, fun e he ↦ (hedges e he).1, fun k b hb v ↦ ⟨?_, ?_⟩,
      fun k b hb v ↦ ⟨?_, ?_⟩⟩
    · intro hv
      obtain ⟨e, he, hsource, htarget, -⟩ := (hsets k b hb).1 v hv
      exact ⟨e, he, hsource, htarget⟩
    · rintro ⟨e, he, rfl, rfl⟩
      obtain ⟨-, ⟨b', hb', hmem⟩, -⟩ := hedges e he
      exact Option.some.inj (hb'.symm.trans hb) ▸ hmem
    · intro hv
      obtain ⟨e, he, hsource, htarget, -⟩ := (hsets k b hb).2 v hv
      exact ⟨e, he, htarget, hsource⟩
    · rintro ⟨e, he, rfl, rfl⟩
      obtain ⟨-, -, b', hb', hmem⟩ := hedges e he
      exact Option.some.inj (hb'.symm.trans hb) ▸ hmem
  · intro h
    refine ⟨⟨⟨⟨h.entry_exists, h.exits_exist⟩, h.id_eq⟩, fun e he ↦ ?_⟩, fun k b hb ↦
      ⟨fun v hv ↦ ?_, fun v hv ↦ ?_⟩⟩
    · obtain ⟨hsource, htarget⟩ := h.ends_exist e he
      refine ⟨⟨hsource, htarget⟩, ⟨_, List.getElem?_eq_getElem hsource, ?_⟩,
        _, List.getElem?_eq_getElem htarget, ?_⟩
      · exact (h.mem_successors_iff _ _ (List.getElem?_eq_getElem hsource) _).2 ⟨e, he, rfl, rfl⟩
      · exact (h.mem_predecessors_iff _ _ (List.getElem?_eq_getElem htarget) _).2
          ⟨e, he, rfl, rfl⟩
    · obtain ⟨e, he, rfl, rfl⟩ := (h.mem_successors_iff k b hb v).1 hv
      exact ⟨e, he, rfl, rfl, h.ends_exist e he⟩
    · obtain ⟨e, he, rfl, rfl⟩ := (h.mem_predecessors_iff k b hb v).1 hv
      exact ⟨e, he, rfl, rfl, h.ends_exist e he⟩

/-! ### Blocks that are not reached -/

/-- The warning about a block that is not reached. -/
def unreachedWarning (b : Nat) : Issue :=
  (Issue.warning .unreachableBlock
    ("block " ++ BlockId.text b ++ " is unreachable from the entry")).atBlock b

/-- **The warnings are about the blocks that are not reached from an existing entry**, in order. -/
theorem exists_reachabilityIssues_eq (g : FlowGraph) : ∃ blocks : List Nat, blocks.Nodup ∧
    g.reachabilityIssues = blocks.map unreachedWarning ∧ ∀ b, b ∈ blocks ↔
      ∃ entry, g.entry = some entry ∧ entry < g.size ∧ b < g.size ∧
        ¬g.toGraph.Reaches entry b := by
  by_cases hentry : g.entry.any g.hasBlock = true
  · refine ⟨(List.range g.size).filter (!g.reachable.contains ·), List.nodup_range.filter _,
      if_pos hentry, fun b ↦ ?_⟩
    obtain ⟨entry, heq, hlt⟩ := (Option.any_eq_true _ _).1 hentry
    have hreachable : b ∈ g.reachable ↔ g.toGraph.Reaches entry b := by
      rw [reachable, heq, Option.elim_some, Std.ExtTreeSet.mem_ofList, List.contains_iff_mem,
        Graph.mem_depthSweep_iff]
    rw [List.mem_filter, List.mem_range, Bool.not_eq_true', ← Bool.not_eq_true,
      Std.ExtTreeSet.contains_iff_mem, hreachable, heq]
    simp [hasBlock_iff.1 hlt]
  · refine ⟨[], List.nodup_nil, if_neg hentry, fun b ↦ ⟨fun hb ↦ absurd hb List.not_mem_nil, ?_⟩⟩
    rintro ⟨entry, heq, hlt, -⟩
    exact absurd ((Option.any_eq_true _ _).2 ⟨entry, heq, hasBlock_iff.2 hlt⟩) hentry

/-- The issues about blocks that are not reached. -/
def unreachedIssues (g : FlowGraph) : List Issue :=
  g.structuralIssues.filter (·.kind = .unreachableBlock)

/-- The warnings of the check are the warnings of the analysis. -/
theorem unreachedIssues_eq (g : FlowGraph) : g.unreachedIssues = g.reachabilityIssues := by
  obtain ⟨blocks, -, hissues, -⟩ := g.exists_reachabilityIssues_eq
  have hviolations : g.violations.filter (·.kind = .unreachableBlock) = [] := by
    refine List.filter_eq_nil_iff.2 fun i hi hkind ↦ ?_
    have hstructural := (isError_of_mem_violations hi).2
    rw [of_decide_eq_true hkind] at hstructural
    exact absurd hstructural (by decide)
  rw [unreachedIssues, structuralIssues_eq, List.filter_append, hviolations, List.nil_append,
    List.filter_eq_self, hissues]
  intro i hi
  obtain ⟨b, -, rfl⟩ := List.mem_map.1 hi
  rfl

/-- A graph that warns about exactly the blocks that are not reached. -/
structure WarnsUnreached (g : FlowGraph) : Prop where
  /-- All of them are warnings about a block. -/
  warning : ∀ i ∈ g.unreachedIssues, i.severity = .warning ∧ i.block.isSome = true
  /-- When the entry exists, the blocks that it does not reach are named, and no others. -/
  named_iff : ∀ b, (∃ i ∈ g.unreachedIssues, i.block = some b) ↔
    ∃ entry, g.entry = some entry ∧ entry < g.size ∧ b < g.size ∧ ¬g.toGraph.Reaches entry b
  /-- No block is named twice. -/
  nodup : (g.unreachedIssues.map Issue.block).Nodup

/-- **There is one warning for each block that is not reached, and it names the block.** -/
theorem warnsUnreached (g : FlowGraph) : g.WarnsUnreached := by
  obtain ⟨blocks, hnodup, hissues, hmem⟩ := g.exists_reachabilityIssues_eq
  have heq : g.unreachedIssues = blocks.map unreachedWarning := g.unreachedIssues_eq.trans hissues
  constructor
  · rw [heq]
    intro i hi
    obtain ⟨b, -, rfl⟩ := List.mem_map.1 hi
    exact ⟨rfl, rfl⟩
  · intro b
    rw [← hmem, heq]
    constructor
    · rintro ⟨i, hi, hb⟩
      obtain ⟨c, hc, rfl⟩ := List.mem_map.1 hi
      exact Option.some.inj hb ▸ hc
    · exact fun hb ↦ ⟨unreachedWarning b, List.mem_map_of_mem hb, rfl⟩
  · rw [heq, List.map_map]
    exact hnodup.map fun b c h ↦ Option.some.inj h

/-- **There is no error exactly when the graph is well formed.** -/
theorem any_isError_eq_false_iff :
    g.structuralIssues.any Issue.isError = false ↔ g.WellFormed := by
  obtain ⟨blocks, -, hissues, -⟩ := g.exists_reachabilityIssues_eq
  have hwarnings : g.reachabilityIssues.any Issue.isError = false := by
    rw [hissues, List.any_map]
    exact List.any_eq_false.2 fun b _ ↦ Bool.false_ne_true
  rw [structuralIssues_eq, List.any_append, hwarnings, Bool.or_false, ← violations_eq_nil_iff]
  constructor
  · intro h
    refine List.eq_nil_iff_forall_not_mem.2 fun i hi ↦ ?_
    exact List.any_eq_false.1 h i hi (isError_of_mem_violations hi).1
  · intro h
    rw [h]
    rfl

/-! ### Graphs of routines -/

/-- **The graph of a routine satisfies all invariants.** -/
theorem ofRoutine_wellFormed (r : Routine) : (ofRoutine r).WellFormed where
  entry_exists := by
    rw [ofRoutine_entry]
    split
    · next hsize => exact Or.inl ⟨rfl, List.length_eq_zero_iff.1 hsize⟩
    · next hsize => exact Or.inr ⟨0, rfl, Nat.pos_of_ne_zero hsize⟩
  exits_exist b hb := by
    have hmem : b ∈ ((ofRoutine r).blocks.filter (·.successors.isEmpty)).map Block.id := by
      rw [← List.contains_iff_mem]
      exact Std.ExtTreeSet.mem_ofList.1 hb
    obtain ⟨c, hc, rfl⟩ := List.mem_map.1 hmem
    obtain ⟨k, hk⟩ := List.mem_iff_getElem?.1 (List.mem_filter.1 hc).1
    rw [(cut_of_getElem? hk).id_eq]
    exact (List.getElem?_eq_some_iff.1 hk).1
  id_eq k b hb := (cut_of_getElem? hb).id_eq
  ends_exist e he := ⟨source_lt_size he, target_lt_size he⟩
  mem_successors_iff k b hb v := by
    rw [(cut_of_getElem? hb).mem_successors]
    constructor
    · exact fun ⟨kind, he⟩ ↦ ⟨_, he, rfl, rfl⟩
    · rintro ⟨⟨_, _, kind⟩, he, rfl, rfl⟩
      exact ⟨kind, he⟩
  mem_predecessors_iff k b hb v := by
    rw [(cut_of_getElem? hb).mem_predecessors]
    constructor
    · exact fun ⟨kind, he⟩ ↦ ⟨_, he, rfl, rfl⟩
    · rintro ⟨⟨_, _, kind⟩, he, rfl, rfl⟩
      exact ⟨kind, he⟩

/-! ### Loop marks -/

section Marks

variable (g : FlowGraph) (headers exits : BlockSet)

/-- Marks are the only thing that marking changes in a block. -/
theorem markLoops_blocks_getElem? (k : Nat) : (g.markLoops headers exits).blocks[k]? =
    (g.blocks[k]?).map fun b ↦
      { b with isLoopHeader := headers.contains b.id, isLoopExit := exits.contains b.id } :=
  List.getElem?_map

@[simp]
theorem markLoops_size : (g.markLoops headers exits).size = g.size :=
  List.length_map _

/-- Loop marks do not change what the blocks are joined to. -/
theorem markLoops_toGraph : (g.markLoops headers exits).toGraph = g.toGraph := by
  have hsuccessors : (g.markLoops headers exits).successors = g.successors := by
    funext b
    rw [successors, successors, markLoops_size, block?, block?, markLoops_blocks_getElem?]
    cases g.blocks[b]? <;> rfl
  have hpredecessors : (g.markLoops headers exits).predecessors = g.predecessors := by
    funext b
    rw [predecessors, predecessors, markLoops_size, block?, block?, markLoops_blocks_getElem?]
    cases g.blocks[b]? <;> rfl
  rw [toGraph, toGraph, markLoops_size, hsuccessors, hpredecessors]

variable {g} in
/-- Loop marks do not break an invariant. -/
theorem WellFormed.markLoops (h : g.WellFormed) : (g.markLoops headers exits).WellFormed := by
  have hblock : ∀ {k : Nat} {b : Block}, (g.markLoops headers exits).blocks[k]? = some b →
      ∃ c, g.blocks[k]? = some c ∧ b.id = c.id ∧ b.successors = c.successors ∧
        b.predecessors = c.predecessors := by
    intro k b hb
    rw [markLoops_blocks_getElem?] at hb
    obtain ⟨c, hc, rfl⟩ := Option.map_eq_some_iff.1 hb
    exact ⟨c, hc, rfl, rfl, rfl⟩
  constructor
  · rw [markLoops_size]
    exact h.entry_exists.imp_left fun hempty ↦ ⟨hempty.1, List.map_eq_nil_iff.2 hempty.2⟩
  · rw [markLoops_size]
    exact h.exits_exist
  · intro k b hb
    obtain ⟨c, hc, hid, -⟩ := hblock hb
    rw [hid, h.id_eq k c hc]
  · rw [markLoops_size]
    exact h.ends_exist
  · intro k b hb v
    obtain ⟨c, hc, -, hsuccessors, -⟩ := hblock hb
    rw [hsuccessors]
    exact h.mem_successors_iff k c hc v
  · intro k b hb v
    obtain ⟨c, hc, -, -, hpredecessors⟩ := hblock hb
    rw [hpredecessors]
    exact h.mem_predecessors_iff k c hc v

end Marks

/-- **Structural validation is sound and complete.** On a graph of any parts there is no error
exactly when the parts agree with each other, and exactly the blocks that an existing entry does not
reach are warned about. In particular there is no error in the graph of a routine, with or without
loop marks. -/
theorem structuralIssues_exact :
    (∀ g : FlowGraph, (g.structuralIssues.any Issue.isError = false ↔ g.WellFormed) ∧
      g.WarnsUnreached) ∧
    ∀ (r : Routine) (headers exits : BlockSet),
      (ofRoutine r).structuralIssues.any Issue.isError = false ∧
        ((ofRoutine r).markLoops headers exits).structuralIssues.any Issue.isError = false := by
  refine ⟨fun g ↦ ⟨any_isError_eq_false_iff, g.warnsUnreached⟩, fun r headers exits ↦ ?_⟩
  have hformed := ofRoutine_wellFormed r
  exact ⟨any_isError_eq_false_iff.2 hformed,
    any_isError_eq_false_iff.2 (hformed.markLoops headers exits)⟩

end FlowGraph

end FlowGauge
