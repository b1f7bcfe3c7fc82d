import FlowGauge.Proofs.DataFlow.Liveness
import FlowGauge.Proofs.Graph.StackSearch
import FlowGauge.Proofs.Timing.CriticalPath
import Mathlib.Algebra.Order.BigOperators.Group.List

/-!
# Sums of cycles

On every flow graph, whether it comes from a routine or is assembled by hand, and for every list of
cycles that covers its blocks, the critical path is the greatest sum of block cycles over the
forward paths to an exit, or to any block when no exit is reached. The edges that a forward path
must not take are the back edges of the loop analysis: both come from one and the same search,
whichever of the two machines with a stack carries it out.

For an analysis of the routine itself the cycles are counted in four ways with the same result: per
instruction, per opcode, per block, and as the reported total. A forward path visits no block twice,
so the critical path does not exceed it.

## Four counts

That the four counts agree is no accident of one routine: instructions are split by opcode, and each
has one; they are split by block, and each index lies in one block. The first holds for every list
of charges. The second needs the blocks of the analysis to cut the routine without gap or overlap,
and that is what an analysis of the routine itself provides.
-/

namespace FlowGauge

/-! ### Totals -/

/-- The running total is the sum. -/
theorem total_eq_sum (ns : List Nat) : total ns = ns.sum :=
  rfl

/-- A list without repetition sums up to no more than a list that holds its members. -/
theorem total_map_le {α : Type} {xs ys : List α} (hnodup : xs.Nodup) (hsubset : xs ⊆ ys)
    (f : α → Nat) : total (xs.map f) ≤ total (ys.map f) := by
  obtain ⟨zs, hperm, hsub⟩ := hnodup.subperm hsubset
  calc total (xs.map f)
      = (zs.map f).sum := (hperm.map f).sum_eq.symm
    _ ≤ total (ys.map f) := (hsub.map f).sum_le_sum fun _ _ ↦ Nat.zero_le _

/-- In a list of distinct keys each key is counted once. -/
theorem total_indicator {κ : Type} [DecidableEq κ] {keys : List κ} (hnodup : keys.Nodup) {k : κ}
    (hk : k ∈ keys) (n : Nat) : total (keys.map fun j ↦ if k = j then n else 0) = n := by
  induction keys with
  | nil => exact absurd hk List.not_mem_nil
  | cons j keys ih =>
    obtain ⟨hj, hrest⟩ := List.nodup_cons.1 hnodup
    rw [List.map_cons, total_cons]
    by_cases hkj : k = j
    · have hzero : total (keys.map fun j ↦ if k = j then n else 0) = 0 := by
        refine total_eq_zero fun m hm ↦ ?_
        obtain ⟨i, hi, rfl⟩ := List.mem_map.1 hm
        exact if_neg fun hki ↦ hj ((hkj.symm.trans hki) ▸ hi)
      rw [if_pos hkj, hzero, Nat.add_zero]
    · rw [if_neg hkj, Nat.zero_add, ih hrest ((List.mem_cons.1 hk).resolve_left hkj)]

/-- **Summing up key by key sums up everything**, when every key is listed once. -/
theorem total_by_key {α κ : Type} [DecidableEq κ] {keys : List κ} (hnodup : keys.Nodup)
    (key : α → κ) (f : α → Nat) {xs : List α} (hkeys : ∀ x ∈ xs, key x ∈ keys) :
    total (keys.map fun k ↦ total ((xs.filter (key · == k)).map f)) = total (xs.map f) := by
  induction xs with
  | nil =>
    refine total_eq_zero fun n hn ↦ ?_
    obtain ⟨k, -, rfl⟩ := List.mem_map.1 hn
    rfl
  | cons x xs ih =>
    have hsplit : ∀ k, total (((x :: xs).filter (key · == k)).map f) =
        (if key x = k then f x else 0) + total ((xs.filter (key · == k)).map f) := by
      intro k
      by_cases hk : key x = k <;> simp [hk]
    have hone := total_indicator hnodup (hkeys x (List.mem_cons_self ..)) (f x)
    have hrest := ih fun y hy ↦ hkeys y (.tail x hy)
    simp only [hsplit]
    rw [total_eq_sum, List.sum_map_add, ← total_eq_sum, ← total_eq_sum, hone, hrest, List.map_cons,
      total_cons]

/-! ### The longest path -/

theorem FlowGraph.Pictures.entry_lt_size {g : FlowGraph} {r : Routine} (h : g.Pictures r)
    {start : Nat} (hstart : g.entry = some start) : start < g.size := by
  have hsize : g.size = (ofRoutine r).size := congrArg Graph.size h.toGraph_eq
  rw [h.entry_eq, ofRoutine_entry] at hstart
  split at hstart
  · exact absurd hstart (by simp)
  · rw [← Option.some.inj hstart]
    omega

namespace CycleTiming

variable {g : FlowGraph} {start : Nat} {cost : Nat → Nat}

/-- The cost at a block is the greatest sum of a forward path to it. -/
theorem isGreatest_of_pathCosts (hstart : start < g.size) {v n : Nat}
    (hn : (pathCosts g start cost)[v]? = some n) :
    IsGreatest (g.toGraph.forwardSums start cost v) n := by
  have hgreatest : Greatest? (g.toGraph.forwardSums start cost v) (pathCosts g start cost)[v]? :=
    pathCosts_greatest hstart v
  rwa [hn] at hgreatest

/-- When no exit is reached, all costs of paths are compared. -/
theorem criticalPathOf_eq_of_no_exit (hentry : g.entry = some start) (hstart : start < g.size)
    (hnone : ¬∃ v ∈ g.exits, g.toGraph.Reaches start v) :
    criticalPathOf g cost = (pathCosts g start cost).values.foldl max 0 := by
  have hexits : (g.exits.toList.filterMap fun b ↦ (pathCosts g start cost)[b]?) = [] := by
    refine List.filterMap_eq_nil_iff.2 fun v hv ↦ Option.eq_none_iff_forall_ne_some.2 fun n hn ↦ ?_
    exact hnone ⟨v, Std.ExtTreeSet.mem_toList.1 hv,
      Graph.reaches_of_mem_forwardSums (isGreatest_of_pathCosts hstart hn).1⟩
  rw [criticalPathOf, hentry]
  dsimp only
  rw [hexits]

/-- **When no exit is reached, the critical path is the greatest sum over all forward paths.** -/
theorem criticalPathOf_isGreatest_anywhere (hentry : g.entry = some start)
    (hstart : start < g.size) (hnone : ¬∃ v ∈ g.exits, g.toGraph.Reaches start v) :
    IsGreatest {n | ∃ v, n ∈ g.toGraph.forwardSums start cost v} (criticalPathOf g cost) := by
  rw [criticalPathOf_eq_of_no_exit hentry hstart hnone]
  obtain ⟨hmem, hle⟩ := Liveness.isGreatest_foldl_max (pathCosts g start cost).values
  have hreach : ∀ {v : Nat}, g.toGraph.Reaches start v → ∃ n,
      n ≤ (pathCosts g start cost).values.foldl max 0 ∧
        IsGreatest (g.toGraph.forwardSums start cost v) n := by
    intro v hv
    obtain ⟨n, hn, hgreatest⟩ :=
      (pathCosts_greatest hstart v).exists_eq_some (Graph.forwardSums_nonempty hv)
    exact ⟨n, hle (Or.inr (mem_values_iff.2 ⟨v, hn⟩)), hgreatest⟩
  constructor
  · rcases hmem with hzero | hmem
    · -- A greatest sum of zero is that of the path that stays at the start.
      obtain ⟨n, hn, hgreatest⟩ := hreach (.refl hstart)
      rw [hzero, Nat.le_zero] at hn
      rw [hzero]
      exact ⟨start, hn ▸ hgreatest.1⟩
    · obtain ⟨v, hv⟩ := mem_values_iff.1 hmem
      exact ⟨v, (isGreatest_of_pathCosts hstart hv).1⟩
  · rintro n ⟨v, hn⟩
    obtain ⟨m, hm, hgreatest⟩ := hreach (Graph.reaches_of_mem_forwardSums hn)
    exact (hgreatest.2 hn).trans hm

/-- **The critical path does not exceed the cycles of all blocks**: a forward path visits no block
twice. -/
theorem criticalPathOf_le (cost : Nat → Nat) (hentry : ∀ start, g.entry = some start →
    start < g.size) : criticalPathOf g cost ≤ total ((List.range g.size).map cost) := by
  rcases hsome : g.entry with - | start
  · rw [criticalPathOf, hsome]
    exact Nat.zero_le _
  · obtain ⟨v, π, hπ, heq⟩ : ∃ v, criticalPathOf g cost ∈ g.toGraph.forwardSums start cost v := by
      by_cases hexit : ∃ v ∈ g.exits, g.toGraph.Reaches start v
      · obtain ⟨v, -, hv⟩ := (criticalPathOf_isGreatest hsome hexit).1
        exact ⟨v, hv⟩
      · exact (criticalPathOf_isGreatest_anywhere hsome (hentry start hsome) hexit).1
    rw [heq]
    exact total_map_le hπ.nodup (fun x hx ↦ List.mem_range.2 (hπ.path.lt_size_of_mem hx)) cost

/-! ### Charges, opcodes and blocks -/

open TimingContext

/-- **The cycles of the opcodes sum up to the total**, in every context. -/
theorem total_byOpcode (c : TimingContext) :
    total ((analyze c).byOpcode.map Prod.snd) = (analyze c).totalCycles := by
  have hall : (Vocabulary.all : List Opcode).Nodup := by decide
  have hevery : ∀ op : Opcode, op ∈ (Vocabulary.all : List Opcode) := by
    intro op
    cases op <;> decide
  show total (List.map Prod.snd (List.map _ _)) = total ((analyze c).charges.map CycleCharge.cycles)
  rw [List.map_map]
  refine total_by_key (hall.filter _) CycleCharge.opcode CycleCharge.cycles fun charge hcharge ↦ ?_
  exact List.mem_filter.2
    ⟨hevery charge.opcode, List.any_eq_true.2 ⟨charge, hcharge, beq_self_eq_true _⟩⟩

variable {r : Routine} {a : Analysis}

/-- Every instruction is charged its own cycles. -/
theorem map_cycles_charges (r : Routine) (a : Analysis) (hardware : Hardware) :
    (analyze (fitting r a hardware)).charges.map CycleCharge.cycles =
      r.instructions.map (·.cycles hardware.variant) := by
  have hrows : (analyze (fitting r a hardware)).charges.map CycleCharge.cycles =
      (r.instructions.zip ((depthsOf a r.size).zip
        (r.instructions.map (·.cycles hardware.variant)))).map (Prod.snd ∘ Prod.snd) := by
    refine List.ext_getElem? fun i ↦ ?_
    rw [List.getElem?_map, charges_getElem?, List.getElem?_map, Option.map_map]
    rfl
  have hdepths := length_depthsOf a r.size
  rw [hrows, ← List.map_map, List.map_snd_zip, List.map_snd_zip]
  · rw [List.length_map, hdepths]
    rfl
  · rw [List.length_zip, hdepths]
    exact Nat.min_le_left ..

/-- The cycles of the blocks sum up to those of the instructions. -/
theorem total_blockCycles (h : a.graph.Pictures r) (hardware : Hardware) :
    total ((List.range a.graph.size).map (fitting r a hardware).blockCycles) =
      total (r.instructions.map (·.cycles hardware.variant)) := by
  have hsize : a.graph.size = (FlowGraph.ofRoutine r).size := congrArg Graph.size h.toGraph_eq
  have hblocks : (List.range (FlowGraph.ofRoutine r).size).map (r.blockCycles hardware.variant) =
      ((FlowGraph.ofRoutine r).blocks.map Block.code).map
        fun code ↦ (code.map (·.cycles hardware.variant)).sum := by
    refine List.ext_getElem? fun k ↦ ?_
    rw [List.getElem?_map, List.getElem?_map, List.getElem?_map]
    by_cases hk : k < (FlowGraph.ofRoutine r).size
    · rw [List.getElem?_range hk, Option.map_some, Routine.blockCycles, FlowGraph.block?,
        List.getElem?_eq_getElem hk]
      rfl
    · rw [List.getElem?_eq_none (by simpa using hk), List.getElem?_eq_none (Nat.not_lt.1 hk)]
      rfl
  rw [blockCycles_fitting h, hsize, hblocks, total_eq_sum, total_eq_sum,
    ← FlowGraph.flatten_code r, List.map_flatten, List.sum_flatten]
  simp only [List.map_map, Function.comp_def]

end CycleTiming

/-! ### Exactness -/

/-- The two searches of a flow graph agree: the machine with tasks gives the postorder, the machine
with frames gives the back edges, and the edges between reached blocks that do not raise the number
in reverse postorder are the back edges. -/
structure FlowGraph.SearchesAgree (g : FlowGraph) (entry : Nat) : Prop where
  postorder : Computes g.toGraph.takeTask (.initial entry) Graph.TaskState.finished
    (g.toGraph.postorder entry)
  backEdges : Computes g.toGraph.takeEdge (.initial g.toGraph entry) Graph.FrameState.backEdges
    (Loop.backEdgesOf g)
  mem_backEdges_iff : ∀ u v, g.toGraph.Reaches entry u → v ∈ g.successors u → ∃ i j,
    (g.toGraph.numbering entry)[u]? = some (some i) ∧
      (g.toGraph.numbering entry)[v]? = some (some j) ∧ (j ≤ i ↔ (u, v) ∈ Loop.backEdgesOf g)

/-- **The two searches agree** on back edges and on postorder. -/
theorem FlowGraph.searchesAgree {g : FlowGraph} {entry : Nat} (hentry : g.entry = some entry)
    (hlt : entry < g.size) : g.SearchesAgree entry := by
  have hback : Loop.backEdgesOf g = (g.toGraph.trail entry).backEdges := by
    rw [Loop.backEdgesOf, hentry, Option.elim_some]
  have hnumber : ∀ {v : Nat}, g.toGraph.Reaches entry v →
      (g.toGraph.numbering entry)[v]? = some (some (g.toGraph.rank entry v)) := by
    intro v hv
    rw [Graph.numbering, List.getElem?_map, List.getElem?_range hv.lt_size, Option.map_some,
      Graph.idxOf?_reversePostorder hv]
  refine ⟨Graph.tasks_compute hlt, hback ▸ Graph.frames_compute hlt, fun u v hu hmem ↦ ?_⟩
  have hedge : g.toGraph.Edge u v := edge_iff_mem_successors.2 hmem
  refine ⟨_, _, hnumber hu, hnumber (hu.step hedge), ?_⟩
  rw [hback, Graph.mem_backEdges_iff]
  exact ⟨fun hle ↦ ⟨hu, hedge, hle⟩, fun h ↦ h.2.2⟩

namespace TimingContext

/-- The critical path of a context is the greatest sum of block cycles over the forward paths to an
exit, or to any block when no exit is reached. -/
structure LongestPath (c : TimingContext) (entry : Nat) : Prop where
  /-- The cycles of every block can be looked up. -/
  looked_up : ∀ b, c.blockCycles? b = some (c.blockCycles b)
  to_exit : (∃ v ∈ c.analysis.graph.exits, c.analysis.graph.toGraph.Reaches entry v) →
    IsGreatest {n | ∃ v ∈ c.analysis.graph.exits,
      n ∈ c.analysis.graph.toGraph.forwardSums entry c.blockCycles v} (CycleTiming.worstPath c)
  anywhere : (¬∃ v ∈ c.analysis.graph.exits, c.analysis.graph.toGraph.Reaches entry v) →
    IsGreatest {n | ∃ v, n ∈ c.analysis.graph.toGraph.forwardSums entry c.blockCycles v}
      (CycleTiming.worstPath c)

end TimingContext

namespace CycleTiming

open TimingContext

/-- All counts of the cycles of a context agree, and the critical path does not exceed them. -/
structure Additive (c : TimingContext) : Prop where
  criticalPath_eq : (analyze c).criticalPath = worstPath c
  criticalPath_le : (analyze c).criticalPath ≤ (analyze c).totalCycles
  charges : (analyze c).totalCycles = total ((analyze c).charges.map CycleCharge.cycles)
  opcodes : (analyze c).totalCycles = total ((analyze c).byOpcode.map Prod.snd)
  blocks : (analyze c).totalCycles =
    total ((List.range c.analysis.graph.size).map c.blockCycles)

/-- **The cycles of a routine add up**, in whichever of the four ways they are counted. -/
theorem additive_fitting {r : Routine} {a : Analysis} (h : a.graph.Pictures r)
    (hardware : Hardware) : Additive (fitting r a hardware) := by
  have hblocks : (analyze (fitting r a hardware)).totalCycles =
      total ((List.range a.graph.size).map (fitting r a hardware).blockCycles) := by
    rw [total_blockCycles h, ← map_cycles_charges r a hardware]
    rfl
  refine ⟨rfl, ?_, rfl, (total_byOpcode _).symm, hblocks⟩
  rw [hblocks]
  exact criticalPathOf_le _ fun _ ↦ h.entry_lt_size

/-- **The critical path is an exact longest path, and the back edges of the two searches agree.**
On every flow graph with an entry in range, the search with tasks and the search with frames walk
the same tree, and an edge between reached blocks does not raise the number in reverse postorder
exactly if it is a back edge of the loop analysis. For every list of cycles that covers the blocks,
the critical path is the greatest sum over the forward paths to an exit, or to any block when no
exit is reached. In every accepted analysis of a routine, on every hardware, the critical path does
not exceed the total, which is the sum of the charges, of the opcodes and of the blocks. -/
theorem criticalPath_longest :
    (∀ (g : FlowGraph) (entry : Nat), g.entry = some entry → entry < g.size →
      g.SearchesAgree entry) ∧
    (∀ (c : TimingContext) (entry : Nat), c.analysis.graph.entry = some entry →
      entry < c.analysis.graph.size → c.Covers → c.LongestPath entry) ∧
    ∀ (r : Routine) (o : AnalysisOptions) (a : Analysis) (hardware : Hardware),
      Analysis.ofRoutine o r = .ok a →
        ∃ c, TimingContext.of r a hardware = .ok c ∧ Additive c := by
  refine ⟨fun g entry hentry hlt ↦ FlowGraph.searchesAgree hentry hlt,
    fun c entry hentry hlt hcovers ↦ ⟨hcovers.blockCycles?, criticalPathOf_isGreatest hentry,
      criticalPathOf_isGreatest_anywhere hentry hlt⟩, fun r o a hardware ha ↦ ?_⟩
  obtain ⟨rfl, -⟩ := Analysis.eq_run_of_ofRoutine ha
  have hpictures := Analysis.run_pictures o r
  exact ⟨fitting r _ hardware, of_eq_ok rfl hpictures, additive_fitting hpictures hardware⟩

/-- A cycle without an exit that the entry leads into at two blocks. -/
def endless : FlowGraph where
  routineName := "endless"
  blocks := [{ id := 0, start := 0, stop := 1, code := [], successors := .ofList [1, 2] },
    { id := 1, start := 1, stop := 3, code := [], predecessors := .ofList [0, 2],
      successors := .ofList [2] },
    { id := 2, start := 3, stop := 4, code := [], predecessors := .ofList [0, 1],
      successors := .ofList [1] }]
  edges := []
  entry := some 0
  exits := ∅

/-- The cycle with the cycles of its four indices. -/
def timedEndless : TimingContext where
  routine := loopInLoop
  analysis := { Analysis.run {} loopInLoop with graph := endless }
  hardware := .ofVariant .mos6502
  depths := []
  cycles := [2, 5, 5, 7]

theorem criticalPath_longest_endless : endless.SearchesAgree 0 ∧
    Loop.backEdgesOf endless = [(2, 1)] ∧ timedEndless.Covers ∧ timedEndless.LongestPath 0 ∧
      worstPath timedEndless = 19 ∧ ∃ a c, Analysis.ofRoutine {} loopInLoop = .ok a ∧
        TimingContext.of loopInLoop a (.ofVariant .mos6502) = .ok c ∧ Additive c := by
  have hstop : ∀ b ∈ endless.blocks, b.stop ≤ 4 := by decide +kernel
  have hcovers : timedEndless.Covers := fun b hb i _ hi ↦ Nat.lt_of_lt_of_le hi (hstop b hb)
  obtain ⟨hsearches, hlongest, hadditive⟩ := criticalPath_longest
  obtain ⟨c, hc, hsums⟩ := hadditive loopInLoop {} _ (.ofVariant .mos6502) rfl
  exact ⟨hsearches endless 0 rfl (by decide), by decide +kernel, hcovers,
    hlongest timedEndless 0 rfl (by decide) hcovers, by decide +kernel, _, c, rfl, hc, hsums⟩

end CycleTiming

end FlowGauge
