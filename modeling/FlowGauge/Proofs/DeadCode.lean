import FlowGauge.DataFlow.Summary
import FlowGauge.Proofs.DataFlow.Solver
import FlowGauge.Proofs.Flow.Nesting
import FlowGauge.Proofs.Graph.Agreement
import Mathlib.Data.List.Sort

/-!
# Dead code does not show in the analyses

Two flow graphs agree on reached blocks when they have the same entry and as many blocks, and every
block reached from the entry has the same code, the same start, the same successors and the same
reached predecessors. Dead blocks may differ in everything, also in their edges into reached blocks,
and so may the predecessors of reached blocks as far as they are dead.

The analyses keep dead predecessors out in four ways: the solver lists reached neighbours only, the
dominator passes skip predecessors without an entry, the frontiers filter by reachability, and the
sweep for the body of a loop goes only to blocks that the header dominates. Each filter keeps
reached blocks only, which is what `AgreesOnReached.filter_predecessors_eq` asks for; two runs then
go through the same states. The preheader of a loop is the one thing that is read off unfiltered
predecessors, and it is left out.

## Why reached is measured once

What is reached is asked of the first graph only. Since the successors of reached blocks agree, the
second one reaches the same, and the two sides of every later statement can be compared block by
block. Dead blocks take part in nothing but the size: a graph with more dead blocks has more numbers
of blocks, which bounds and capacities would show, so the two graphs have as many.
-/

namespace FlowGauge

/-! ### Flow graphs that agree on reached blocks -/

namespace FlowGraph

/-- Two flow graphs that differ in dead code only. What is reached is measured in the first; it is
the same in the second (`AgreesOnReached.reached_iff`). -/
structure AgreesOnReached (g h : FlowGraph) : Prop where
  entry_eq : g.entry = h.entry
  size_eq : g.size = h.size
  code_eq : ∀ b x y, g.Reached b → g.block? b = some x → h.block? b = some y → x.code = y.code
  start_eq : ∀ b x y, g.Reached b → g.block? b = some x → h.block? b = some y → x.start = y.start
  successors_eq : ∀ b x y, g.Reached b → g.block? b = some x → h.block? b = some y →
    x.successors = y.successors
  mem_predecessors_iff : ∀ b x y, g.Reached b → g.block? b = some x → h.block? b = some y →
    ∀ p, g.Reached p → (p ∈ x.predecessors ↔ p ∈ y.predecessors)

namespace AgreesOnReached

/-- It is enough to compare the blocks in reverse postorder, which can be evaluated. -/
theorem of_reversePostorder {g h : FlowGraph} (hentry : g.entry = h.entry)
    (hsize : g.size = h.size)
    (hblocks : ∀ b ∈ g.reversePostorder, ∀ x ∈ g.block? b, ∀ y ∈ h.block? b,
      x.code = y.code ∧ x.start = y.start ∧ x.successors = y.successors ∧
        ∀ p ∈ g.reversePostorder, (p ∈ x.predecessors ↔ p ∈ y.predecessors)) :
    g.AgreesOnReached h where
  entry_eq := hentry
  size_eq := hsize
  code_eq b x y hb hx hy := (hblocks b (mem_reversePostorder_iff.2 hb) x hx y hy).1
  start_eq b x y hb hx hy := (hblocks b (mem_reversePostorder_iff.2 hb) x hx y hy).2.1
  successors_eq b x y hb hx hy := (hblocks b (mem_reversePostorder_iff.2 hb) x hx y hy).2.2.1
  mem_predecessors_iff b x y hb hx hy p hp :=
    (hblocks b (mem_reversePostorder_iff.2 hb) x hx y hy).2.2.2 p (mem_reversePostorder_iff.2 hp)

variable {g h : FlowGraph} (hgh : g.AgreesOnReached h)

include hgh

/-- A reached block exists in both graphs. -/
theorem exists_blocks {b : Nat} (hb : g.Reached b) :
    ∃ x y, g.block? b = some x ∧ h.block? b = some y := by
  obtain ⟨entry, -, hreach⟩ := hb
  have hg : b < g.size := hreach.lt_size
  have hh : b < h.size := hgh.size_eq ▸ hg
  exact ⟨_, _, List.getElem?_eq_getElem hg, List.getElem?_eq_getElem hh⟩

/-- The instructions of a reached block have the same indices in both graphs. -/
theorem indexed_eq {b : Nat} (hb : g.Reached b) :
    (g.block? b).elim [] Block.indexed = (h.block? b).elim [] Block.indexed := by
  obtain ⟨x, y, hx, hy⟩ := hgh.exists_blocks hb
  rw [hx, hy, Option.elim_some, Option.elim_some, Block.indexed, Block.indexed,
    hgh.code_eq b x y hb hx hy, hgh.start_eq b x y hb hx hy]

theorem code_elim_eq {b : Nat} (hb : g.Reached b) :
    (g.block? b).elim [] Block.code = (h.block? b).elim [] Block.code := by
  obtain ⟨x, y, hx, hy⟩ := hgh.exists_blocks hb
  rw [hx, hy]
  exact hgh.code_eq b x y hb hx hy

/-- A reached block has the same successors in both graphs. -/
theorem successors_list_eq {b : Nat} (hb : g.Reached b) : g.successors b = h.successors b := by
  obtain ⟨x, y, hx, hy⟩ := hgh.exists_blocks hb
  rw [successors, successors, hx, hy, Option.elim_some, Option.elim_some,
    hgh.successors_eq b x y hb hx hy, hgh.size_eq]

/-- **A filter that keeps only reached blocks leaves a reached block the same predecessors.** -/
theorem filter_predecessors_eq {b : Nat} (hb : g.Reached b) (keep : Nat → Bool)
    (hkeep : ∀ p, keep p = true → g.Reached p) :
    (g.predecessors b).filter keep = (h.predecessors b).filter keep := by
  obtain ⟨x, y, hx, hy⟩ := hgh.exists_blocks hb
  rw [predecessors, predecessors, hx, hy, Option.elim_some, Option.elim_some, ← hgh.size_eq]
  -- Both lists ascend, so it is enough that they have the same members.
  refine List.Pairwise.eq_of_mem_iff (((Loop.toList_pairwise_lt _).filter _).filter _)
    (((Loop.toList_pairwise_lt _).filter _).filter _) fun p ↦ ?_
  simp only [List.mem_filter, Std.ExtTreeSet.mem_toList]
  refine and_congr_left fun hp ↦ and_congr_left fun _ ↦ ?_
  exact hgh.mem_predecessors_iff b x y hb hx hy p (hkeep p hp)

/-- Flow graphs that agree on reached blocks agree as graphs. -/
theorem agreesFrom {entry : Nat} (hentry : g.entry = some entry) :
    g.toGraph.AgreesFrom h.toGraph entry where
  size_eq := hgh.size_eq
  successors_eq _ hv := hgh.successors_list_eq ⟨entry, hentry, hv⟩
  filter_predecessors_eq _ hv keep hkeep :=
    hgh.filter_predecessors_eq ⟨entry, hentry, hv⟩ keep fun p hp ↦ ⟨entry, hentry, hkeep p hp⟩

/-- The graphs reach the same blocks. -/
theorem reached_iff {b : Nat} : g.Reached b ↔ h.Reached b := by
  unfold Reached
  rw [← hgh.entry_eq]
  refine exists_congr fun entry ↦ and_congr_right fun hentry ↦ ?_
  exact (hgh.agreesFrom hentry).reaches_iff

theorem reversePostorder_eq : g.reversePostorder = h.reversePostorder := by
  rw [reversePostorder, reversePostorder, ← hgh.entry_eq]
  rcases hentry : g.entry with - | entry
  · rfl
  · exact (hgh.agreesFrom hentry).reversePostorder_eq

/-- The located instructions of reached blocks are the same. -/
theorem located_eq {blocks : List Nat} (hblocks : ∀ b ∈ blocks, g.Reached b) :
    g.located blocks = h.located blocks := by
  rw [located, located]
  refine List.flatMap_congr fun b hb ↦ ?_
  obtain ⟨x, y, hx, hy⟩ := hgh.exists_blocks (hblocks b hb)
  have hindexed := hgh.indexed_eq (hblocks b hb)
  rw [hx, hy, Option.elim_some, Option.elim_some] at hindexed ⊢
  rw [hindexed]

end AgreesOnReached

end FlowGraph

/-! ### Data flow -/

namespace GenKill

/-- Two runs of the solver are the same when sources and dependents agree on the blocks of a set
that the queue starts in and that dependents do not leave. -/
theorem work_eq (problem : GenKill) (count : Nat) {live : Nat → Prop}
    {sources sources' dependents dependents' : Nat → List Nat}
    (hsources : ∀ b, live b → sources b = sources' b)
    (hdependents : ∀ b, live b → dependents b = dependents' b)
    (hstays : ∀ b, ∀ d ∈ dependents b, live d) (bound : Nat) :
    ∀ queue state, (∀ b ∈ queue, live b) →
      problem.work count sources dependents bound queue state =
        problem.work count sources' dependents' bound queue state := by
  induction bound with
  | zero => exact fun _ _ _ ↦ rfl
  | succ bound ih =>
    rintro (- | ⟨b, queue⟩) state hqueue
    · rfl
    · have hb := hqueue b (List.mem_cons_self ..)
      have hrequeue : ∀ c ∈ problem.requeue count sources dependents state b queue, live c := by
        intro c hc
        rw [requeue] at hc
        split at hc
        · exact hqueue c (.tail b hc)
        · rcases mem_enqueue_iff.1 hc with hold | hnew
          · exact hqueue c (.tail b hold)
          · exact hstays b c hnew
      rw [work_succ_cons, work_succ_cons, ih _ _ hrequeue, requeue, requeue, visit, visit, evaluate,
        evaluate, hsources b hb, hdependents b hb]

end GenKill

namespace FlowGraph.AgreesOnReached

variable {g h : FlowGraph} (hgh : g.AgreesOnReached h)

include hgh

/-- **The solver does not see dead blocks.** -/
theorem solve_eq (direction : Direction) (count : Nat) (problem : GenKill) :
    problem.solve g direction count = problem.solve h direction count := by
  have hreached : ∀ b, b ∈ g.reversePostorder → g.Reached b := fun b hb ↦
    mem_reversePostorder_iff.1 hb
  have hsuccessors : ∀ b, g.Reached b → (g.successors b).filter (· ∈ g.reversePostorder) =
      (h.successors b).filter (· ∈ g.reversePostorder) := fun b hb ↦
    congrArg _ (hgh.successors_list_eq hb)
  have hpredecessors : ∀ b, g.Reached b → (g.predecessors b).filter (· ∈ g.reversePostorder) =
      (h.predecessors b).filter (· ∈ g.reversePostorder) := fun b hb ↦
    hgh.filter_predecessors_eq hb _ fun p hp ↦ hreached p (of_decide_eq_true hp)
  have hstays : ∀ l : List Nat, ∀ p ∈ l.filter (· ∈ g.reversePostorder), g.Reached p :=
    fun l p hp ↦ hreached p (of_decide_eq_true (List.mem_filter.1 hp).2)
  unfold GenKill.solve
  rw [← hgh.reversePostorder_eq, ← hgh.size_eq]
  cases direction with
  | forward =>
    exact problem.work_eq count hpredecessors hsuccessors (fun _ ↦ hstays _) _ _ _ hreached
  | backward =>
    exact problem.work_eq count hsuccessors hpredecessors (fun _ ↦ hstays _) _ _ _
      fun b hb ↦ hreached b (List.mem_reverse.1 hb)

variable {blocks : List Nat} (hblocks : ∀ b ∈ blocks, g.Reached b)

include hblocks

theorem definitions_eq : Reaching.definitions g blocks = Reaching.definitions h blocks := by
  rw [Reaching.definitions, hgh.located_eq hblocks]
  rfl

theorem useDefs_eq : Reaching.useDefs g blocks = Reaching.useDefs h blocks := by
  rw [Reaching.useDefs, Reaching.useDefs, ← hgh.definitions_eq hblocks, ← hgh.size_eq,
    ← hgh.solve_eq]
  refine List.flatMap_congr fun b hb ↦ ?_
  rw [hgh.located_eq fun c hc ↦ hblocks c (List.mem_singleton.1 hc ▸ hb)]

theorem defUses_eq (reads : List UseDef) :
    Reaching.defUses g blocks reads = Reaching.defUses h blocks reads := by
  rw [Reaching.defUses, hgh.definitions_eq hblocks]
  rfl

/-- The sites of a variable are collected from reached blocks alone. -/
theorem sites_eq : Reaching.sites g blocks = Reaching.sites h blocks := by
  rw [Reaching.sites, hgh.located_eq hblocks]
  rfl

/-- The two problems have the same gen and kill sets. -/
theorem liveness_problem_eq (names : List String) :
    Liveness.problem g blocks names = Liveness.problem h blocks names := by
  have hscanned : ∀ b, (if b ∈ blocks then
        ((g.block? b).elim [] Block.code).foldl Liveness.scan (∅, ∅) else (∅, ∅)) =
      if b ∈ blocks then
        ((h.block? b).elim [] Block.code).foldl Liveness.scan (∅, ∅) else (∅, ∅) := by
    intro b
    split
    · next hb => rw [hgh.code_elim_eq (hblocks b hb)]
    · rfl
  rw [Liveness.problem, Liveness.problem, ← hgh.size_eq]
  simp only [hscanned]

/-- Variables are live at the same places, because both runs of the solver read reached successors
only. -/
theorem liveness_eq : Liveness.compute g blocks = Liveness.compute h blocks := by
  have hnames : Liveness.trackedNames g blocks = Liveness.trackedNames h blocks := by
    rw [Liveness.trackedNames, hgh.located_eq hblocks]
    rfl
  rw [Liveness.compute, Liveness.compute, ← hnames, ← hgh.liveness_problem_eq hblocks,
    ← hgh.solve_eq]
  refine congrArg (Liveness.Result.mk _) (List.flatMap_congr fun b hb ↦ ?_)
  rw [hgh.indexed_eq (hblocks b hb)]

omit hblocks

/-- **The data-flow summaries are the same, at both precisions.** -/
theorem analyze_eq (precision : Precision) :
    DataFlow.analyze g precision = DataFlow.analyze h precision := by
  have hblocks : ∀ b ∈ g.reversePostorder, g.Reached b := fun b hb ↦ mem_reversePostorder_iff.1 hb
  simp only [DataFlow.analyze, ← hgh.reversePostorder_eq, hgh.useDefs_eq hblocks,
    hgh.defUses_eq hblocks, hgh.sites_eq hblocks, hgh.liveness_eq hblocks]

/-! ### Dominance -/

/-- **The dominance records are the same.** -/
theorem dominance_eq : Dominance.compute g = Dominance.compute h := by
  rcases hentry : g.entry with - | entry
  · rw [Dominance.compute, Dominance.compute, ← hgh.entry_eq, hentry]
  · have hfrom := hgh.agreesFrom hentry
    have hfrontiers := Dominators.frontiers_eq hfrom
    rw [Dominance.compute_eq_ofTable hentry, Dominance.compute_eq_ofTable (hgh.entry_eq ▸ hentry),
      ← Dominators.compute_eq hfrom, Dominance.ofTable, Dominance.ofTable, Dominance.nodes,
      Dominance.nodes, hfrontiers, hgh.size_eq]

end FlowGraph.AgreesOnReached

/-- Only reached blocks are dominated. -/
theorem Dominance.reached_of_dominates {g : FlowGraph} {a b : Nat}
    (hdom : (Dominance.compute g).dominates a b = true) : g.Reached b := by
  have hchain : a ∈ (Dominance.compute g).chain b := of_decide_eq_true hdom
  rw [Dominance.chain, Dominance.climb] at hchain
  rcases hidom : (Dominance.compute g).idom[b]? with - | up
  · rw [hidom] at hchain
    exact absurd hchain List.not_mem_nil
  · have hmem : b ∈ (Dominance.compute g).idom := Std.ExtTreeMap.mem_iff_isSome_getElem?.2 (by
      rw [hidom]
      rfl)
    rcases hentry : g.entry with - | entry
    · rw [Dominance.compute, hentry] at hmem
      exact absurd hmem Std.ExtTreeMap.not_mem_empty
    · rw [Dominance.compute_eq_ofTable hentry] at hmem
      have hnode := (List.mem_filter.1 (mem_tabulate.1 hmem)).2
      exact ⟨entry, hentry, Dominators.reaches_of_isReachable hnode⟩

/-! ### Loops -/

namespace Loop

/-- A loop without its preheader. -/
def withoutPreheader (l : Loop) : Loop :=
  { l with preheader := none }

/-- Nesting does not look at preheaders. -/
theorem nestOne_map_withoutPreheader (loops : List Loop) (p : Nat) :
    nestOne (loops.map withoutPreheader) p = (nestOne loops p).map withoutPreheader := by
  obtain ⟨haround, -, hsmallest⟩ :=
    reads_map withoutPreheader (fun _ ↦ rfl) (fun _ ↦ rfl) loops
  refine List.ext_getElem? fun k ↦ ?_
  simp only [List.getElem?_map, nestOne_getElem?, haround, hsmallest, Option.map_map]
  split
  · rw [Option.map_map]
    rfl
  · rfl

/-- **Nesting does not read preheaders.** -/
theorem nest_map_withoutPreheader (loops : List Loop) :
    nest (loops.map withoutPreheader) = (nest loops).map withoutPreheader := by
  have hfold : ∀ (order : List Nat) (loops : List Loop),
      order.foldl nestOne (loops.map withoutPreheader) =
        (order.foldl nestOne loops).map withoutPreheader := by
    intro order
    induction order with
    | nil => exact fun _ ↦ rfl
    | cons p order ih =>
      intro loops
      rw [List.foldl_cons, nestOne_map_withoutPreheader, ih, List.foldl_cons]
  have hsettled : settled (loops.map withoutPreheader) =
      (settled loops).map withoutPreheader := by
    obtain ⟨-, hsize, -⟩ := reads_map withoutPreheader (fun _ ↦ rfl) (fun _ ↦ rfl) loops
    rw [settled, nestOrder, hsize, List.length_map, hfold]
    rfl
  have hinnermost : ∀ p l, innermostAt ((settled loops).map withoutPreheader) p
      (withoutPreheader l) = innermostAt (settled loops) p l := by
    intro p l
    rw [innermostAt, List.zipIdx_map, List.any_map]
    rfl
  refine List.ext_getElem? fun p ↦ ?_
  rw [nest_getElem?, List.getElem?_map, nest_getElem?, hsettled, List.getElem?_map, Option.map_map,
    Option.map_map]
  simp only [Function.comp_def, hinnermost]
  rfl

end Loop

namespace FlowGraph.AgreesOnReached

open Loop

variable {g h : FlowGraph} (hgh : g.AgreesOnReached h)

omit hgh in
/-- Both ends of a closing edge are reached. -/
theorem reached_of_mem_closing {u header : Nat}
    (hmem : (u, header) ∈ closing g (Dominance.compute g)) : g.Reached u ∧ g.Reached header := by
  have hback := (List.mem_filter.1 hmem).1
  rw [backEdgesOf] at hback
  rcases hentry : g.entry with - | entry
  · rw [hentry] at hback
    exact absurd hback List.not_mem_nil
  · rw [hentry] at hback
    obtain ⟨hu, hedge, -⟩ := Graph.mem_backEdges_iff.1 hback
    exact ⟨⟨entry, hentry, hu⟩, ⟨entry, hentry, hu.step hedge⟩⟩

omit hgh in
/-- The sweep for the body of a loop stays in reached blocks. -/
theorem reached_of_mem_bodyOf {header b : Nat} {latches : BlockSet} (hheader : g.Reached header)
    (hlatches : ∀ u ∈ latches, g.Reached u)
    (hb : b ∈ bodyOf g (Dominance.compute g) header latches) : g.Reached b := by
  rcases mem_bodyOf_iff_swept.1 hb with rfl | hswept
  · exact hheader
  · obtain ⟨p, hp, hchain⟩ := Graph.exists_chain_of_mem_sweep (fun _ _ ↦ .refl _) _ _ _ b hswept
    cases hchain with
    | refl => exact hlatches b (mem_sources_iff.1 hp).1
    | tail _ hlink => exact Dominance.reached_of_dominates (List.mem_filter.1 hlink.1).2

include hgh

/-- The graphs have the same back edges. -/
theorem backEdgesOf_eq : backEdgesOf g = backEdgesOf h := by
  rw [backEdgesOf, backEdgesOf, ← hgh.entry_eq]
  rcases hentry : g.entry with - | entry
  · rfl
  · exact congrArg Trail.backEdges (hgh.agreesFrom hentry).trail_eq

section Body

variable {header : Nat} {latches : BlockSet} (hheader : g.Reached header)
  (hlatches : ∀ u ∈ latches, g.Reached u)

include hlatches

/-- The bodies are the same: the sweep goes back to dominated predecessors only, and dead blocks are
not dominated. -/
theorem bodyOf_eq : bodyOf g (Dominance.compute g) header latches =
    bodyOf h (Dominance.compute g) header latches := by
  have hswept : swept g (Dominance.compute g) header latches =
      swept h (Dominance.compute g) header latches := by
    rcases hentry : g.entry with - | entry
    · -- Without an entry no block is reached, so there is no latch to sweep from.
      have hnil : sources header latches = [] := List.eq_nil_iff_forall_not_mem.2 fun u hu ↦ by
        obtain ⟨entry, hsome, -⟩ := hlatches u (mem_sources_iff.1 hu).1
        exact absurd (hentry.symm.trans hsome) (by simp)
      rw [swept, swept, hnil, hgh.size_eq]
      cases h.size with
      | zero => rfl
      | succ n => rfl
    · have hreached : ∀ b, g.Reached b → g.toGraph.Reaches entry b := by
        rintro b ⟨e, he, hb⟩
        exact Option.some.inj (he.symm.trans hentry) ▸ hb
      rw [swept, swept, ← hgh.size_eq]
      refine (hgh.agreesFrom hentry).sweep_eq (fun _ _ ↦ .refl _) (fun v hv ↦ ?_)
        (fun v w hw ↦ hreached w (Dominance.reached_of_dominates (List.mem_filter.1 hw).2)) _ _ _
        fun v hv ↦ hreached v (hlatches v (mem_sources_iff.1 hv).1)
      exact hgh.filter_predecessors_eq ⟨entry, hentry, hv⟩ _ fun p hp ↦
        Dominance.reached_of_dominates hp
  show Std.ExtTreeSet.ofList (header :: swept g _ header latches) _ = _
  rw [hswept]
  rfl

include hheader

/-- **A loop is the same in both graphs, its preheader apart.** -/
theorem ofLatches_eq (id : Nat) :
    (ofLatches g (Dominance.compute g) id header latches).withoutPreheader =
      (ofLatches h (Dominance.compute g) id header latches).withoutPreheader := by
  have hreached : ∀ b ∈ (bodyOf g (Dominance.compute g) header latches).toList, g.Reached b :=
    fun b hb ↦ reached_of_mem_bodyOf hheader hlatches (Std.ExtTreeSet.mem_toList.1 hb)
  have hbody : bodyOf g (Dominance.compute g) header latches =
      bodyOf h (Dominance.compute g) header latches := hgh.bodyOf_eq hlatches
  have hleaving : ∀ body : BlockSet, (∀ b ∈ body.toList, g.Reached b) →
      (body.toList.flatMap fun b ↦
        ((g.successors b).filter (!body.contains ·)).map fun s ↦ (b, s)) =
      body.toList.flatMap fun b ↦
        ((h.successors b).filter (!body.contains ·)).map fun s ↦ (b, s) := fun body hb ↦
    List.flatMap_congr fun b hmem ↦ by rw [hgh.successors_list_eq (hb b hmem)]
  have htraits : ∀ body exits : BlockSet, (∀ b ∈ body.toList, g.Reached b) →
      traitsOf g body exits = traitsOf h body exits := by
    intro body exits hb
    have hcode : (body.toList.filterMap g.block?).flatMap Block.code =
        (body.toList.filterMap h.block?).flatMap Block.code := by
      rw [List.filterMap_eq_flatMap_toList, List.filterMap_eq_flatMap_toList, List.flatMap_assoc,
        List.flatMap_assoc]
      refine List.flatMap_congr fun b hmem ↦ ?_
      obtain ⟨x, y, hx, hy⟩ := hgh.exists_blocks (hb b hmem)
      have hxy := hgh.code_eq b x y (hb b hmem) hx hy
      rw [hx, hy, Option.toList_some, Option.toList_some, List.flatMap_singleton,
        List.flatMap_singleton, hxy]
    rw [traitsOf, hcode]
    rfl
  unfold ofLatches withoutPreheader
  simp only [← hbody, hleaving _ hreached, htraits _ _ hreached]

end Body

/-- **The loops are the same, their preheaders apart.** -/
theorem find_eq : (find g (Dominance.compute g)).map withoutPreheader =
    (find h (Dominance.compute h)).map withoutPreheader := by
  have hclosing : closing g (Dominance.compute g) = closing h (Dominance.compute g) := by
    rw [closing, closing, hgh.backEdgesOf_eq]
  have hlatches : ∀ header, latchesOf h (Dominance.compute g) header =
      latchesOf g (Dominance.compute g) header := by
    intro header
    rw [latchesOf, latchesOf, hclosing]
  have hfind : ∀ (g : FlowGraph) (d : Dominance), find g d = nest ((headers g d).toList.zipIdx.map
      fun p ↦ ofLatches g d p.2 p.1 (latchesOf g d p.1)) := fun _ _ ↦ rfl
  rw [← hgh.dominance_eq, hfind, hfind, ← nest_map_withoutPreheader, ← nest_map_withoutPreheader,
    List.map_map, List.map_map, headers, headers, ← hclosing]
  refine congrArg nest (List.map_congr_left ?_)
  rintro ⟨header, k⟩ hmem
  obtain ⟨⟨u, _⟩, hu, rfl⟩ : ∃ e ∈ closing g (Dominance.compute g), e.2 = header := by
    have hheader := Std.ExtTreeSet.mem_toList.1 (List.fst_mem_of_mem_zipIdx hmem)
    rwa [Std.ExtTreeSet.mem_ofList, List.contains_iff_mem, List.mem_map] at hheader
  simp only [Function.comp_def, hlatches]
  refine hgh.ofLatches_eq (reached_of_mem_closing hu).2 (fun v hv ↦ ?_) k
  rw [latchesOf, Std.ExtTreeSet.mem_ofList, List.contains_iff_mem, List.mem_map] at hv
  obtain ⟨⟨_, w⟩, hw, rfl⟩ := hv
  exact (reached_of_mem_closing (List.mem_filter.1 hw).1).1

end FlowGraph.AgreesOnReached

namespace FlowGraph

/-- **Dead code does not show in the analyses.** Two flow graphs that agree on reached blocks reach
the same blocks and have equal data-flow summaries at both precisions, equal dominance records and
loops that are equal but for their preheaders. -/
theorem analyses_ignore_dead_code (g h : FlowGraph) (hgh : g.AgreesOnReached h) :
    (∀ b, g.Reached b ↔ h.Reached b) ∧
      (∀ precision, DataFlow.analyze g precision = DataFlow.analyze h precision) ∧
      Dominance.compute g = Dominance.compute h ∧
      (Loop.find g (Dominance.compute g)).map Loop.withoutPreheader =
        (Loop.find h (Dominance.compute h)).map Loop.withoutPreheader :=
  ⟨fun _ ↦ hgh.reached_iff, hgh.analyze_eq, hgh.dominance_eq, hgh.find_eq⟩

/-- A loop, a return, and dead code that jumps to the header of the loop. -/
def deadJump : Routine where
  name := "jump"
  instructions := [⟨0, .label, [.label "top"], none, none, none⟩,
    ⟨1, .branchIfTrue, [.localVar "x" .byte, .label "top"], none, none, none⟩,
    ⟨2, .ret, [], none, none, none⟩, ⟨3, .branch, [.label "top"], none, none, none⟩]

/-- The same loop and return, and dead code that writes the variable of the condition. -/
def deadWrite : Routine where
  name := "write"
  instructions := [⟨0, .label, [.label "top"], none, none, none⟩,
    ⟨1, .branchIfTrue, [.localVar "x" .byte, .label "top"], none, none, none⟩,
    ⟨2, .ret, [], none, none, none⟩,
    ⟨3, .copy, [.localVar "x" .byte, .localVar "y" .byte], none, none, none⟩,
    ⟨4, .ret, [], none, none, none⟩]

/-- The preheaders are not equal: the dead jump is taken for one. -/
theorem analyses_ignore_dead_code_deadJump :
    (ofRoutine deadJump).AgreesOnReached (ofRoutine deadWrite) ∧
      (ofRoutine deadJump).predecessors 0 = [0, 2] ∧ (ofRoutine deadWrite).predecessors 0 = [0] ∧
      DataFlow.analyze (ofRoutine deadJump) .precise =
        DataFlow.analyze (ofRoutine deadWrite) .precise ∧
      (Loop.find (ofRoutine deadJump) (Dominance.compute (ofRoutine deadJump))).map
          Loop.withoutPreheader =
        (Loop.find (ofRoutine deadWrite) (Dominance.compute (ofRoutine deadWrite))).map
          Loop.withoutPreheader ∧
      (Loop.find (ofRoutine deadJump) (Dominance.compute (ofRoutine deadJump))).map
          Loop.preheader = [some 2] ∧
      (Loop.find (ofRoutine deadWrite) (Dominance.compute (ofRoutine deadWrite))).map
          Loop.preheader = [none] := by
  have hagrees : (ofRoutine deadJump).AgreesOnReached (ofRoutine deadWrite) :=
    .of_reversePostorder (by decide +kernel) (by decide +kernel) (by decide +kernel)
  obtain ⟨-, hflow, -, hloops⟩ := analyses_ignore_dead_code _ _ hagrees
  exact ⟨hagrees, by decide +kernel, by decide +kernel, hflow .precise, hloops, by decide +kernel,
    by decide +kernel⟩

end FlowGraph

end FlowGauge
