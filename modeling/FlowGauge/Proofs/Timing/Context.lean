import FlowGauge.Proofs.Flow.Location
import FlowGauge.Proofs.Flow.Nesting
import FlowGauge.Proofs.Flow.Validation
import FlowGauge.Proofs.Timing.LookUps

/-!
# Timing contexts

An analysis of a routine fits the routine: whatever options it was made with, its graph is the graph
of the routine but for loop marks (`FlowGraph.Pictures`), and so there is a timing context
(`TimingContext.of_eq_ok`). An index lies in one block of the graph. The two ways in which a loop
depth is looked up, in the first block that spans an index and in the last one, therefore agree.

A context that fits is also what all sections read without loss: every instruction has a row with
its depth and its cycles (`rows_eq`), and the depth in the row is the number of loops around its
block.
-/

namespace FlowGauge

/-! ### Graphs up to loop marks -/

namespace FlowGraph

/-- The graph is that of a routine, whatever its loop marks are. -/
structure Pictures (g : FlowGraph) (r : Routine) : Prop where
  cut : ∀ (k : Nat) (b : Block), g.blocks[k]? = some b → Cut r k b
  toGraph_eq : g.toGraph = (ofRoutine r).toGraph
  entry_eq : g.entry = (ofRoutine r).entry
  exits_eq : g.exits = (ofRoutine r).exits

theorem ofRoutine_pictures (r : Routine) : (ofRoutine r).Pictures r :=
  ⟨fun _ _ hb ↦ cut_of_getElem? hb, rfl, rfl, rfl⟩

/-- Loop marks do not matter. -/
theorem Pictures.markLoops {g : FlowGraph} {r : Routine} (h : g.Pictures r)
    (headers exits : BlockSet) : (g.markLoops headers exits).Pictures r := by
  refine ⟨fun k b hb ↦ ?_, (markLoops_toGraph g headers exits).trans h.toGraph_eq, h.entry_eq,
    h.exits_eq⟩
  rw [markLoops_blocks_getElem?] at hb
  obtain ⟨c, hc, rfl⟩ := Option.map_eq_some_iff.1 hb
  have hcut := h.cut k c hc
  exact ⟨hcut.id_eq, hcut.leader, hcut.stop_eq, hcut.code_eq, hcut.mem_successors,
    hcut.mem_predecessors⟩

/-- The blocks of a routine hold its instructions, one after the other. -/
theorem flatten_code (r : Routine) : ((ofRoutine r).blocks.map Block.code).flatten =
    r.instructions := by
  by_cases hempty : r.instructions = []
  · -- A block of an empty routine would stop behind its end.
    have hnil : (ofRoutine r).blocks = [] := List.eq_nil_iff_forall_not_mem.2 fun b hb ↦ by
      obtain ⟨k, hk⟩ := List.mem_iff_getElem?.1 hb
      have hcut := cut_of_getElem? hk
      have hsize : r.size = 0 := congrArg List.length hempty
      exact absurd hcut.start_lt_stop (by have := hcut.stop_le_size; omega)
    rw [hnil, hempty]
    rfl
  · exact flatMap_code r hempty

/-- The block of number `k` spans the index. -/
def Holds (g : FlowGraph) (k i : Nat) : Prop :=
  ∃ b, g.blocks[k]? = some b ∧ b.start ≤ i ∧ i < b.stop

namespace Pictures

variable {g : FlowGraph} {r : Routine} (h : g.Pictures r) {k l i : Nat}

include h

/-- **The graph has the same blocks as the graph of the routine**: at every number both have one
with the same span and instructions, or neither has one. -/
theorem block_cases (k : Nat) : g.blocks[k]? = none ∧ (ofRoutine r).blocks[k]? = none ∨
    ∃ b c, g.blocks[k]? = some b ∧ (ofRoutine r).blocks[k]? = some c ∧
      b.start = c.start ∧ b.stop = c.stop ∧ b.code = c.code := by
  have hsize : g.blocks.length = (ofRoutine r).blocks.length := congrArg Graph.size h.toGraph_eq
  rcases Nat.lt_or_ge k g.blocks.length with hlt | hge
  · have hb := List.getElem?_eq_getElem hlt
    have hc := List.getElem?_eq_getElem (hsize ▸ hlt)
    have hcut := h.cut k _ hb
    have hcut' := cut_of_getElem? hc
    have hstart := Option.some.inj (hcut.leader.symm.trans hcut'.leader)
    have hstop := hcut.stop_eq.trans hcut'.stop_eq.symm
    exact Or.inr ⟨_, _, hb, hc, hstart, hstop, by rw [hcut.code_eq, hcut'.code_eq, hstart, hstop]⟩
  · exact Or.inl ⟨List.getElem?_eq_none hge, List.getElem?_eq_none (hsize ▸ hge)⟩

/-- **Every index of the routine lies in a block, and in one only.** -/
theorem exists_holds (hi : i < r.size) : ∃ k, g.Holds k i := by
  obtain ⟨k, c, hc, hle, hlt⟩ := exists_cut hi
  rcases h.block_cases k with ⟨-, hnone⟩ | ⟨b, c', hb, hc', hstart, hstop, -⟩
  · exact absurd (hc.symm.trans hnone) (by simp)
  · obtain rfl : c' = c := Option.some.inj (hc'.symm.trans hc)
    exact ⟨k, b, hb, hstart ▸ hle, hstop ▸ hlt⟩

/-- An index lies in one block. -/
theorem holds_unique (hk : g.Holds k i) (hl : g.Holds l i) : k = l := by
  obtain ⟨b, hb, hbi, hib⟩ := hk
  obtain ⟨c, hc, hci, hic⟩ := hl
  exact Routine.cut_unique (h.cut k b hb) (h.cut l c hc) hbi hib hci hic

/-- A block that spans an index has the number of the one block that does. -/
theorem id_eq_of_spans {b : Block} (hk : g.Holds k i) (hb : b ∈ g.blocks)
    (hspans : b.start ≤ i ∧ i < b.stop) : b.id = k := by
  obtain ⟨l, hl⟩ := List.mem_iff_getElem?.1 hb
  rw [(h.cut l b hl).id_eq]
  exact h.holds_unique ⟨b, hl, hspans⟩ hk

/-- Every block of the graph ends in the routine. -/
theorem span_le (b : Block) (hb : b ∈ g.blocks) : b.start ≤ b.stop ∧ b.stop ≤ r.size := by
  obtain ⟨k, hk⟩ := List.mem_iff_getElem?.1 hb
  have hcut := h.cut k b hk
  exact ⟨Nat.le_of_lt hcut.start_lt_stop, hcut.stop_le_size⟩

theorem map_code_eq : g.blocks.map Block.code = (ofRoutine r).blocks.map Block.code := by
  refine List.ext_getElem? fun k ↦ ?_
  rw [List.getElem?_map, List.getElem?_map]
  rcases h.block_cases k with ⟨hb, hc⟩ | ⟨b, c, hb, hc, -, -, hcode⟩
  · rw [hb, hc]
  · rw [hb, hc, Option.map_some, Option.map_some, hcode]

/-- The blocks hold as many instructions as the routine. -/
theorem instructionCount_eq : g.instructionCount = r.size := by
  calc g.instructionCount
      = ((g.blocks.map Block.code).map List.length).sum := by rw [List.map_map]; rfl
    _ = r.size := by rw [h.map_code_eq, ← List.length_flatten, flatten_code]; rfl

end Pictures

end FlowGraph

namespace Analysis

variable {o : AnalysisOptions} {r : Routine} {a : Analysis}

/-- Options that are accepted ask for dominance when they ask for loops. -/
theorem eq_run_of_ofRoutine (h : ofRoutine o r = .ok a) :
    a = run o r ∧ (o.loops = true → o.dominance = true) := by
  rw [ofRoutine] at h
  rcases hcheck : o.check with e | u
  · rw [hcheck] at h
    exact absurd h (by simp [bind, Except.bind])
  · rw [hcheck] at h
    refine ⟨(Except.ok.inj h).symm, fun hloops ↦ ?_⟩
    by_contra hdominance
    rw [Bool.not_eq_true] at hdominance
    simp [AnalysisOptions.check, hloops, hdominance] at hcheck

/-- The loops of an analysis are those of the graph, if they are asked for. -/
theorem run_loops (h : o.loops = true → o.dominance = true) : (run o r).loops =
    if o.loops then Loop.find (FlowGraph.ofRoutine r) (Dominance.compute (FlowGraph.ofRoutine r))
    else [] := by
  show (if o.loops then Loop.find _ (if o.dominance then _ else _) else _) = _
  split
  · next hloops => rw [if_pos (h hloops)]
  · rfl

/-- The loops of an analysis have different headers. -/
theorem nodup_headers (h : ofRoutine o r = .ok a) : (a.loops.map Loop.header).Nodup := by
  obtain ⟨rfl, hoptions⟩ := eq_run_of_ofRoutine h
  rw [run_loops hoptions]
  split
  · rw [Loop.map_header_find]
    exact (Loop.toList_pairwise_lt _).imp Nat.ne_of_lt
  · exact List.nodup_nil

/-- **The graph of an analysis is that of the routine.** -/
theorem run_pictures (o : AnalysisOptions) (r : Routine) : (run o r).graph.Pictures r := by
  have hbare := FlowGraph.ofRoutine_pictures r
  show (if o.loops then _ else _ : FlowGraph).Pictures r
  split
  · exact hbare.markLoops _ _
  · exact hbare

/-- **The first block that spans an index is the one that holds it.** -/
theorem instructionDepth_eq {k i : Nat} (h : a.graph.Pictures r) (hk : a.graph.Holds k i) :
    a.instructionDepth i = a.loopDepth k := by
  rw [instructionDepth]
  split
  · next b hb =>
    have hspans : b.start ≤ i ∧ i < b.stop := by simpa using List.find?_some hb
    rw [h.id_eq_of_spans hk (List.mem_of_find?_eq_some hb) hspans]
  · next hnone =>
    obtain ⟨b, hb, hspans⟩ := hk
    exact absurd (List.find?_eq_none.1 hnone b (List.mem_of_getElem? hb)) (by simp [hspans])

end Analysis

namespace TimingContext

variable {r : Routine} {a : Analysis} {k i : Nat}

/-- **So is the last one.** -/
theorem depthsOf_getElem? {count : Nat} (h : a.graph.Pictures r) (hk : a.graph.Holds k i)
    (hi : i < count) : (depthsOf a count)[i]? = some (a.loopDepth k) := by
  rw [depthsOf, List.getElem?_map, List.getElem?_range hi, Option.map_some]
  split
  · next start stop depth hfound =>
    obtain ⟨b, hb, heq⟩ := List.mem_map.1 (List.mem_of_find?_eq_some hfound)
    obtain ⟨rfl, rfl, rfl⟩ : b.start = start ∧ b.stop = stop ∧ a.loopDepth b.id = depth := by
      simpa using heq
    have hspans : b.start ≤ i ∧ i < b.stop := by simpa using List.find?_some hfound
    rw [h.id_eq_of_spans hk (List.mem_reverse.1 hb) hspans]
  · next hnone =>
    obtain ⟨b, hb, hspans⟩ := hk
    have hmem := List.mem_map_of_mem (f := fun b : Block ↦ (b.start, b.stop, a.loopDepth b.id))
      (List.mem_reverse.2 (List.mem_of_getElem? hb))
    exact absurd (List.find?_eq_none.1 hnone _ hmem) (by simp [hspans])

/-- The context of a routine with an analysis that fits. -/
def fitting (r : Routine) (a : Analysis) (h : Hardware) : TimingContext where
  routine := r
  analysis := a
  hardware := h
  depths := depthsOf a r.size
  cycles := r.instructions.map (·.cycles h.variant)

/-- The list of cycles is as long as the routine, so blocks that end in the routine are covered. -/
theorem covers_fitting (h : ∀ b ∈ a.graph.blocks, b.stop ≤ r.size) (hardware : Hardware) :
    (fitting r a hardware).Covers := by
  intro b hb i _ hi
  rw [fitting, List.length_map]
  exact Nat.lt_of_lt_of_le hi (h b hb)

/-- The rows of a fitting context, whether the analysis fits or not. -/
theorem rows_fitting_eq (r : Routine) (a : Analysis) (hardware : Hardware) :
    (fitting r a hardware).rows = zipRows r.instructions (depthsOf a r.size)
      (r.instructions.map (·.cycles hardware.variant)) :=
  rows_eq (length_depthsOf a r.size) (List.length_map _)

/-- **An analysis of a routine fits the routine.** -/
theorem of_eq_ok {hardware : Hardware} (hname : a.routineName = r.name)
    (h : a.graph.Pictures r) : TimingContext.of r a hardware = .ok (fitting r a hardware) := by
  have hspans : (a.graph.blocks.find? fun b ↦ r.size < b.stop || b.stop < b.start) = none := by
    refine List.find?_eq_none.2 fun b hb ↦ ?_
    obtain ⟨hle, hsize⟩ := h.span_le b hb
    simp only [Bool.or_eq_true, decide_eq_true_eq, not_or]
    omega
  rw [TimingContext.of, if_neg (not_not.2 hname), if_neg (not_not.2 h.instructionCount_eq), hspans]
  simp only [depths?_eq fun b hb ↦ h.span_le b hb]
  rfl

/-- **A row holds an instruction, its index, and the depth and the cycles of the instruction.** -/
theorem rows_fitting (h : a.graph.Pictures r) (hardware : Hardware) :
    (fitting r a hardware).rows = r.instructions.zipIdx.map fun (code, i) ↦
      (i, code, a.instructionDepth i, code.cycles hardware.variant) := by
  refine List.ext_getElem? fun i ↦ ?_
  rw [rows_fitting_eq, zipRows, List.getElem?_map, List.getElem?_zipIdx, List.getElem?_map,
    List.getElem?_zipIdx, Nat.zero_add]
  show Option.map _ (Option.map _ (r.instructions.zip ((depthsOf a r.size).zip
    (r.instructions.map (·.cycles hardware.variant))))[i]?) = _
  by_cases hi : i < r.size
  · obtain ⟨k, hk⟩ := h.exists_holds hi
    have hcode : r.instructions[i]? = some (r.instructions.get ⟨i, hi⟩) :=
      List.getElem?_eq_getElem hi
    have hrow : (r.instructions.zip ((depthsOf a r.size).zip
        (r.instructions.map (·.cycles hardware.variant))))[i]? = some (r.instructions.get ⟨i, hi⟩,
          a.loopDepth k, (r.instructions.get ⟨i, hi⟩).cycles hardware.variant) := by
      refine List.getElem?_zip_eq_some.2 ⟨hcode, List.getElem?_zip_eq_some.2
        ⟨depthsOf_getElem? h hk hi, ?_⟩⟩
      rw [List.getElem?_map, hcode, Option.map_some]
    rw [hrow, hcode]
    simp only [Option.map_some, Analysis.instructionDepth_eq h hk]
  · have hnone : (r.instructions.zip ((depthsOf a r.size).zip
        (r.instructions.map (·.cycles hardware.variant))))[i]? = none := by
      refine List.getElem?_eq_none ?_
      rw [List.length_zip]
      exact (Nat.min_le_left ..).trans (Nat.not_lt.1 hi)
    rw [hnone, List.getElem?_eq_none (Nat.not_lt.1 hi)]
    rfl

end TimingContext

namespace CycleTiming

open TimingContext

/-- The charges of a routine, index by index. -/
theorem charges_getElem? (r : Routine) (a : Analysis) (hardware : Hardware) (i : Nat) :
    (analyze (fitting r a hardware)).charges[i]? = (r.instructions.zip ((depthsOf a r.size).zip
      (r.instructions.map (·.cycles hardware.variant))))[i]?.map fun (code, depth, cycles) ↦
        { index := i, opcode := code.opcode, cycles, loopDepth := depth } := by
  show (((fitting r a hardware).rows.map _)[i]? : Option CycleCharge) = _
  rw [rows_fitting_eq, List.getElem?_map, zipRows, List.getElem?_map, List.getElem?_zipIdx,
    Option.map_map, Option.map_map]
  simp only [Function.comp_def, Nat.zero_add]

/-- **Every instruction is charged at the depth of its block.** -/
theorem charges_depths {r : Routine} {a : Analysis} (h : a.graph.Pictures r)
    (hardware : Hardware) : (analyze (fitting r a hardware)).charges.map
      (fun charge ↦ (charge.index, charge.loopDepth)) =
        (List.range r.size).map fun i ↦ (i, a.instructionDepth i) := by
  refine List.ext_getElem? fun i ↦ ?_
  show (((fitting r a hardware).rows.map _).map _)[i]? = _
  rw [rows_fitting h, List.getElem?_map, List.getElem?_map, List.getElem?_map,
    List.getElem?_zipIdx, List.getElem?_map, Nat.zero_add]
  by_cases hi : i < r.size
  · rw [List.getElem?_eq_getElem hi, List.getElem?_range hi]
    rfl
  · rw [List.getElem?_eq_none (Nat.not_lt.1 hi), List.getElem?_eq_none (by simpa using hi)]
    rfl

/-- A loop in a loop. -/
def loopInLoop : Routine where
  name := "nested"
  instructions := [⟨0, .label, [.label "outer"], none, none, none⟩,
    ⟨1, .label, [.label "inner"], none, none, none⟩,
    ⟨2, .branchIfTrue, [.temp 0, .label "inner"], none, none, none⟩,
    ⟨3, .branchIfTrue, [.temp 1, .label "outer"], none, none, none⟩,
    ⟨4, .ret, [], none, none, none⟩]

end CycleTiming

end FlowGauge
