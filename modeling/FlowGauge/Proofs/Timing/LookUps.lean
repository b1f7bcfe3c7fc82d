import FlowGauge.Timing.CycleTiming
import FlowGauge.Timing.Recommendations
import Mathlib.Data.List.GetD
import Mathlib.Data.List.Induction
import Mathlib.Order.Basic
import Mathlib.Tactic.SplitIfs

/-!
# Look-ups of a timing context

A look-up that may fail reads one list at the indices that another list names. When all of them lie
inside, the reading is an operation on whole lists, which later proofs rewrite with: writing the
depths block after block is looking up the last block that spans an index (`depths?_eq`), reading
two lists at the indices of the instructions is zipping them (`rows?_eq`), and reading a span index
by index is cutting it out (`blockCycles?_eq_some`).

Nothing here asks where the analysis comes from. What is needed is that the lists are as long as the
routine and that the blocks end inside of them.
-/

namespace FlowGauge.TimingContext

variable {a : Analysis} {c : TimingContext}

/-! ### Depths -/

/-- The loop depth of every index below `count`: that of the last block that spans it. -/
def depthsOf (a : Analysis) (count : Nat) : List Nat :=
  let spans := a.graph.blocks.reverse.map fun b ↦ (b.start, b.stop, a.loopDepth b.id)
  (List.range count).map fun i ↦
    match spans.find? fun (start, stop, _) ↦ start ≤ i && i < stop with
    | some (_, _, depth) => depth
    | none => 0

/-- Every instruction has a depth, also one that no block spans. -/
theorem length_depthsOf (a : Analysis) (count : Nat) : (depthsOf a count).length = count := by
  simp [depthsOf]

/-- Depths given index by index stay so when a span is written. -/
theorem fill?_map_range {depth start stop count : Nat} (f : Nat → Nat) (h : start ≤ stop)
    (hcount : stop ≤ count) : fill? depth start stop ((List.range count).map f) =
      some ((List.range count).map fun i ↦ if start ≤ i && i < stop then depth else f i) := by
  rw [fill?, if_pos ⟨h, by simpa using hcount⟩, Option.some_inj]
  refine List.ext_getElem (by simp; omega) fun i _ hi ↦ ?_
  rw [List.length_map, List.length_range] at hi
  simp only [List.getElem_append, List.getElem_take, List.getElem_drop, List.getElem_map,
    List.getElem_replicate, List.getElem_range, List.length_append, List.length_take,
    List.length_map, List.length_range, List.length_replicate]
  -- An index lies before the span, in it or behind it.
  split_ifs <;> grind

/-- **Writing the depths block after block is looking up the last block that spans an index.** -/
theorem depths?_eq {count : Nat} (h : ∀ b ∈ a.graph.blocks, b.start ≤ b.stop ∧ b.stop ≤ count) :
    depths? a count = some (depthsOf a count) := by
  rw [depths?, depthsOf]
  generalize a.graph.blocks = blocks at h ⊢
  induction blocks using List.reverseRecOn with
  | nil =>
    have hzero : List.replicate count 0 = (List.range count).map fun _ ↦ 0 := by
      rw [List.map_const', List.length_range]
    rw [List.foldlM_nil, hzero]
    rfl
  | append_singleton blocks b ih =>
    -- The last block is written last, and it is the first one that a look-up tries.
    have hlast := h b (by simp)
    rw [List.foldlM_append, ih fun b' hb' ↦ h b' (List.mem_append_left [b] hb')]
    show (fill? _ _ _ _ >>= pure) = _
    rw [bind_pure, fill?_map_range _ hlast.1 hlast.2, List.reverse_concat, Option.some_inj]
    refine List.map_congr_left fun i _ ↦ ?_
    rw [List.map_cons, List.find?_cons]
    cases hi : decide (b.start ≤ i) && decide (i < b.stop) <;> simp only [hi] <;> rfl

/-! ### Rows -/

/-- The rows of some instructions, their depths and their cycles. -/
def zipRows (code : List Instruction) (depths cycles : List Nat) :
    List (Nat × Instruction × Nat × Nat) :=
  (code.zip (depths.zip cycles)).zipIdx.map fun ((i, depth, cycles), index) ↦
    (index, i, depth, cycles)

/-- Reading two lists at the indices of a third, from some index on, is zipping them. -/
theorem mapM_zipIdx_eq {depths cycles : List Nat} (code : List Instruction) (k : Nat)
    (hdepths : k + code.length ≤ depths.length) (hcycles : k + code.length ≤ cycles.length) :
    ((code.zipIdx k).mapM fun (i, index) ↦ do
      return (index, i, ← depths[index]?, ← cycles[index]?)) =
    some (((code.zip ((depths.drop k).zip (cycles.drop k))).zipIdx k).map
      fun ((i, depth, cycles), index) ↦ (index, i, depth, cycles)) := by
  induction code generalizing k with
  | nil => rfl
  | cons i code ih =>
    rw [List.length_cons] at hdepths hcycles
    have hk : k < depths.length := by omega
    have hk' : k < cycles.length := by omega
    rw [List.zipIdx_cons, List.mapM_cons, ih (k + 1) (by omega) (by omega),
      List.drop_eq_getElem_cons hk, List.drop_eq_getElem_cons hk']
    simp only [List.getElem?_eq_getElem hk, List.getElem?_eq_getElem hk']
    rfl

/-- **Every instruction has a row when the lists are as long as the routine.** -/
theorem rows?_eq (hdepths : c.depths.length = c.routine.size)
    (hcycles : c.cycles.length = c.routine.size) :
    c.rows? = some (zipRows c.routine.instructions c.depths c.cycles) := by
  have hread := mapM_zipIdx_eq c.routine.instructions 0
    (by rw [hdepths, Nat.zero_add]; exact Nat.le_refl _)
    (by rw [hcycles, Nat.zero_add]; exact Nat.le_refl _)
  rwa [List.drop_zero, List.drop_zero] at hread

theorem rows_eq (hdepths : c.depths.length = c.routine.size)
    (hcycles : c.cycles.length = c.routine.size) :
    c.rows = zipRows c.routine.instructions c.depths c.cycles := by
  rw [rows, rows?_eq hdepths hcycles, Option.getD_some]

/-! ### Blocks and latches -/

/-- A reading that succeeds at every index yields a list. -/
theorem mapM_eq_some {α β : Type} {f : α → Option β} {g : α → β} {xs : List α}
    (h : ∀ x ∈ xs, f x = some (g x)) : xs.mapM f = some (xs.map g) := by
  induction xs with
  | nil => rfl
  | cons x xs ih =>
    rw [List.mapM_cons, h x List.mem_cons_self, ih fun y hy ↦ h y (.tail x hy)]
    rfl

/-- Reading a span index by index is cutting it out. -/
theorem mapM_range'_getElem? {ns : List Nat} {start count : Nat} (h : start + count ≤ ns.length) :
    (List.range' start count).mapM (ns[·]?) = some ((ns.drop start).take count) := by
  induction count generalizing start with
  | zero => rfl
  | succ count ih =>
    have hstart : start < ns.length := by omega
    rw [List.range'_succ, List.mapM_cons, List.getElem?_eq_getElem hstart, ih (by omega),
      List.drop_eq_getElem_cons hstart, List.take_succ_cons]
    rfl

/-- The list of cycles has an entry for every index that a block spans. -/
def Covers (c : TimingContext) : Prop :=
  ∀ b ∈ c.analysis.graph.blocks, ∀ i, b.start ≤ i → i < b.stop → i < c.cycles.length

/-- **The cycles of a block are those of the indices it spans**, cut out of the list. -/
theorem Covers.blockCycles?_eq_some (h : c.Covers) (b : BlockId) : c.blockCycles? b =
    some ((c.analysis.graph.block? b).elim 0 fun block ↦
      total ((c.cycles.drop block.start).take (block.stop - block.start))) := by
  rw [TimingContext.blockCycles?]
  split
  · next hnone => rw [hnone, Option.elim_none]
  · next block hblock =>
    rw [hblock, Option.elim_some]
    rcases Nat.lt_or_ge block.start block.stop with hlt | hge
    · have hlast := h block (List.mem_of_getElem? hblock) (block.stop - 1) (by omega) (by omega)
      rw [mapM_range'_getElem? (by omega)]
      rfl
    · rw [Nat.sub_eq_zero_of_le hge]
      rfl

theorem Covers.blockCycles_eq (h : c.Covers) (b : BlockId) : c.blockCycles b =
    (c.analysis.graph.block? b).elim 0 fun block ↦
      total ((c.cycles.drop block.start).take (block.stop - block.start)) := by
  rw [blockCycles, h.blockCycles?_eq_some b, Option.getD_some]

/-- The cycles of a block can be looked up when the list covers it. -/
theorem Covers.blockCycles? (h : c.Covers) (b : BlockId) :
    c.blockCycles? b = some (c.blockCycles b) := by
  rw [h.blockCycles_eq, h.blockCycles?_eq_some]

/-- **The cycles at the latches of any loop can be looked up**, when the blocks end inside. -/
theorem exists_latchCycles? (h : ∀ b ∈ c.analysis.graph.blocks, b.stop ≤ c.cycles.length)
    (l : Loop) : ∃ reads, c.latchCycles? l = some reads := by
  refine ⟨_, mapM_eq_some (g := fun b ↦ c.cycles.getD (b.stop - 1) 0) fun b hb ↦ ?_⟩
  obtain ⟨hb, hstop⟩ := List.mem_filter.1 hb
  obtain ⟨k, -, hk⟩ := List.mem_filterMap.1 hb
  have hne : b.stop ≠ 0 := by simpa using hstop
  have hle := h b (List.mem_of_getElem? hk)
  have hlast : b.stop - 1 < c.cycles.length := by omega
  rw [List.getElem?_eq_getElem hlast, List.getD_eq_getElem _ _ hlast]

end FlowGauge.TimingContext
