import FlowGauge.DataFlow.Access
import FlowGauge.Proofs.Flow.Construction
import FlowGauge.Proofs.Graph.DepthFirst

/-!
# Located instructions

The analyses of a routine work on its instructions block by block, each named by its location.
`Routine.Reached` says that an instruction stands at a location in a block that is reached from the
entry. The located instructions of the reached blocks are these, each listed once
(`mem_located_iff_reached`, `located_pairwise`), and an index has one location (`Reached.unique`).
From an instruction control goes to the next one of its block, or from the last one of its block to
the first one of a successor (`next_cases`), and so it stays in reached blocks (`ReachedAt.next`).

## Blocks and indices

A location names a block and an index. The index alone would do, as blocks do not overlap; the block
is kept because the solutions of data-flow problems are per block. `Reached.unique` lets later
proofs pass between the two, and `next_cases` is the only place where it is decided what the next
location is.
-/

namespace FlowGauge

namespace FlowGraph

variable {g : FlowGraph}

/-! ### Reached blocks -/

/-- The block is reached from the entry. -/
def Reached (g : FlowGraph) (b : Nat) : Prop :=
  ∃ entry, g.entry = some entry ∧ g.toGraph.Reaches entry b

/-- Reverse postorder lists what the entry reaches. -/
theorem mem_reversePostorder_iff {b : Nat} : b ∈ g.reversePostorder ↔
    ∃ entry, g.entry = some entry ∧ g.toGraph.Reaches entry b := by
  unfold reversePostorder
  rcases g.entry with - | entry
  · simp
  · simp

/-- It lists each block once. -/
theorem reversePostorder_nodup (g : FlowGraph) : g.reversePostorder.Nodup := by
  unfold reversePostorder
  rcases g.entry with - | entry
  · exact List.nodup_nil
  · exact g.toGraph.reversePostorder_nodup entry

theorem lt_size_of_mem_reversePostorder {b : Nat} (h : b ∈ g.reversePostorder) : b < g.size := by
  obtain ⟨entry, -, hreach⟩ := mem_reversePostorder_iff.1 h
  exact hreach.lt_size

theorem mem_reversePostorder_ofRoutine_iff {r : Routine} {b : Nat} :
    b ∈ (ofRoutine r).reversePostorder ↔ (ofRoutine r).toGraph.Reaches 0 b := by
  rw [mem_reversePostorder_iff, ofRoutine_entry]
  split
  · next hsize =>
    refine ⟨fun ⟨_, h, _⟩ ↦ absurd h (by simp), fun h ↦ ?_⟩
    have hlt : b < (ofRoutine r).size := h.lt_size
    omega
  · simp

/-! ### Located instructions of a block -/

/-- The instructions of a block are located one after the other, from its start on. -/
theorem located_singleton_getElem? {k : Nat} {b : Block} (hb : g.blocks[k]? = some b) (j : Nat) :
    (g.located [k])[j]? = (b.code[j]?).map fun c ↦ (⟨k, b.start + j⟩, c) := by
  have hlocated : g.located [k] = b.indexed.map fun p ↦ (⟨k, p.1⟩, p.2) := by
    rw [located, List.flatMap_singleton, block?, hb, Option.elim_some]
  rw [hlocated, List.getElem?_map, Block.indexed, List.getElem?_map, List.getElem?_zipIdx,
    Option.map_map, Option.map_map]
  simp only [Function.comp_def, Nat.zero_add]

theorem located_eq_flatMap (g : FlowGraph) (blocks : List Nat) :
    g.located blocks = blocks.flatMap fun b ↦ g.located [b] := by
  simp only [located, List.flatMap_singleton]

/-- The located instructions of a block are in that block, by ascending index. -/
theorem located_singleton_pairwise (g : FlowGraph) (k : Nat) :
    (∀ p ∈ g.located [k], p.1.block = k) ∧
      (g.located [k]).Pairwise fun p q ↦ p.1.index < q.1.index := by
  rcases hb : g.blocks[k]? with - | b
  · have hnil : g.located [k] = [] := by
      rw [located, List.flatMap_singleton, block?, hb, Option.elim_none]
    rw [hnil]
    exact ⟨fun p hp ↦ absurd hp List.not_mem_nil, .nil⟩
  · have hat : ∀ (j : Nat) (p : Location × Instruction), (g.located [k])[j]? = some p →
        p.1 = ⟨k, b.start + j⟩ := by
      intro j p hp
      rw [located_singleton_getElem? hb] at hp
      obtain ⟨c, -, rfl⟩ := Option.map_eq_some_iff.1 hp
      rfl
    constructor
    · intro p hp
      obtain ⟨j, hj⟩ := List.mem_iff_getElem?.1 hp
      rw [hat j p hj]
    · rw [List.pairwise_iff_getElem]
      intro i j hi hj hij
      rw [hat i _ (List.getElem?_eq_getElem hi), hat j _ (List.getElem?_eq_getElem hj)]
      exact Nat.add_lt_add_left hij _

theorem mem_located_iff {blocks : List Nat} {l : Location} {c : Instruction} :
    (l, c) ∈ g.located blocks ↔ l.block ∈ blocks ∧ (l, c) ∈ g.located [l.block] := by
  rw [located_eq_flatMap, List.mem_flatMap]
  constructor
  · rintro ⟨b, hb, hmem⟩
    obtain rfl : l.block = b := (located_singleton_pairwise g b).1 _ hmem
    exact ⟨hb, hmem⟩
  · exact fun ⟨hb, hmem⟩ ↦ ⟨l.block, hb, hmem⟩

/-- No location is listed twice. -/
theorem located_pairwise {blocks : List Nat} (hnodup : blocks.Nodup) :
    (g.located blocks).Pairwise fun p q ↦ p.1 ≠ q.1 := by
  rw [located_eq_flatMap, List.pairwise_flatMap]
  constructor
  · intro k _
    exact (located_singleton_pairwise g k).2.imp fun hlt heq ↦
      Nat.ne_of_lt hlt (congrArg Location.index heq)
  · refine hnodup.imp fun {k l} hkl p hp q hq heq ↦ hkl ?_
    rw [← (located_singleton_pairwise g k).1 p hp, ← (located_singleton_pairwise g l).1 q hq, heq]

/-- A location has one instruction. -/
theorem located_unique {blocks : List Nat} (hnodup : blocks.Nodup) {l : Location}
    {c c' : Instruction} (h : (l, c) ∈ g.located blocks) (h' : (l, c') ∈ g.located blocks) :
    c = c' := by
  have hlocations : ((g.located blocks).map Prod.fst).Nodup :=
    List.pairwise_map.2 (located_pairwise hnodup)
  exact congrArg Prod.snd (List.inj_on_of_nodup_map hlocations h h' rfl)

end FlowGraph

namespace Routine

variable {r : Routine}

/-! ### Reached instructions -/

/-- The instruction stands at the location, in a block that is reached from the entry. -/
structure Reached (r : Routine) (l : Location) (c : Instruction) : Prop where
  block_reached : (FlowGraph.ofRoutine r).toGraph.Reaches 0 l.block
  inside : ∃ b, (FlowGraph.ofRoutine r).blocks[l.block]? = some b ∧ b.start ≤ l.index ∧
    l.index < b.stop
  code : r.instructions[l.index]? = some c

/-- Control can go from one index to another. -/
def Next (r : Routine) (i j : Nat) : Prop :=
  ∃ kind, r.Step i kind j

/-- A block ends before a later one starts. -/
theorem stop_le_start {k l : Nat} {b c : Block} (hk : FlowGraph.Cut r k b)
    (hl : FlowGraph.Cut r l c) (hlt : k < l) : b.stop ≤ c.start := by
  by_contra hinside
  have hstart := (leader_lt_leader_iff hk.leader hl.leader).2 hlt
  exact absurd (List.mem_of_getElem? hl.leader)
    (not_mem_leaders_of_inside hk.leader hstart (hk.stop_eq ▸ Nat.lt_of_not_le hinside))

/-- An index lies in one block. -/
theorem cut_unique {k l i : Nat} {b c : Block} (hk : FlowGraph.Cut r k b)
    (hl : FlowGraph.Cut r l c) (hbi : b.start ≤ i) (hib : i < b.stop) (hci : c.start ≤ i)
    (hic : i < c.stop) : k = l := by
  rcases Nat.lt_trichotomy k l with hlt | heq | hlt
  · have := stop_le_start hk hl hlt
    omega
  · exact heq
  · have := stop_le_start hl hk hlt
    omega

/-- An index lies in one block. -/
theorem block_unique {k l i : Nat} {b c : Block}
    (hb : (FlowGraph.ofRoutine r).blocks[k]? = some b)
    (hc : (FlowGraph.ofRoutine r).blocks[l]? = some c) (hbi : b.start ≤ i) (hib : i < b.stop)
    (hci : c.start ≤ i) (hic : i < c.stop) : k = l :=
  cut_unique (FlowGraph.cut_of_getElem? hb) (FlowGraph.cut_of_getElem? hc) hbi hib hci hic

/-- An index has one location. -/
theorem Reached.unique {l l' : Location} {c c' : Instruction} (h : r.Reached l c)
    (h' : r.Reached l' c') (hindex : l.index = l'.index) : l = l' ∧ c = c' := by
  obtain ⟨b, hb, hle, hlt⟩ := h.inside
  obtain ⟨b', hb', hle', hlt'⟩ := h'.inside
  have hblock : l.block = l'.block :=
    block_unique hb hb' hle hlt (hindex ▸ hle') (hindex ▸ hlt')
  refine ⟨?_, Option.some.inj (h.code.symm.trans (hindex ▸ h'.code))⟩
  cases l
  cases l'
  simp_all

theorem mem_located_singleton_iff {k : Nat} {b : Block}
    (hb : (FlowGraph.ofRoutine r).blocks[k]? = some b) {i : Nat} {c : Instruction} :
    (⟨k, i⟩, c) ∈ (FlowGraph.ofRoutine r).located [k] ↔
      b.start ≤ i ∧ i < b.stop ∧ r.instructions[i]? = some c := by
  have hcut := FlowGraph.cut_of_getElem? hb
  rw [List.mem_iff_getElem?]
  constructor
  · rintro ⟨j, hj⟩
    rw [FlowGraph.located_singleton_getElem? hb] at hj
    obtain ⟨c', hc', heq⟩ := Option.map_eq_some_iff.1 hj
    obtain ⟨rfl, rfl⟩ : b.start + j = i ∧ c' = c := by simpa using heq
    have hlen := hcut.code_length
    have hlt := (List.getElem?_eq_some_iff.1 hc').1
    have hstop : b.start + j < b.stop := by omega
    exact ⟨by omega, hstop, (hcut.code_getElem? hstop).symm.trans hc'⟩
  · rintro ⟨hle, hlt, hc⟩
    refine ⟨i - b.start, ?_⟩
    have hi : b.start + (i - b.start) = i := by omega
    rw [FlowGraph.located_singleton_getElem? hb, hcut.code_getElem? (by omega), hi, hc]
    rfl

/-- **The located instructions of the reached blocks are the reached instructions.** -/
theorem mem_located_iff_reached {l : Location} {c : Instruction} :
    (l, c) ∈ (FlowGraph.ofRoutine r).located (FlowGraph.ofRoutine r).reversePostorder ↔
      r.Reached l c := by
  rw [FlowGraph.mem_located_iff, FlowGraph.mem_reversePostorder_ofRoutine_iff]
  constructor
  · rintro ⟨hreach, hmem⟩
    obtain ⟨b, hb⟩ : ∃ b, (FlowGraph.ofRoutine r).blocks[l.block]? = some b :=
      ⟨_, List.getElem?_eq_getElem hreach.lt_size⟩
    obtain ⟨hle, hlt, hc⟩ := (mem_located_singleton_iff hb).1 hmem
    exact ⟨hreach, ⟨b, hb, hle, hlt⟩, hc⟩
  · rintro ⟨hreach, ⟨b, hb, hle, hlt⟩, hc⟩
    exact ⟨hreach, (mem_located_singleton_iff hb).2 ⟨hle, hlt, hc⟩⟩

/-! ### Control between located instructions -/

/-- **Control goes on inside a block or from its end to the start of a successor.** -/
theorem next_cases {k i j : Nat} {b : Block} (hb : (FlowGraph.ofRoutine r).blocks[k]? = some b)
    (hle : b.start ≤ i) (hlt : i < b.stop) : r.Next i j ↔
      i + 1 < b.stop ∧ j = i + 1 ∨ i + 1 = b.stop ∧ ∃ l c,
        (FlowGraph.ofRoutine r).blocks[l]? = some c ∧ j = c.start ∧
          (FlowGraph.ofRoutine r).toGraph.Edge k l := by
  have hcut := FlowGraph.cut_of_getElem? hb
  rcases Nat.lt_or_ge (i + 1) b.stop with hstop | hstop
  · have hstep : r.Next i j ↔ j = i + 1 := by
      simp only [Next, FlowGraph.step_inside_iff hcut hle hstop, exists_eq_left]
    rw [hstep]
    exact ⟨fun hj ↦ Or.inl ⟨hstop, hj⟩, fun h ↦ h.elim And.right fun hend ↦ by omega⟩
  · obtain rfl : i = b.stop - 1 := by omega
    have hend : b.stop - 1 + 1 = b.stop := by omega
    simp only [Next, FlowGraph.step_last_iff hb, FlowGraph.toGraph_edge_iff]
    constructor
    · rintro ⟨kind, l, c, hc, rfl, he⟩
      exact Or.inr ⟨hend, l, c, hc, rfl, kind, he⟩
    · rintro (⟨h, -⟩ | ⟨-, l, c, hc, rfl, kind, he⟩)
      · omega
      · exact ⟨kind, l, c, hc, rfl, he⟩

/-- The instruction at an index lies in a block that is reached from the entry. -/
def ReachedAt (r : Routine) (i : Nat) : Prop :=
  ∃ l c, r.Reached l c ∧ l.index = i

/-- What lies in a reached block is reached. -/
theorem reachedAt_of_block {k i : Nat} {b : Block}
    (hk : (FlowGraph.ofRoutine r).toGraph.Reaches 0 k)
    (hb : (FlowGraph.ofRoutine r).blocks[k]? = some b) (hle : b.start ≤ i) (hlt : i < b.stop) :
    r.ReachedAt i := by
  have hsize : i < r.size := Nat.lt_of_lt_of_le hlt (FlowGraph.cut_of_getElem? hb).stop_le_size
  exact ⟨⟨k, i⟩, _, ⟨hk, ⟨b, hb, hle, hlt⟩, List.getElem?_eq_getElem hsize⟩, rfl⟩

theorem reachedAt_zero (h : 0 < r.size) : r.ReachedAt 0 := by
  obtain ⟨b, hb, hstart⟩ := FlowGraph.exists_block (leaders_zero h)
  have hstop : 0 < b.stop := hstart ▸ (FlowGraph.cut_of_getElem? hb).start_lt_stop
  exact reachedAt_of_block (.refl (List.getElem?_eq_some_iff.1 hb).1) hb (Nat.le_of_eq hstart) hstop

/-- Control stays in reached blocks. -/
theorem ReachedAt.next {i j : Nat} (h : r.ReachedAt i) (hnext : r.Next i j) : r.ReachedAt j := by
  obtain ⟨l, c, hreached, rfl⟩ := h
  obtain ⟨b, hb, hle, hlt⟩ := hreached.inside
  rcases (next_cases hb hle hlt).1 hnext with ⟨hstop, rfl⟩ | ⟨-, k, b', hb', rfl, hedge⟩
  · exact reachedAt_of_block hreached.block_reached hb (Nat.le_succ_of_le hle) hstop
  · exact reachedAt_of_block (hreached.block_reached.step hedge) hb' (Nat.le_refl _)
      (FlowGraph.cut_of_getElem? hb').start_lt_stop

/-- The first block starts at the first instruction. -/
theorem start_of_first {b : Block} (hb : (FlowGraph.ofRoutine r).blocks[0]? = some b) :
    b.start = 0 := by
  have hcut := FlowGraph.cut_of_getElem? hb
  have hpos : 0 < r.size :=
    Nat.zero_lt_of_lt (Nat.lt_of_lt_of_le hcut.start_lt_stop hcut.stop_le_size)
  exact Option.some.inj (hcut.leader.symm.trans (leaders_zero hpos))

/-- **Facts about reached instructions are proved forwards along control**, from the first one. -/
theorem ReachedAt.induction {motive : Nat → Prop} (first : motive 0)
    (step : ∀ i j, r.ReachedAt i → r.Next i j → motive i → motive j) {i : Nat}
    (h : r.ReachedAt i) : motive i := by
  -- Inside a reached block control goes from each instruction to the next one.
  have hinside : ∀ (k : Nat) (b : Block), (FlowGraph.ofRoutine r).toGraph.Reaches 0 k →
      (FlowGraph.ofRoutine r).blocks[k]? = some b → motive b.start →
      ∀ offset, b.start + offset < b.stop → motive (b.start + offset) := by
    intro k b hk hb hstart offset
    induction offset with
    | zero => exact fun _ ↦ hstart
    | succ offset ih =>
      intro hlt
      refine step _ _ (reachedAt_of_block hk hb (Nat.le_add_right ..) (by omega)) ?_
        (ih (by omega))
      exact (next_cases hb (Nat.le_add_right ..) (by omega)).2 (Or.inl ⟨hlt, rfl⟩)
  -- To the start of a block it comes from the end of a predecessor.
  have hstart : ∀ k, (FlowGraph.ofRoutine r).toGraph.Reaches 0 k → ∀ b,
      (FlowGraph.ofRoutine r).blocks[k]? = some b → motive b.start := by
    intro k hk
    induction hk with
    | refl hlt => exact fun b hb ↦ start_of_first hb ▸ first
    | @step k l hk hedge ih =>
      intro c hc
      obtain ⟨b, hb⟩ : ∃ b, (FlowGraph.ofRoutine r).blocks[k]? = some b :=
        ⟨_, List.getElem?_eq_getElem hk.lt_size⟩
      have hspan := (FlowGraph.cut_of_getElem? hb).start_lt_stop
      have hlast := hinside k b hk hb (ih b hb) (b.stop - 1 - b.start) (by omega)
      rw [show b.start + (b.stop - 1 - b.start) = b.stop - 1 from by omega] at hlast
      refine step _ _ (reachedAt_of_block hk hb (by omega) (by omega)) ?_ hlast
      exact (next_cases hb (by omega) (by omega)).2 (Or.inr ⟨by omega, l, c, hc, rfl, hedge⟩)
  obtain ⟨l, c, hreached, rfl⟩ := h
  obtain ⟨b, hb, hle, hlt⟩ := hreached.inside
  rw [show l.index = b.start + (l.index - b.start) from by omega] at hlt ⊢
  exact hinside _ b hreached.block_reached hb (hstart _ hreached.block_reached b hb) _ hlt

/-- All instructions of a path from a reached one are reached. -/
theorem ReachedAt.of_mem_path {i : Nat} {π : List Nat} (h : r.ReachedAt i)
    (hchain : (i :: π).IsChain r.Next) {m : Nat} (hm : m ∈ i :: π) : r.ReachedAt m := by
  induction π generalizing i with
  | nil => exact List.mem_singleton.1 hm ▸ h
  | cons j π ih =>
    obtain ⟨hnext, hchain⟩ := List.isChain_cons_cons.1 hchain
    rcases List.mem_cons.1 hm with rfl | hm
    · exact h
    · exact ih (h.next hnext) hchain hm

end Routine

end FlowGauge
