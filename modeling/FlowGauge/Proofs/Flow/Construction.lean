import FlowGauge.Proofs.Flow.Leaders
import FlowGauge.Proofs.Graph.Path

/-!
# The flow graph of a routine is exact

`FlowGraph.ofRoutine` cuts a routine at its leaders, and `Cut` says what the block of a number is.
Two facts about leaders carry the comparison with `Routine.Step`: the target of a jump is one, and
so is what follows an instruction that ends a block. Hence a step that is not simply to the next
instruction of the same block leaves a block at its end and enters a block at its start
(`step_iff_flows`).

The comparison goes both ways. Every step of the routine is found in the graph, inside a block or
along an edge of the same kind, and the graph has no edge that stands for no step. In particular two
transfers between the same instructions, a jump to the next instruction and going on with it, are
two edges of different kinds.
-/

namespace FlowGauge

namespace FlowGraph

variable {r : Routine}

/-! ### Blocks -/

/-- The block of number `k` of a routine, which starts at `s`, without its neighbours. -/
def bareBlock (r : Routine) (k s : Nat) : Block where
  id := k
  start := s
  stop := r.stopOf k
  code := (r.instructions.drop s).take (r.stopOf k - s)

/-- The blocks of a routine without their neighbours. -/
def bareBlocks (r : Routine) : List Block :=
  (r.leaders.zip (r.leaders.drop 1 ++ [r.size])).zipIdx.map fun ((start, stop), k) ↦
    ({ id := k, start, stop, code := (r.instructions.drop start).take (stop - start) } : Block)

/-- There is one block for each leader, in order. -/
theorem bareBlocks_getElem? (r : Routine) (k : Nat) :
    (bareBlocks r)[k]? = (r.leaders[k]?).map (bareBlock r k) := by
  have hstop : ∀ s, r.leaders[k]? = some s →
      (r.leaders.drop 1 ++ [r.size])[k]? = some (r.stopOf k) := by
    intro s hs
    have hk : k < r.leaders.length := (List.getElem?_eq_some_iff.1 hs).1
    rw [Routine.stopOf, List.getElem?_append, List.length_drop, List.getElem?_drop,
      Nat.add_comm 1 k]
    split
    · next hlt =>
      rw [List.getElem?_eq_getElem (show k + 1 < r.leaders.length by omega)]
      rfl
    · next hge =>
      rw [List.getElem?_eq_none (show r.leaders.length ≤ k + 1 by omega),
        show k - (r.leaders.length - 1) = 0 from by omega]
      rfl
  rw [bareBlocks, List.getElem?_map, List.getElem?_zipIdx]
  rcases hs : r.leaders[k]? with - | s
  · have hlen : r.leaders.length ≤ k := List.getElem?_eq_none_iff.1 hs
    rw [List.getElem?_eq_none (by rw [List.length_zip]; omega)]
    rfl
  · have hzip : (r.leaders.zip (r.leaders.drop 1 ++ [r.size]))[k]? = some (s, r.stopOf k) :=
      List.getElem?_zip_eq_some.2 ⟨hs, hstop s hs⟩
    rw [hzip, Nat.zero_add]
    rfl

/-- The edges are those that the last instructions of the blocks give. -/
theorem ofRoutine_edges (r : Routine) : (ofRoutine r).edges = (bareBlocks r).flatMap fun b ↦
    match b.terminator? with
    | some last => edgesAfter r r.leaders b.id last
    | none => [] :=
  rfl

theorem ofRoutine_blocks (r : Routine) : (ofRoutine r).blocks = (bareBlocks r).map fun b ↦
    { b with
      predecessors := .ofList (((ofRoutine r).edges.filter (·.target == b.id)).map Edge.source)
      successors := .ofList (((ofRoutine r).edges.filter (·.source == b.id)).map Edge.target) } :=
  rfl

/-- What the block of number `k` of a routine is. -/
structure Cut (r : Routine) (k : Nat) (b : Block) : Prop where
  id_eq : b.id = k
  leader : r.leaders[k]? = some b.start
  stop_eq : b.stop = r.stopOf k
  code_eq : b.code = (r.instructions.drop b.start).take (b.stop - b.start)
  mem_successors : ∀ v, v ∈ b.successors ↔ ∃ kind, ⟨k, v, kind⟩ ∈ (ofRoutine r).edges
  mem_predecessors : ∀ v, v ∈ b.predecessors ↔ ∃ kind, ⟨v, k, kind⟩ ∈ (ofRoutine r).edges

/-- The neighbours of a block in a list of edges: the far ends of the edges it is at the near end
of. -/
theorem mem_ofList_far_iff {edges : List Edge} {near far : Edge → BlockId} {k v : BlockId} :
    v ∈ (.ofList ((edges.filter (near · == k)).map far) : BlockSet) ↔
      ∃ e ∈ edges, near e = k ∧ far e = v := by
  simp only [Std.ExtTreeSet.mem_ofList, List.contains_iff_mem, List.mem_map, List.mem_filter,
    beq_iff_eq, and_assoc]

/-- A block of the graph is a cut of the routine at two leaders. -/
theorem cut_of_getElem? {k : Nat} {b : Block} (h : (ofRoutine r).blocks[k]? = some b) :
    Cut r k b := by
  rw [ofRoutine_blocks, List.getElem?_map, bareBlocks_getElem?, Option.map_map] at h
  obtain ⟨s, hs, rfl⟩ := Option.map_eq_some_iff.1 h
  refine ⟨rfl, hs, rfl, rfl, fun v ↦ mem_ofList_far_iff.trans ?_,
    fun v ↦ mem_ofList_far_iff.trans ?_⟩
  · constructor
    · rintro ⟨⟨source, target, kind⟩, hmem, rfl, rfl⟩
      exact ⟨kind, hmem⟩
    · rintro ⟨kind, hmem⟩
      exact ⟨_, hmem, rfl, rfl⟩
  · constructor
    · rintro ⟨⟨source, target, kind⟩, hmem, rfl, rfl⟩
      exact ⟨kind, hmem⟩
    · rintro ⟨kind, hmem⟩
      exact ⟨_, hmem, rfl, rfl⟩

/-- Every leader starts a block. -/
theorem exists_block {k s : Nat} (hs : r.leaders[k]? = some s) :
    ∃ b, (ofRoutine r).blocks[k]? = some b ∧ b.start = s := by
  rw [ofRoutine_blocks, List.getElem?_map, bareBlocks_getElem?, hs]
  exact ⟨_, rfl, rfl⟩

/-- There are as many blocks as leaders. -/
@[simp]
theorem ofRoutine_size (r : Routine) : (ofRoutine r).size = r.leaders.length := by
  rw [size, ofRoutine_blocks, List.length_map, bareBlocks, List.length_map, List.length_zipIdx,
    List.length_zip, List.length_append, List.length_drop, List.length_singleton]
  omega

namespace Cut

variable {k : Nat} {b : Block}

/-- No block is empty. -/
theorem start_lt_stop (h : Cut r k b) : b.start < b.stop := by
  rw [h.stop_eq]
  exact Routine.lt_stopOf h.leader

/-- No block reaches beyond the routine. -/
theorem stop_le_size (h : Cut r k b) : b.stop ≤ r.size := by
  rw [h.stop_eq]
  exact r.stopOf_le_size k

theorem code_length (h : Cut r k b) : b.code.length = b.stop - b.start := by
  have h₁ := h.start_lt_stop
  have h₂ : b.stop ≤ r.instructions.length := h.stop_le_size
  rw [h.code_eq, List.length_take, List.length_drop]
  omega

/-- The instructions of a block are those of the routine at its indices. -/
theorem code_getElem? (h : Cut r k b) {i : Nat} (hi : b.start + i < b.stop) :
    b.code[i]? = r.instructions[b.start + i]? := by
  rw [h.code_eq, List.getElem?_take, if_pos (by omega), List.getElem?_drop]

/-- The last instruction of a block is the one before its end. -/
theorem terminator?_eq (h : Cut r k b) : b.terminator? = r.instructions[b.stop - 1]? := by
  have hlt := h.start_lt_stop
  rw [Block.terminator?, List.getLast?_eq_getElem?, h.code_length, h.code_getElem? (by omega),
    show b.start + (b.stop - b.start - 1) = b.stop - 1 from by omega]

end Cut

/-! ### Edges -/

/-- **An edge comes from the last instruction of its source.** -/
theorem mem_edges_iff {e : Edge} : e ∈ (ofRoutine r).edges ↔ ∃ b last,
    (ofRoutine r).blocks[e.source]? = some b ∧ r.instructions[b.stop - 1]? = some last ∧
      e ∈ edgesAfter r r.leaders e.source last := by
  rw [ofRoutine_edges, List.mem_flatMap]
  constructor
  · rintro ⟨bare, hbare, he⟩
    obtain ⟨k, hk⟩ := List.mem_iff_getElem?.1 hbare
    rw [bareBlocks_getElem?] at hk
    obtain ⟨s, hs, rfl⟩ := Option.map_eq_some_iff.1 hk
    obtain ⟨b, hb, rfl⟩ := exists_block hs
    have hcut := cut_of_getElem? hb
    have hterm : (bareBlock r k b.start).terminator? = r.instructions[b.stop - 1]? := by
      rw [← hcut.terminator?_eq, Block.terminator?, Block.terminator?, hcut.code_eq, hcut.stop_eq]
      rfl
    rcases hlast : r.instructions[b.stop - 1]? with - | last
    · rw [hterm, hlast] at he
      exact absurd he List.not_mem_nil
    · rw [hterm, hlast] at he
      obtain rfl : e.source = k := (mem_edgesAfter_iff.1 he).1
      exact ⟨b, last, hb, hlast, he⟩
  · rintro ⟨b, last, hb, hlast, he⟩
    have hcut := cut_of_getElem? hb
    refine ⟨bareBlock r e.source b.start, ?_, ?_⟩
    · refine List.mem_iff_getElem?.2 ⟨e.source, ?_⟩
      rw [bareBlocks_getElem?, hcut.leader]
      rfl
    · have hterm : (bareBlock r e.source b.start).terminator? = some last := by
        rw [← hlast, ← hcut.terminator?_eq, Block.terminator?, Block.terminator?, hcut.code_eq,
          hcut.stop_eq]
        rfl
      rw [hterm]
      exact he

/-- The target of a taken jump is the block that starts there. -/
theorem bind_idxOf?_leaders_eq_some_iff {c : Instruction} {l : BlockId} :
    (r.target? c).bind r.leaders.idxOf? = some l ↔
      ∃ t, r.target? c = some t ∧ r.leaders[l]? = some t := by
  simp only [Option.bind_eq_some_iff]
  refine exists_congr fun t ↦ and_congr_right fun _ ↦ ?_
  rw [List.idxOf?_eq_some_iff]
  constructor
  · rintro ⟨hl, rfl, -⟩
    exact List.getElem?_eq_getElem hl
  · intro hl
    obtain ⟨hlt, rfl⟩ := List.getElem?_eq_some_iff.1 hl
    refine ⟨hlt, rfl, fun j hj heq ↦ ?_⟩
    have := Routine.leader_position_inj (List.getElem?_eq_some_iff.2 ⟨by omega, heq⟩) hl
    omega

/-- Every block but the last has a next one. -/
theorem next?_eq_some_iff {count k l : Nat} :
    next? count k = some l ↔ l = k + 1 ∧ k + 1 < count := by
  unfold next?
  split
  · next h => exact ⟨fun heq ↦ ⟨(Option.some.inj heq).symm, h⟩, fun heq ↦ by rw [heq.1]⟩
  · next h => exact ⟨fun heq ↦ absurd heq (by simp), fun heq ↦ absurd heq.2 h⟩

/-- Edges start at blocks of the graph. -/
theorem source_lt_size {e : Edge} (h : e ∈ (ofRoutine r).edges) :
    e.source < (ofRoutine r).size := by
  obtain ⟨b, last, hb, -, -⟩ := mem_edges_iff.1 h
  exact (List.getElem?_eq_some_iff.1 hb).1

/-- Edges end at blocks of the graph. -/
theorem target_lt_size {e : Edge} (h : e ∈ (ofRoutine r).edges) :
    e.target < (ofRoutine r).size := by
  obtain ⟨b, last, -, -, he⟩ := mem_edges_iff.1 h
  rw [ofRoutine_size]
  obtain ⟨-, ⟨-, htaken⟩ | ⟨-, hnext⟩⟩ := mem_edgesAfter_iff.1 he
  · obtain ⟨t, -, ht⟩ := bind_idxOf?_leaders_eq_some_iff.1 htaken
    exact (List.getElem?_eq_some_iff.1 ht).1
  · obtain ⟨heq, hlt⟩ := next?_eq_some_iff.1 hnext
    rw [heq]
    exact hlt

/-! ### Steps inside and between blocks -/

/-- Control goes from one index to another, as the graph tells it: on to the next index of one
block, or along an edge from the last index of a block to the first index of a block. -/
def Flows (g : FlowGraph) (i : Nat) (kind : EdgeKind) (j : Nat) : Prop :=
  (kind = .fallThrough ∧ j = i + 1 ∧ ∃ b ∈ g.blocks, b.start ≤ i ∧ j < b.stop) ∨
    ∃ b ∈ g.blocks, ∃ c ∈ g.blocks, i + 1 = b.stop ∧ j = c.start ∧ ⟨b.id, c.id, kind⟩ ∈ g.edges

/-- An instruction that is not the last of its block does not end a block. -/
theorem not_endsBlock_of_inside {k i : Nat} {b : Block} {c : Instruction} (hcut : Cut r k b)
    (hi : b.start ≤ i) (hstop : i + 1 < b.stop) (hc : r.instructions[i]? = some c) :
    c.opcode.endsBlock = false := by
  by_contra hends
  have hmem : i + 1 ∈ r.leaders := Routine.mem_leaders_iff.2 ⟨by
    have := hcut.stop_le_size
    omega, Or.inr (Or.inr ⟨i, c, rfl, hc, by simpa using hends⟩)⟩
  exact Routine.not_mem_leaders_of_inside hcut.leader (by omega) (hcut.stop_eq ▸ hstop) hmem

/-- A step from the inside of a block goes to the next index. -/
theorem step_inside_iff {k i j : Nat} {b : Block} {kind : EdgeKind} (hcut : Cut r k b)
    (hi : b.start ≤ i) (hstop : i + 1 < b.stop) :
    r.Step i kind j ↔ kind = .fallThrough ∧ j = i + 1 := by
  have hsize := hcut.stop_le_size
  have hlt : i < r.instructions.length := by
    show i < r.size
    omega
  obtain ⟨c, hc⟩ : ∃ c, r.instructions[i]? = some c := ⟨_, List.getElem?_eq_getElem hlt⟩
  obtain ⟨htaken, hnext⟩ :=
    Opcode.kinds_of_not_endsBlock (not_endsBlock_of_inside hcut hi hstop hc)
  rw [Routine.step_iff]
  constructor
  · rintro ⟨c', hc', h⟩
    obtain rfl : c = c' := Option.some.inj (hc.symm.trans hc')
    rw [htaken, hnext] at h
    obtain ⟨h, -⟩ | ⟨h, -, rfl⟩ := h
    · exact absurd h (by simp)
    · exact ⟨(Option.some.inj h).symm, rfl⟩
  · rintro ⟨rfl, rfl⟩
    exact ⟨c, hc, Or.inr ⟨hnext, by omega, rfl⟩⟩

/-- **A step from the last index of a block follows an edge of the block**, and the other way
round. -/
theorem step_last_iff {k j : Nat} {b : Block} {kind : EdgeKind}
    (hb : (ofRoutine r).blocks[k]? = some b) : r.Step (b.stop - 1) kind j ↔
      ∃ l c, (ofRoutine r).blocks[l]? = some c ∧ j = c.start ∧
        ⟨k, l, kind⟩ ∈ (ofRoutine r).edges := by
  have hcut := cut_of_getElem? hb
  have hlt := hcut.start_lt_stop
  have hsucc : b.stop - 1 + 1 = r.stopOf k := by
    rw [← hcut.stop_eq]
    omega
  rw [Routine.step_iff]
  constructor
  · rintro ⟨last, hlast, h⟩
    have hedge : ∀ l, (last.opcode.takenKind? = some kind ∧
          (r.target? last).bind r.leaders.idxOf? = some l ∨
        last.opcode.nextKind? = some kind ∧ next? r.leaders.length k = some l) →
        ⟨k, l, kind⟩ ∈ (ofRoutine r).edges := fun l hl ↦
      mem_edges_iff.2 ⟨b, last, hb, hlast, mem_edgesAfter_iff.2 ⟨rfl, hl⟩⟩
    obtain ⟨hkind, htarget⟩ | ⟨hkind, hsize, rfl⟩ := h
    · -- The target of a jump is a leader.
      have hmem : j ∈ r.leaders := Routine.mem_leaders_iff.2 ⟨Routine.target?_lt_size htarget,
        Or.inr (Or.inl ⟨last, List.mem_of_getElem? hlast, htarget⟩)⟩
      obtain ⟨l, hl⟩ := List.mem_iff_getElem?.1 hmem
      obtain ⟨c, hc, rfl⟩ := exists_block hl
      exact ⟨l, c, hc, rfl, hedge l
        (Or.inl ⟨hkind, bind_idxOf?_leaders_eq_some_iff.2 ⟨_, htarget, hl⟩⟩)⟩
    · -- The index behind the block is the next leader.
      rw [hsucc] at hsize ⊢
      have hl := Routine.leader_of_stopOf_lt hsize
      obtain ⟨c, hc, hstart⟩ := exists_block hl
      exact ⟨k + 1, c, hc, hstart.symm, hedge (k + 1) (Or.inr ⟨hkind,
        next?_eq_some_iff.2 ⟨rfl, (List.getElem?_eq_some_iff.1 hl).1⟩⟩)⟩
  · rintro ⟨l, c, hc, rfl, he⟩
    obtain ⟨b', last, hb', hlast, he⟩ := mem_edges_iff.1 he
    obtain rfl : b = b' := Option.some.inj (hb.symm.trans hb')
    have hcut' := cut_of_getElem? hc
    refine ⟨last, hlast, ?_⟩
    obtain ⟨-, ⟨hkind, htaken⟩ | ⟨hkind, hnext⟩⟩ := mem_edgesAfter_iff.1 he
    · obtain ⟨t, htarget, ht⟩ := bind_idxOf?_leaders_eq_some_iff.1 htaken
      exact Or.inl ⟨hkind, by rw [htarget, ← ht, ← hcut'.leader]⟩
    · obtain ⟨heq, -⟩ := next?_eq_some_iff.1 hnext
      have hl : r.leaders[k + 1]? = some c.start := by
        rw [← hcut'.leader]
        exact congrArg _ heq.symm
      have hstop : r.stopOf k = c.start := by rw [Routine.stopOf, hl, Option.getD_some]
      exact Or.inr ⟨hkind, by rw [hsucc, hstop]; exact Routine.lt_size_of_leader hl,
        by rw [hsucc, hstop]⟩

/-- Every index of the routine lies in a block. -/
theorem exists_cut {i : Nat} (hi : i < r.size) : ∃ (k : Nat) (b : Block),
    (ofRoutine r).blocks[k]? = some b ∧ b.start ≤ i ∧ i < b.stop := by
  obtain ⟨k, s, hs, hle, hlt⟩ := Routine.exists_leader hi
  obtain ⟨b, hb, rfl⟩ := exists_block hs
  exact ⟨k, b, hb, hle, (cut_of_getElem? hb).stop_eq ▸ hlt⟩

/-- **The steps of a routine are what its graph tells.** -/
theorem step_iff_flows {i j : Nat} {kind : EdgeKind} :
    r.Step i kind j ↔ (ofRoutine r).Flows i kind j := by
  constructor
  · intro h
    obtain ⟨k, b, hb, hle, hlt⟩ := exists_cut h.lt_size.1
    rcases Nat.lt_or_ge (i + 1) b.stop with hstop | hstop
    · obtain ⟨rfl, rfl⟩ := (step_inside_iff (cut_of_getElem? hb) hle hstop).1 h
      exact Or.inl ⟨rfl, rfl, b, List.mem_of_getElem? hb, hle, hstop⟩
    · obtain rfl : i = b.stop - 1 := by omega
      obtain ⟨l, c, hc, rfl, he⟩ := (step_last_iff hb).1 h
      refine Or.inr ⟨b, List.mem_of_getElem? hb, c, List.mem_of_getElem? hc, by omega, rfl, ?_⟩
      rw [(cut_of_getElem? hb).id_eq, (cut_of_getElem? hc).id_eq]
      exact he
  · rintro (⟨rfl, rfl, b, hb, hle, hlt⟩ | ⟨b, hb, c, hc, hstop, rfl, he⟩)
    · obtain ⟨k, hk⟩ := List.mem_iff_getElem?.1 hb
      exact (step_inside_iff (cut_of_getElem? hk) hle hlt).2 ⟨rfl, rfl⟩
    · obtain ⟨k, hk⟩ := List.mem_iff_getElem?.1 hb
      obtain ⟨l, hl⟩ := List.mem_iff_getElem?.1 hc
      rw [(cut_of_getElem? hk).id_eq, (cut_of_getElem? hl).id_eq] at he
      obtain rfl : i = b.stop - 1 := by omega
      exact (step_last_iff hk).2 ⟨l, c, hl, rfl, he⟩

/-! ### The graph of the blocks -/

theorem mem_successors_iff {g : FlowGraph} {u v : Nat} :
    v ∈ g.successors u ↔ v < g.size ∧ ∃ b, g.blocks[u]? = some b ∧ v ∈ b.successors := by
  unfold successors block?
  rcases g.blocks[u]? with - | b
  · simp
  · simp [Std.ExtTreeSet.mem_toList, and_comm]

theorem mem_predecessors_iff {g : FlowGraph} {u v : Nat} :
    v ∈ g.predecessors u ↔ v < g.size ∧ ∃ b, g.blocks[u]? = some b ∧ v ∈ b.predecessors := by
  unfold predecessors block?
  rcases g.blocks[u]? with - | b
  · simp
  · simp [Std.ExtTreeSet.mem_toList, and_comm]

/-- In the graph of the blocks a block is joined to its successors. -/
theorem edge_iff_mem_successors {g : FlowGraph} {u v : Nat} :
    g.toGraph.Edge u v ↔ v ∈ g.successors u := by
  refine ⟨fun h ↦ h.2.2, fun h ↦ ?_⟩
  obtain ⟨hv, b, hb, -⟩ := mem_successors_iff.1 h
  exact ⟨(List.getElem?_eq_some_iff.1 hb).1, hv, h⟩

/-- Blocks are joined in the graph when there is an edge of some kind. -/
theorem toGraph_edge_iff {u v : Nat} : (ofRoutine r).toGraph.Edge u v ↔
    ∃ kind, ⟨u, v, kind⟩ ∈ (ofRoutine r).edges := by
  constructor
  · rintro ⟨-, -, hv⟩
    obtain ⟨-, b, hb, hmem⟩ := mem_successors_iff.1 hv
    exact ((cut_of_getElem? hb).mem_successors v).1 hmem
  · rintro ⟨kind, he⟩
    obtain ⟨b, -, hb, -, -⟩ := mem_edges_iff.1 he
    exact ⟨source_lt_size he, target_lt_size he, mem_successors_iff.2
      ⟨target_lt_size he, b, hb, ((cut_of_getElem? hb).mem_successors v).2 ⟨kind, he⟩⟩⟩

/-- **In the graph of a routine the predecessors mirror the successors.** -/
theorem ofRoutine_coherent (r : Routine) : (ofRoutine r).toGraph.Coherent := by
  intro u v hu hv
  have hedge := toGraph_edge_iff (r := r) (u := u) (v := v)
  constructor
  · intro hmem
    obtain ⟨kind, he⟩ := hedge.1 ⟨hu, hv, hmem⟩
    obtain ⟨b, hb⟩ : ∃ b, (ofRoutine r).blocks[v]? = some b := ⟨_, List.getElem?_eq_getElem hv⟩
    exact mem_predecessors_iff.2
      ⟨hu, b, hb, ((cut_of_getElem? hb).mem_predecessors u).2 ⟨kind, he⟩⟩
  · intro hmem
    obtain ⟨-, b, hb, hmem⟩ := mem_predecessors_iff.1 hmem
    exact (hedge.2 (((cut_of_getElem? hb).mem_predecessors u).1 hmem)).2.2

/-- Execution starts at the first block, if there is one. -/
theorem ofRoutine_entry (r : Routine) :
    (ofRoutine r).entry = if (ofRoutine r).size = 0 then none else some 0 := by
  show (if (ofRoutine r).blocks.isEmpty then none else some 0) = _
  simp only [List.isEmpty_iff, size, List.length_eq_zero_iff]

/-! ### The partition into blocks -/

/-- The segments of a list between ascending indices join to the list from the first index on. -/
theorem flatMap_segments {α : Type} (l : List α) (starts : List Nat) :
    ∀ a, (a :: starts).Pairwise (· < ·) → (∀ s ∈ a :: starts, s < l.length) →
      ((a :: starts).zip (starts ++ [l.length])).flatMap
        (fun p ↦ (l.drop p.1).take (p.2 - p.1)) = l.drop a := by
  induction starts with
  | nil =>
    intro a _ _
    have hlen : (l.drop a).length ≤ l.length - a := Nat.le_of_eq List.length_drop
    simp [List.take_of_length_le hlen]
  | cons b starts ih =>
    intro a hsorted hlt
    have hab : a < b := (List.pairwise_cons.1 hsorted).1 b (List.mem_cons_self ..)
    have hrest := ih b (List.pairwise_cons.1 hsorted).2 fun s hs ↦ hlt s (List.mem_cons_of_mem a hs)
    rw [List.cons_append, List.zip_cons_cons, List.flatMap_cons, hrest]
    show (l.drop a).take (b - a) ++ l.drop b = l.drop a
    have hdrop : l.drop b = (l.drop a).drop (b - a) := by
      rw [List.drop_drop, show a + (b - a) = b from by omega]
    rw [hdrop, List.take_append_drop]

/-- **Block after block, the code is the code of the routine.** -/
theorem flatMap_code (r : Routine) (h : r.instructions ≠ []) :
    (ofRoutine r).blocks.flatMap Block.code = r.instructions := by
  have hpos : 0 < r.size := List.length_pos_of_ne_nil h
  obtain ⟨rest, hrest⟩ : ∃ rest, r.leaders = 0 :: rest := by
    have hzero := Routine.leaders_zero hpos
    rcases hl : r.leaders with - | ⟨a, rest⟩
    · rw [hl] at hzero
      exact absurd hzero (by simp)
    · rw [hl] at hzero
      exact ⟨rest, by rw [show a = 0 from Option.some.inj hzero]⟩
  have hsegments := flatMap_segments r.instructions rest 0 (hrest ▸ r.leaders_pairwise)
    fun s hs ↦ (Routine.mem_leaders_iff.1 (hrest ▸ hs)).1
  have hzip : r.leaders.zip (r.leaders.drop 1 ++ [r.size]) =
      (0 :: rest).zip (rest ++ [r.instructions.length]) := by
    rw [hrest]
    rfl
  calc (ofRoutine r).blocks.flatMap Block.code
      = (bareBlocks r).flatMap Block.code := by rw [ofRoutine_blocks, List.flatMap_map]
    _ = ((r.leaders.zip (r.leaders.drop 1 ++ [r.size])).zipIdx.map Prod.fst).flatMap
          (fun p ↦ (r.instructions.drop p.1).take (p.2 - p.1)) := by
        rw [bareBlocks, List.flatMap_map, List.flatMap_map]
    _ = r.instructions.drop 0 := by rw [List.zipIdx_map_fst, hzip, hsegments]

/-- The blocks of a graph partition a routine: they are numbered by position, hold at least one
instruction each, cover consecutive ranges of indices from zero to the number of instructions, and
hold the instructions of the routine in order. -/
structure Partitions (g : FlowGraph) (r : Routine) : Prop where
  id_eq : ∀ (k : Nat) (b : Block), g.blocks[k]? = some b → b.id = k
  code_ne_nil : ∀ b ∈ g.blocks, b.code ≠ []
  range_eq : ∀ b ∈ g.blocks, b.stop = b.start + b.code.length
  first : g.blocks.head?.map Block.start = some 0
  consecutive : ∀ (k : Nat) (b c : Block), g.blocks[k]? = some b → g.blocks[k + 1]? = some c →
    b.stop = c.start
  last : g.blocks.getLast?.map Block.stop = some r.size
  code_eq : g.blocks.flatMap Block.code = r.instructions

/-- **The blocks partition the routine.** -/
theorem ofRoutine_partitions (h : r.instructions ≠ []) : (ofRoutine r).Partitions r := by
  have hpos : 0 < r.size := List.length_pos_of_ne_nil h
  obtain ⟨b₀, hb₀, hstart⟩ := exists_block (Routine.leaders_zero hpos)
  have hrange : ∀ b ∈ (ofRoutine r).blocks, b.start < b.stop ∧
      b.code.length = b.stop - b.start := by
    intro b hb
    obtain ⟨k, hk⟩ := List.mem_iff_getElem?.1 hb
    exact ⟨(cut_of_getElem? hk).start_lt_stop, (cut_of_getElem? hk).code_length⟩
  refine
    { id_eq := fun k b hb ↦ (cut_of_getElem? hb).id_eq
      code_ne_nil := ?nonempty
      range_eq := ?range
      first := ?first
      consecutive := ?consecutive
      last := ?last
      code_eq := flatMap_code r h }
  case nonempty =>
    intro b hb
    obtain ⟨hlt, hlen⟩ := hrange b hb
    exact List.ne_nil_of_length_pos (by omega)
  case range =>
    intro b hb
    obtain ⟨hlt, hlen⟩ := hrange b hb
    omega
  case first => rw [List.head?_eq_getElem?, hb₀, Option.map_some, hstart]
  case consecutive =>
    intro k b c hb hc
    rw [(cut_of_getElem? hb).stop_eq, Routine.stopOf, (cut_of_getElem? hc).leader,
      Option.getD_some]
  case last =>
    -- No leader follows the last one, so the last block stops at the end of the routine.
    have hlen : (ofRoutine r).blocks.length = r.leaders.length := ofRoutine_size r
    have hlt : 0 < (ofRoutine r).blocks.length := (List.getElem?_eq_some_iff.1 hb₀).1
    obtain ⟨b, hb⟩ : ∃ b, (ofRoutine r).blocks[(ofRoutine r).blocks.length - 1]? = some b :=
      ⟨_, List.getElem?_eq_getElem (by omega)⟩
    rw [List.getLast?_eq_getElem?, hb, Option.map_some, (cut_of_getElem? hb).stop_eq,
      Routine.stopOf, List.getElem?_eq_none (by omega), Option.getD_none]

/-- **The flow graph of a routine is exact.** Its blocks partition the instructions, and control
goes from one instruction to another exactly as the blocks and the edges between them tell, kinds of
transfer included. -/
theorem ofRoutine_exact (r : Routine) (h : r.instructions ≠ []) :
    (ofRoutine r).Partitions r ∧
      ∀ i kind j, r.Step i kind j ↔ (ofRoutine r).Flows i kind j :=
  ⟨ofRoutine_partitions h, fun _ _ _ ↦ step_iff_flows⟩

/-- A loop over a label that is defined twice, entered from above and left by a jump to nowhere. -/
def twiceLabelled : Routine where
  name := "twice"
  instructions := [⟨0, .nop, [], none, none, none⟩, ⟨1, .label, [.label "top"], none, none, none⟩,
    ⟨2, .branchIfFalse, [.temp 0, .label "top"], none, none, none⟩,
    ⟨3, .label, [.label "top"], none, none, none⟩,
    ⟨4, .branch, [.label "nowhere"], none, none, none⟩]

theorem ofRoutine_exact_twiceLabelled : twiceLabelled.instructions ≠ [] ∧
    (ofRoutine twiceLabelled).Partitions twiceLabelled ∧
      ∀ i kind j, twiceLabelled.Step i kind j ↔ (ofRoutine twiceLabelled).Flows i kind j :=
  ⟨by decide, ofRoutine_exact twiceLabelled (by decide)⟩

end FlowGraph

end FlowGauge
