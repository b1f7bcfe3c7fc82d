import FlowGauge.Proofs.DataFlow.Definitions
import Mathlib.Data.List.Chain

/-!
# Definitions reach along paths

`Routine.Carries` is the meaning of reaching, in terms of single instructions: control can go from
a definition to an instruction along a path on which nothing in between writes the variable. The
solution of the block-level problem, replayed inside each block, holds a definition at an
instruction exactly when the definition is carried to it (`contains_stateAt_iff`).

* What is held is carried, because the solution is the least one: that a definition leaves a block
  along a carrying path is closed under the transfer functions (`leaves_closed`).
* What is carried is held, by induction on the path: a step inside a block is a step of the replay,
  and a step between blocks is an equation of the solution (`exists_stateAt_of_carries`).

Paths here go from an instruction to the next one, so nothing is assumed about how a routine is cut
into blocks. A definition is carried past an instruction that reads its variable, and past one that
writes another; only a write of the same variable stops it, and that of the definition itself when
it comes round again.
-/

namespace FlowGauge

namespace Instruction

/-- The instruction writes the variable: by its explicit result if it has one, and otherwise by the
first operand of an opcode that defines it. -/
def Writes (i : Instruction) (v : String) : Prop :=
  ∃ o, o.key? = some v ∧ (i.result = some o ∨
    i.result = none ∧ i.opcode.definesFirstOperand = true ∧ i.operands[0]? = some o)

/-- What an instruction defines is what it writes. -/
theorem defined?_eq_some_iff {i : Instruction} {v : String} : i.defined? = some v ↔ i.Writes v := by
  rw [defined?, Option.bind_eq_some_iff, definition?, Writes]
  rcases i.result with - | o
  · by_cases hop : i.opcode.definesFirstOperand = true
    · simp [hop, List.head?_eq_getElem?, and_comm]
    · simp [hop]
  · simp

end Instruction

namespace Routine

variable {r : Routine} {v : String} {d m u : Nat}

/-! ### Carrying paths -/

/-- The instruction at an index writes the variable. -/
def WritesAt (r : Routine) (v : String) (m : Nat) : Prop :=
  ∃ c, r.instructions[m]? = some c ∧ c.Writes v

/-- Control can go from `d` to `u` along a path on which no instruction strictly between the two
writes the variable. -/
def Carries (r : Routine) (v : String) (d u : Nat) : Prop :=
  ∃ π : List Nat, (d :: (π ++ [u])).IsChain r.Next ∧ ∀ m ∈ π, ¬r.WritesAt v m

/-- The value of the variable that `d` has written is still there behind `m`. -/
def Leaves (r : Routine) (v : String) (d m : Nat) : Prop :=
  m = d ∨ r.Carries v d m ∧ ¬r.WritesAt v m

/-- What leaves an instruction is carried to the next one. -/
theorem Leaves.next (h : r.Leaves v d m) (hnext : r.Next m u) : r.Carries v d u := by
  rcases h with rfl | ⟨⟨π, hchain, hfree⟩, hm⟩
  · exact ⟨[], by simpa using hnext, fun _ h ↦ absurd h List.not_mem_nil⟩
  · refine ⟨π ++ [m], ?_, fun x hx ↦ ?_⟩
    · have hall : ((d :: π) ++ m :: u :: []).IsChain r.Next :=
        List.isChain_append_cons_cons.2 ⟨hchain, hnext, List.isChain_singleton u⟩
      simpa using hall
    · rcases List.mem_append.1 hx with hx | hx
      · exact hfree x hx
      · exact List.mem_singleton.1 hx ▸ hm

/-- **Facts about what is carried are proved along the path.** -/
theorem Carries.induction {motive : Nat → Prop} (start : ∀ u, r.Next d u → motive u)
    (step : ∀ m u, motive m → ¬r.WritesAt v m → r.Next m u → motive u)
    (h : r.Carries v d u) : motive u := by
  obtain ⟨π, hchain, hfree⟩ := h
  induction π using List.reverseRecOn generalizing u with
  | nil => exact start u (by simpa using hchain)
  | append_singleton π m ih =>
    have hsplit : ((d :: π) ++ m :: u :: []).IsChain r.Next := by simpa using hchain
    obtain ⟨hinit, hnext, -⟩ := List.isChain_append_cons_cons.1 hsplit
    refine step m u (ih hinit fun x hx ↦ hfree x (List.mem_append_left _ hx)) ?_ hnext
    exact hfree m (List.mem_append_right _ (List.mem_singleton_self m))

end Routine

namespace Reaching

open Routine FlowGraph

variable {r : Routine}

/-! ### The solution of a routine -/

/-- The definitions of the reached blocks. -/
def definitionsIn (r : Routine) : List Definition :=
  definitions (ofRoutine r) (ofRoutine r).reversePostorder

/-- The solution of the problem of reaching definitions. -/
def solution (r : Routine) : GenKill.Solution :=
  (problem (definitionsIn r) (ofRoutine r).size).solve (ofRoutine r) .forward
    (definitionsIn r).length

/-- The definitions that reach the start of a block. -/
def incoming (r : Routine) (b : Nat) : BitSet :=
  (solution r).incoming[b]?.getD (.empty (definitionsIn r).length)

/-- The definitions that reach the instruction at an offset of a block. -/
def stateAt (r : Routine) (b offset : Nat) : BitSet :=
  flow (definitionsIn r) (incoming r b) (((ofRoutine r).located [b]).take offset)

/-- In front of its first instruction a block has what comes in. -/
theorem stateAt_zero (r : Routine) (b : Nat) : stateAt r b 0 = incoming r b := by
  rw [stateAt, List.take_zero]
  rfl

theorem definitionsIn_distinct (r : Routine) : Distinct (definitionsIn r) :=
  definitions_distinct (ofRoutine r).reversePostorder_nodup

/-- Definitions are the writes of reached instructions. -/
theorem mem_definitionsIn_iff {l : Location} {v : String} :
    (l, v) ∈ definitionsIn r ↔ ∃ c, r.Reached l c ∧ c.Writes v := by
  simp only [definitionsIn, mem_definitions_iff, mem_located_iff_reached,
    Instruction.defined?_eq_some_iff]

theorem solution_solves (r : Routine) : (problem (definitionsIn r) (ofRoutine r).size).Solves
    (ofRoutine r).size (definitionsIn r).length (ofRoutine r).reversePostorder
    (GenKill.sourcesOf (ofRoutine r) .forward) (solution r) :=
  GenKill.solve_solves (ofRoutine_coherent r) (problem_fits _ _) .forward

/-- What comes in is what the reached predecessors pass on. -/
theorem incoming_eq_meet {b : Nat} (hb : (ofRoutine r).toGraph.Reaches 0 b) :
    incoming r b = GenKill.meet (definitionsIn r).length (solution r)
      (GenKill.sourcesOf (ofRoutine r) .forward b) := by
  rw [incoming, (solution_solves r).incoming_eq b (mem_reversePostorder_ofRoutine_iff.2 hb),
    Option.getD_some]

/-- **What reaches the start of a block comes out of a reached predecessor.** -/
theorem incoming_spec {b : Nat} (hb : (ofRoutine r).toGraph.Reaches 0 b) :
    (incoming r b).Fits (definitionsIn r).length ∧ ∀ i, (incoming r b).contains i = true ↔
      ∃ p, (ofRoutine r).toGraph.Edge p b ∧ (ofRoutine r).toGraph.Reaches 0 p ∧
        (solution r).out p i = true := by
  obtain ⟨hfits, hmem⟩ :=
    (solution_solves r).fits.meet_spec (GenKill.sourcesOf (ofRoutine r) .forward b)
  rw [incoming_eq_meet hb]
  refine ⟨hfits, fun i ↦ (hmem i).trans (exists_congr fun p ↦ ?_)⟩
  rw [GenKill.mem_sourcesOf_forward_iff, mem_reversePostorder_ofRoutine_iff, and_assoc]
  constructor
  · intro ⟨hpred, hp, hout⟩
    have hsucc := (ofRoutine_coherent r p b hp.lt_size hb.lt_size).2 hpred
    exact ⟨⟨hp.lt_size, hb.lt_size, hsucc⟩, hp, hout⟩
  · intro ⟨hedge, hp, hout⟩
    exact ⟨(ofRoutine_coherent r p b hp.lt_size hb.lt_size).1 hedge.2.2, hp, hout⟩

/-- **What comes out of a block is left by the replay of the whole block.** -/
theorem out_iff {b i : Nat} (hb : (ofRoutine r).toGraph.Reaches 0 b) :
    (solution r).out b i = true ↔
      (flow (definitionsIn r) (incoming r b) ((ofRoutine r).located [b])).contains i = true := by
  have hmem := mem_reversePostorder_ofRoutine_iff.2 hb
  have htransfer := transfer_eq_flow (ofRoutine r).reversePostorder_nodup hmem hb.lt_size
    (incoming_spec hb).1
  rw [GenKill.Solution.out, (solution_solves r).outgoing_eq b hmem, ← incoming_eq_meet hb]
  show ((problem (definitionsIn r) _).transfer b (incoming r b)).contains i = true ↔ _
  rw [definitionsIn, htransfer]

/-! ### Inside a block -/

section Block

variable {k : Nat} {b : Block} {s : BitSet} {i : Nat} {d : Location} {v : String}

/-- The instruction at an offset of a block. -/
theorem exists_located (hb : (ofRoutine r).blocks[k]? = some b) {offset : Nat}
    (hlt : b.start + offset < b.stop) : ∃ c, r.instructions[b.start + offset]? = some c ∧
      ((ofRoutine r).located [k])[offset]? = some (⟨k, b.start + offset⟩, c) := by
  have hcut := cut_of_getElem? hb
  have hsize : b.start + offset < r.instructions.length :=
    Nat.lt_of_lt_of_le hlt hcut.stop_le_size
  refine ⟨_, List.getElem?_eq_getElem hsize, ?_⟩
  rw [located_singleton_getElem? hb, hcut.code_getElem? hlt, List.getElem?_eq_getElem hsize]
  rfl

/-- One more instruction is one more step of the replay. -/
theorem flow_take_succ {all : List Definition} {code : List (Location × Instruction)}
    {offset : Nat} {l : Location} {c : Instruction} (h : code[offset]? = some (l, c)) :
    flow all s (code.take (offset + 1)) = after all (flow all s (code.take offset)) l c := by
  rw [flow, List.take_add_one, h, List.foldl_append]
  rfl

/-- Offsets count the instructions of a block. -/
theorem take_length (hb : (ofRoutine r).blocks[k]? = some b) :
    ((ofRoutine r).located [k]).take (b.stop - b.start) = (ofRoutine r).located [k] := by
  refine List.take_of_length_le (List.getElem?_eq_none_iff.1 ?_)
  have hlen := (cut_of_getElem? hb).code_length
  rw [located_singleton_getElem? hb, List.getElem?_eq_none (by omega)]
  rfl

theorem definitionsIn_lists (hk : (ofRoutine r).toGraph.Reaches 0 k) :
    ∀ p ∈ (ofRoutine r).located [k], Lists (definitionsIn r) p.1 p.2 := by
  intro p hp
  refine definitions_lists (ofRoutine r).reversePostorder_nodup (mem_located_iff.2 ?_)
  obtain rfl := (located_singleton_pairwise (ofRoutine r) k).1 p hp
  exact ⟨mem_reversePostorder_ofRoutine_iff.2 hk, hp⟩

theorem flow_take_fits (hk : (ofRoutine r).toGraph.Reaches 0 k)
    (hs : s.Fits (definitionsIn r).length) (offset : Nat) :
    (flow (definitionsIn r) s (((ofRoutine r).located [k]).take offset)).Fits
      (definitionsIn r).length :=
  flow_fits (definitionsIn_distinct r)
    (fun p hp ↦ definitionsIn_lists hk p (List.mem_of_mem_take hp)) hs

/-- **One instruction of the replay.** -/
theorem contains_flow_succ (hk : (ofRoutine r).toGraph.Reaches 0 k)
    (hb : (ofRoutine r).blocks[k]? = some b) (hs : s.Fits (definitionsIn r).length)
    (hi : (definitionsIn r)[i]? = some (d, v)) {offset : Nat}
    (hlt : b.start + offset < b.stop) :
    (flow (definitionsIn r) s (((ofRoutine r).located [k]).take (offset + 1))).contains i = true ↔
      d = ⟨k, b.start + offset⟩ ∨
        (flow (definitionsIn r) s (((ofRoutine r).located [k]).take offset)).contains i = true ∧
          ¬r.WritesAt v (b.start + offset) := by
  obtain ⟨c, hc, hlocated⟩ := exists_located hb hlt
  have hlists := definitionsIn_lists hk _ (List.mem_of_getElem? hlocated)
  have hwrites : r.WritesAt v (b.start + offset) ↔ c.defined? = some v := by
    rw [WritesAt, hc, Instruction.defined?_eq_some_iff]
    simp
  rw [flow_take_succ hlocated, hwrites]
  exact (after_spec (definitionsIn_distinct r) hlists (flow_take_fits hk hs offset)).2 i d v hi

/-- **A replay of carried definitions leaves carried definitions.** -/
theorem carries_of_flow (hk : (ofRoutine r).toGraph.Reaches 0 k)
    (hb : (ofRoutine r).blocks[k]? = some b) (hs : s.Fits (definitionsIn r).length)
    (hi : (definitionsIn r)[i]? = some (d, v))
    (hstart : s.contains i = true → r.Carries v d.index b.start) (offset : Nat) :
    b.start + offset < b.stop →
      (flow (definitionsIn r) s (((ofRoutine r).located [k]).take offset)).contains i = true →
      r.Carries v d.index (b.start + offset) := by
  induction offset with
  | zero => exact fun _ ↦ hstart
  | succ offset ih =>
    intro hlt hcontains
    have hlt' : b.start + offset < b.stop := by omega
    have hnext : r.Next (b.start + offset) (b.start + (offset + 1)) :=
      (next_cases hb (Nat.le_add_right ..) hlt').2 (Or.inl ⟨by omega, by omega⟩)
    rcases (contains_flow_succ hk hb hs hi hlt').1 hcontains with rfl | ⟨hbefore, hfree⟩
    · exact Leaves.next (Or.inl rfl) hnext
    · exact Leaves.next (Or.inr ⟨ih hlt' hbefore, hfree⟩) hnext

/-- **What the replay of a block holds has been carried there**, if what came in had been carried to
its start. -/
theorem leaves_of_flow (hk : (ofRoutine r).toGraph.Reaches 0 k)
    (hb : (ofRoutine r).blocks[k]? = some b) (hs : s.Fits (definitionsIn r).length)
    (hi : (definitionsIn r)[i]? = some (d, v))
    (hstart : s.contains i = true → r.Carries v d.index b.start)
    (hcontains : (flow (definitionsIn r) s ((ofRoutine r).located [k])).contains i = true) :
    r.Leaves v d.index (b.stop - 1) := by
  have hlt := (cut_of_getElem? hb).start_lt_stop
  obtain ⟨offset, hoffset⟩ : ∃ offset, b.stop - b.start = offset + 1 :=
    ⟨b.stop - b.start - 1, by omega⟩
  have hlast : b.stop - 1 = b.start + offset := by omega
  rw [← take_length hb, hoffset] at hcontains
  rw [hlast]
  rcases (contains_flow_succ hk hb hs hi (by omega)).1 hcontains with rfl | ⟨hbefore, hfree⟩
  · exact Or.inl rfl
  · exact Or.inr ⟨carries_of_flow hk hb hs hi hstart offset (by omega) hbefore, hfree⟩

end Block

/-! ### Held is carried -/

/-- Behind the block, the definition is still there along a carrying path. -/
def LeavesBlock (r : Routine) (k i : Nat) : Prop :=
  ∀ (b : Block) (d : Location) (v : String), (ofRoutine r).blocks[k]? = some b →
    (definitionsIn r)[i]? = some (d, v) → r.Leaves v d.index (b.stop - 1)

/-- A definition that leaves a predecessor is carried to the start of a block. -/
theorem LeavesBlock.carries {p k i : Nat} (h : LeavesBlock r p i)
    (hedge : (ofRoutine r).toGraph.Edge p k) {b : Block} {d : Location} {v : String}
    (hb : (ofRoutine r).blocks[k]? = some b) (hi : (definitionsIn r)[i]? = some (d, v)) :
    r.Carries v d.index b.start := by
  obtain ⟨a, ha⟩ : ∃ a, (ofRoutine r).blocks[p]? = some a :=
    ⟨_, List.getElem?_eq_getElem hedge.1⟩
  have hlt := (cut_of_getElem? ha).start_lt_stop
  refine (h a d v ha hi).next ((next_cases ha (by omega) (by omega)).2 (Or.inr ⟨by omega, ?_⟩))
  exact ⟨k, b, hb, rfl, hedge⟩

/-- Leaving a block along a carrying path is closed under the transfer functions, so the least
solution holds nothing else. -/
theorem leaves_closed (r : Routine) : (problem (definitionsIn r) (ofRoutine r).size).Closed
    (definitionsIn r).length (ofRoutine r).reversePostorder
    (GenKill.sourcesOf (ofRoutine r) .forward) (LeavesBlock r) := by
  intro k hmem s hs hsource i hcontains b d v hb hi
  have hk := mem_reversePostorder_ofRoutine_iff.1 hmem
  have htransfer := transfer_eq_flow (ofRoutine r).reversePostorder_nodup hmem hk.lt_size hs
  rw [definitionsIn, htransfer] at hcontains
  refine leaves_of_flow hk hb hs hi (fun hheld ↦ ?_) hcontains
  obtain ⟨p, hp, hleaves⟩ := hsource i hheld
  obtain ⟨hpred, hpmem⟩ := GenKill.mem_sourcesOf_forward_iff.1 hp
  have hplt := lt_size_of_mem_reversePostorder hpmem
  exact hleaves.carries ⟨hplt, hk.lt_size, (ofRoutine_coherent r p k hplt hk.lt_size).2 hpred⟩ hb hi

/-! ### Carried is held -/

/-- The definition is held at the instruction at an index, in some reached block. -/
def HeldAt (r : Routine) (i u : Nat) : Prop :=
  ∃ k b offset, (ofRoutine r).toGraph.Reaches 0 k ∧ (ofRoutine r).blocks[k]? = some b ∧
    u = b.start + offset ∧ u < b.stop ∧ (stateAt r k offset).contains i = true

/-- What is held behind an instruction is held wherever control goes from there. -/
theorem heldAt_of_next {k i offset u : Nat} {b : Block}
    (hk : (ofRoutine r).toGraph.Reaches 0 k) (hb : (ofRoutine r).blocks[k]? = some b)
    (hlt : b.start + offset < b.stop) (hheld : (stateAt r k (offset + 1)).contains i = true)
    (hnext : r.Next (b.start + offset) u) : HeldAt r i u := by
  rcases (next_cases hb (Nat.le_add_right ..) hlt).1 hnext with
    ⟨hstop, rfl⟩ | ⟨hstop, l, c, hc, rfl, hedge⟩
  · exact ⟨k, b, offset + 1, hk, hb, rfl, hstop, hheld⟩
  · have hl : (ofRoutine r).toGraph.Reaches 0 l := hk.step hedge
    have hout : (solution r).out k i = true := by
      rw [out_iff hk, ← take_length hb, show b.stop - b.start = offset + 1 from by omega]
      exact hheld
    refine ⟨l, c, 0, hl, hc, rfl, (cut_of_getElem? hc).start_lt_stop, ?_⟩
    rw [stateAt_zero]
    exact ((incoming_spec hl).2 i).2 ⟨k, hedge, hk, hout⟩

/-- **What is carried to an instruction is held at it.** -/
theorem exists_stateAt_of_carries {i u : Nat} {d : Location} {v : String}
    (hi : (definitionsIn r)[i]? = some (d, v)) (h : r.Carries v d.index u) : HeldAt r i u := by
  obtain ⟨c, hreached, -⟩ := mem_definitionsIn_iff.1 (List.mem_of_getElem? hi)
  refine h.induction (fun u hnext ↦ ?_) fun m u ih hfree hnext ↦ ?_
  · obtain ⟨b, hb, hle, hlt⟩ := hreached.inside
    have hk := hreached.block_reached
    have hindex : b.start + (d.index - b.start) = d.index := by omega
    refine heldAt_of_next hk hb (by omega) ?_ (hindex.symm ▸ hnext)
    refine (contains_flow_succ hk hb (incoming_spec hk).1 hi (by omega)).2 (Or.inl ?_)
    rw [hindex]
  · obtain ⟨k, b, offset, hk, hb, rfl, hlt, hheld⟩ := ih
    refine heldAt_of_next hk hb hlt ?_ hnext
    exact (contains_flow_succ hk hb (incoming_spec hk).1 hi hlt).2 (Or.inr ⟨hheld, hfree⟩)

/-- **A definition is held at an instruction exactly when it is carried to it.** -/
theorem contains_stateAt_iff {k i offset : Nat} {b : Block} {d : Location} {v : String}
    (hk : (ofRoutine r).toGraph.Reaches 0 k) (hb : (ofRoutine r).blocks[k]? = some b)
    (hlt : b.start + offset < b.stop) (hi : (definitionsIn r)[i]? = some (d, v)) :
    (stateAt r k offset).contains i = true ↔ r.Carries v d.index (b.start + offset) := by
  constructor
  · refine carries_of_flow hk hb (incoming_spec hk).1 hi (fun hheld ↦ ?_) offset hlt
    obtain ⟨p, hedge, -, hout⟩ := ((incoming_spec hk).2 i).1 hheld
    exact ((solution_solves r).least _ (leaves_closed r) p i hout).carries hedge hb hi
  · intro hcarries
    obtain ⟨k', b', offset', -, hb', heq, hlt', hheld⟩ := exists_stateAt_of_carries hi hcarries
    obtain rfl : k = k' := block_unique hb hb' (Nat.le_add_right ..) hlt (by omega) hlt'
    obtain rfl : b = b' := Option.some.inj (hb.symm.trans hb')
    obtain rfl : offset = offset' := by omega
    exact hheld

end Reaching

end FlowGauge
