import FlowGauge.DataFlow.Summary
import FlowGauge.Proofs.DataFlow.Exposure
import Mathlib.Data.Set.Card
import Mathlib.Order.Bounds.Basic

/-!
# Live variables are exact

`Routine.LiveBefore` is the meaning of being live, in terms of single instructions: some path from
an instruction reaches a read of the variable, and nothing earlier on the path writes it.
Unfolding one step of the path, an instruction reads the variable, or does not write it and lets it
through from behind (`liveBefore_iff`); so in front of an instruction is live what the rest of its
block needs (`liveBefore_iff_needs`), and all that remains is the end of the block
(`mem_liveOut_iff`).

* What is held at the end of a block is live there, because the solution is the least one: being
  live at the start of a block is closed under the transfer functions (`startsLive_closed`).
* What is live is held, by induction on the path: a step inside a block goes on with what the block
  needs, and a step between blocks is an equation of the solution (`needs_of_liveBefore`).

## Where words end

Paths are lists of indices, of any length. An instruction that reads and writes a variable at once
counts as reading it: the variable is live before it, and behind it only when a later read says so.

The result has an entry for each reached block and a point for each reached instruction. Of blocks
that are not reached nothing is recorded, although `Routine.LiveBefore` may well hold inside of
them: being live looks forwards only. The peak is taken over the recorded points
(`isGreatest_peak`).
-/

namespace FlowGauge

namespace Routine

variable {r : Routine} {v : String} {i j : Nat}

/-! ### Paths to a read -/

/-- The instruction at an index reads the variable. -/
def ReadsAt (r : Routine) (v : String) (m : Nat) : Prop :=
  ∃ c, r.instructions[m]? = some c ∧ c.ReadsName v

/-- The variable is live before the instruction at an index: a path from there reaches an
instruction that reads it, and no earlier instruction on the path writes it. -/
def LiveBefore (r : Routine) (v : String) (i : Nat) : Prop :=
  ∃ (π : List Nat) (u : Nat), (π ++ [u]).head? = some i ∧ (π ++ [u]).IsChain r.Next ∧
    (∀ m ∈ π, ¬r.WritesAt v m) ∧ r.ReadsAt v u

/-- The variable is live after the instruction at an index: it is live before some instruction that
control can go to from there. -/
def LiveAfter (r : Routine) (v : String) (i : Nat) : Prop :=
  ∃ j, r.Next i j ∧ r.LiveBefore v j

/-- A variable is live in front of an instruction that reads it, also when the instruction writes
it, too. -/
theorem LiveBefore.of_reads (h : r.ReadsAt v i) : r.LiveBefore v i :=
  ⟨[], i, rfl, List.isChain_singleton i, fun _ hm ↦ absurd hm List.not_mem_nil, h⟩

/-- A variable that is live at a next instruction is live here, if it is not written here. -/
theorem LiveBefore.of_next (hfree : ¬r.WritesAt v i) (hnext : r.Next i j)
    (h : r.LiveBefore v j) : r.LiveBefore v i := by
  obtain ⟨π, u, hhead, hchain, hπ, hreads⟩ := h
  refine ⟨i :: π, u, rfl, ?_, List.forall_mem_cons.2 ⟨hfree, hπ⟩, hreads⟩
  refine List.isChain_cons.2 ⟨fun k hk ↦ ?_, hchain⟩
  exact Option.some.inj (hhead.symm.trans hk) ▸ hnext

/-- **Facts about live variables are proved backwards along the path.** -/
theorem LiveBefore.induction {motive : Nat → Prop} (read : ∀ i, r.ReadsAt v i → motive i)
    (step : ∀ i j, ¬r.WritesAt v i → r.Next i j → r.LiveBefore v j → motive j → motive i)
    (h : r.LiveBefore v i) : motive i := by
  obtain ⟨π, u, hhead, hchain, hπ, hreads⟩ := h
  induction π generalizing i with
  | nil => exact Option.some.inj hhead ▸ read u hreads
  | cons m π ih =>
    obtain rfl : m = i := Option.some.inj hhead
    obtain ⟨hnext, htail⟩ := List.isChain_cons.1 hchain
    obtain ⟨hm, hπ⟩ := List.forall_mem_cons.1 hπ
    obtain ⟨k, hk⟩ : ∃ k, (π ++ [u]).head? = some k := by
      cases π <;> exact ⟨_, rfl⟩
    exact step m k hm (hnext k hk) ⟨π, u, hk, htail, hπ, hreads⟩ (ih hk htail hπ)

/-- **One instruction reads a variable, or lets it through from behind.** -/
theorem liveBefore_iff : r.LiveBefore v i ↔
    r.ReadsAt v i ∨ ¬r.WritesAt v i ∧ r.LiveAfter v i := by
  constructor
  · intro h
    refine h.induction (motive := fun i ↦ r.ReadsAt v i ∨ ¬r.WritesAt v i ∧ r.LiveAfter v i)
      (fun i hi ↦ Or.inl hi) fun i j hfree hnext hlive _ ↦ Or.inr ⟨hfree, j, hnext, hlive⟩
  · rintro (hreads | ⟨hfree, j, hnext, hlive⟩)
    · exact .of_reads hreads
    · exact .of_next hfree hnext hlive

end Routine

namespace Liveness

open Routine FlowGraph

variable {r : Routine} {v : String} {k : Nat} {b : Block}

/-! ### Inside a block -/

/-- The code of a block is looked up by its number. -/
theorem codeOf_eq (hb : (ofRoutine r).blocks[k]? = some b) : codeOf (ofRoutine r) k = b.code := by
  rw [codeOf, block?, hb, Option.elim_some]

/-- What the instructions of a block from an offset on need, unfolded once. -/
theorem needs_drop_iff (hb : (ofRoutine r).blocks[k]? = some b) {offset : Nat}
    (hlt : b.start + offset < b.stop) {out : Prop} : Needs v out (b.code.drop offset) ↔
      r.ReadsAt v (b.start + offset) ∨
        ¬r.WritesAt v (b.start + offset) ∧ Needs v out (b.code.drop (offset + 1)) := by
  have hcut := cut_of_getElem? hb
  have hlen : offset < b.code.length := by
    have := hcut.code_length
    omega
  have hget : r.instructions[b.start + offset]? = some b.code[offset] :=
    (hcut.code_getElem? hlt).symm.trans (List.getElem?_eq_getElem hlen)
  rw [List.drop_eq_getElem_cons hlen, Needs, ReadsAt, WritesAt, hget]
  simp

/-- **Behind an instruction is live what the rest of its block needs.** The block is walked
backwards from its last instruction. -/
theorem liveAfter_iff_needs (hb : (ofRoutine r).blocks[k]? = some b) (left : Nat) :
    ∀ offset, b.start + offset + left + 1 = b.stop →
      (r.LiveAfter v (b.start + offset) ↔
        Needs v (r.LiveAfter v (b.stop - 1)) (b.code.drop (offset + 1))) := by
  induction left with
  | zero =>
    intro offset hoffset
    have hlen := (cut_of_getElem? hb).code_length
    rw [List.drop_eq_nil_of_le (by omega), Needs,
      show b.start + offset = b.stop - 1 from by omega]
  | succ left ih =>
    intro offset hoffset
    have hnext : ∀ j, r.Next (b.start + offset) j ↔ j = b.start + (offset + 1) := by
      intro j
      rw [next_cases hb (Nat.le_add_right ..) (by omega)]
      omega
    simp only [LiveAfter, hnext, exists_eq_left]
    rw [liveBefore_iff, needs_drop_iff hb (by omega), ih (offset + 1) (by omega)]
    rfl

/-- **In front of an instruction is live what it and the rest of its block need.** -/
theorem liveBefore_iff_needs (hb : (ofRoutine r).blocks[k]? = some b) (offset : Nat)
    (hlt : b.start + offset < b.stop) : r.LiveBefore v (b.start + offset) ↔
      Needs v (r.LiveAfter v (b.stop - 1)) (b.code.drop offset) := by
  rw [liveBefore_iff, needs_drop_iff hb hlt,
    liveAfter_iff_needs hb (b.stop - (b.start + offset) - 1) offset (by omega)]

/-! ### The solution of a routine -/

/-- All tracked variables of the reached blocks, in order. -/
def namesIn (r : Routine) : List String :=
  (trackedNames (ofRoutine r) (ofRoutine r).reversePostorder).toList

/-- The problem of live variables of a routine. -/
def problemIn (r : Routine) : GenKill :=
  problem (ofRoutine r) (ofRoutine r).reversePostorder (namesIn r)

/-- The solution of the problem of live variables. -/
def solution (r : Routine) : GenKill.Solution :=
  (problemIn r).solve (ofRoutine r) .backward (namesIn r).length

/-- The variables held at the start of a block. -/
def liveIn (r : Routine) (k : Nat) : NameSet :=
  named (namesIn r) ((solution r).outgoing[k]?.getD (.empty (namesIn r).length))

/-- The variables held at the end of a block. -/
def liveOut (r : Routine) (k : Nat) : NameSet :=
  named (namesIn r) ((solution r).incoming[k]?.getD (.empty (namesIn r).length))

theorem namesIn_nodup (r : Routine) : (namesIn r).Nodup :=
  Std.ExtTreeSet.distinct_toList.imp fun hne heq ↦ hne (Std.LawfulEqOrd.compare_eq_iff_eq.2 heq)

/-- Whatever a reached block reads has a number. -/
theorem mem_namesIn_of_reads (hk : (ofRoutine r).toGraph.Reaches 0 k) :
    ∀ c ∈ codeOf (ofRoutine r) k, ∀ v, c.ReadsName v → v ∈ namesIn r := by
  intro c hc v hreads
  obtain ⟨b, hb⟩ : ∃ b, (ofRoutine r).blocks[k]? = some b :=
    ⟨_, List.getElem?_eq_getElem hk.lt_size⟩
  rw [codeOf_eq hb] at hc
  obtain ⟨offset, hoffset⟩ := List.mem_iff_getElem?.1 hc
  rw [namesIn, Std.ExtTreeSet.mem_toList, mem_trackedNames_iff]
  refine ⟨⟨k, b.start + offset⟩, c, mem_located_iff.2
    ⟨mem_reversePostorder_ofRoutine_iff.2 hk, List.mem_of_getElem? (i := offset) ?_⟩, Or.inl hreads⟩
  rw [located_singleton_getElem? hb, hoffset]
  rfl

theorem problemIn_fits (r : Routine) : (problemIn r).Fits (namesIn r).length :=
  problem_fits _ _ (namesIn_nodup r)

theorem solution_solves (r : Routine) : (problemIn r).Solves (ofRoutine r).size
    (namesIn r).length (ofRoutine r).reversePostorder
    (GenKill.sourcesOf (ofRoutine r) .backward) (solution r) :=
  GenKill.solve_solves (ofRoutine_coherent r) (problemIn_fits r) .backward

/-- A block needs what its transfer holds. -/
theorem mem_transfer_iff (hk : (ofRoutine r).toGraph.Reaches 0 k)
    (hb : (ofRoutine r).blocks[k]? = some b) {s : BitSet} (hs : s.Fits (namesIn r).length) :
    v ∈ named (namesIn r) ((problemIn r).transfer k s) ↔
      Needs v (v ∈ named (namesIn r) s) b.code := by
  rw [← codeOf_eq hb]
  exact mem_named_transfer_iff (namesIn_nodup r) (mem_reversePostorder_ofRoutine_iff.2 hk)
    hk.lt_size (mem_namesIn_of_reads hk) hs

/-- **What is held at the start of a block is what the block needs.** -/
theorem mem_liveIn_iff_needs (hk : (ofRoutine r).toGraph.Reaches 0 k)
    (hb : (ofRoutine r).blocks[k]? = some b) :
    v ∈ liveIn r k ↔ Needs v (v ∈ liveOut r k) b.code := by
  have hmem := mem_reversePostorder_ofRoutine_iff.2 hk
  obtain ⟨hfits, -⟩ :=
    (solution_solves r).fits.meet_spec (GenKill.sourcesOf (ofRoutine r) .backward k)
  rw [liveIn, liveOut, (solution_solves r).outgoing_eq k hmem,
    (solution_solves r).incoming_eq k hmem, Option.getD_some, Option.getD_some]
  exact mem_transfer_iff hk hb hfits

/-- Control can go from a block to another one. -/
theorem mem_sources_iff (hk : (ofRoutine r).toGraph.Reaches 0 k) {p : Nat} :
    p ∈ GenKill.sourcesOf (ofRoutine r) .backward k ↔ (ofRoutine r).toGraph.Edge k p := by
  rw [GenKill.mem_sourcesOf_backward_iff, mem_reversePostorder_ofRoutine_iff]
  constructor
  · exact fun ⟨hsucc, hp⟩ ↦ ⟨hk.lt_size, hp.lt_size, hsucc⟩
  · exact fun hedge ↦ ⟨hedge.2.2, hk.step hedge⟩

/-- The variables held at the start of a block, by number. -/
theorem mem_liveIn_iff_out {p : Nat} : v ∈ liveIn r p ↔
    ∃ i : Nat, (namesIn r)[i]? = some v ∧ (solution r).out p i = true := by
  unfold liveIn GenKill.Solution.out
  rcases hp : (solution r).outgoing[p]? with - | s
  · rw [Option.getD_none, mem_named_iff (BitSet.empty_fits _)]
    simp
  · rw [Option.getD_some, mem_named_iff ((solution_solves r).fits.outgoing s
      (List.mem_of_getElem? hp))]
    rfl

/-- **What is held at the end of a block is held at the start of a successor.** -/
theorem mem_liveOut_iff_edge (hk : (ofRoutine r).toGraph.Reaches 0 k) :
    v ∈ liveOut r k ↔ ∃ p, (ofRoutine r).toGraph.Edge k p ∧ v ∈ liveIn r p := by
  have hsolves := solution_solves r
  obtain ⟨hfits, hmeet⟩ :=
    hsolves.fits.meet_spec (GenKill.sourcesOf (ofRoutine r) .backward k)
  rw [liveOut, hsolves.incoming_eq k (mem_reversePostorder_ofRoutine_iff.2 hk), Option.getD_some,
    mem_named_iff hfits]
  simp only [hmeet, mem_sources_iff hk, mem_liveIn_iff_out]
  constructor
  · rintro ⟨i, hi, p, hedge, hout⟩
    exact ⟨p, hedge, i, hi, hout⟩
  · rintro ⟨p, hedge, i, hi, hout⟩
    exact ⟨i, hi, p, hedge, hout⟩

/-! ### Held is live -/

/-- The variable of a number is live at the start of the block. -/
def StartsLive (r : Routine) (k i : Nat) : Prop :=
  ∀ (b : Block) (v : String), (ofRoutine r).blocks[k]? = some b → (namesIn r)[i]? = some v →
    r.LiveBefore v b.start

/-- From the end of a block control goes to the start of every successor. -/
theorem liveAfter_of_edge {p : Nat} {c : Block} (hb : (ofRoutine r).blocks[k]? = some b)
    (hc : (ofRoutine r).blocks[p]? = some c) (hedge : (ofRoutine r).toGraph.Edge k p)
    (hlive : r.LiveBefore v c.start) : r.LiveAfter v (b.stop - 1) := by
  have hlt := (cut_of_getElem? hb).start_lt_stop
  exact ⟨c.start, (next_cases hb (by omega) (by omega)).2
    (Or.inr ⟨by omega, p, c, hc, rfl, hedge⟩), hlive⟩

/-- In front of a block is live what the block needs. -/
theorem liveBefore_start_iff (hb : (ofRoutine r).blocks[k]? = some b) :
    r.LiveBefore v b.start ↔ Needs v (r.LiveAfter v (b.stop - 1)) b.code :=
  liveBefore_iff_needs hb 0 (cut_of_getElem? hb).start_lt_stop

/-- Being live at the start of a block is closed under the transfer functions, so the least solution
holds nothing else. -/
theorem startsLive_closed (r : Routine) : (problemIn r).Closed (namesIn r).length
    (ofRoutine r).reversePostorder (GenKill.sourcesOf (ofRoutine r) .backward)
    (StartsLive r) := by
  intro k hmem s hs hsource i hcontains b v hb hi
  have hk := mem_reversePostorder_ofRoutine_iff.1 hmem
  have hfits := ((problemIn_fits r).transfer_spec k hs).1
  have hheld : v ∈ named (namesIn r) ((problemIn r).transfer k s) :=
    (mem_named_iff hfits).2 ⟨i, hi, hcontains⟩
  refine (liveBefore_start_iff hb).2 (((mem_transfer_iff hk hb hs).1 hheld).imp fun hout ↦ ?_)
  obtain ⟨j, hj, hsj⟩ := (mem_named_iff hs).1 hout
  obtain ⟨p, hp, hlive⟩ := hsource j hsj
  have hedge := (mem_sources_iff hk).1 hp
  obtain ⟨c, hc⟩ : ∃ c, (ofRoutine r).blocks[p]? = some c :=
    ⟨_, List.getElem?_eq_getElem hedge.2.1⟩
  exact liveAfter_of_edge hb hc hedge (hlive c v hc hj)

/-- **What is held at the end of a block is live there.** -/
theorem liveAfter_of_mem_liveOut (hk : (ofRoutine r).toGraph.Reaches 0 k)
    (hb : (ofRoutine r).blocks[k]? = some b) (h : v ∈ liveOut r k) :
    r.LiveAfter v (b.stop - 1) := by
  obtain ⟨p, hedge, hheld⟩ := (mem_liveOut_iff_edge hk).1 h
  obtain ⟨i, hi, hout⟩ := mem_liveIn_iff_out.1 hheld
  obtain ⟨c, hc⟩ : ∃ c, (ofRoutine r).blocks[p]? = some c :=
    ⟨_, List.getElem?_eq_getElem hedge.2.1⟩
  have hlive := (solution_solves r).least (StartsLive r) (startsLive_closed r) p i hout
  exact liveAfter_of_edge hb hc hedge (hlive c v hc hi)

/-! ### Live is held -/

/-- **What is live before an instruction is needed by the rest of its block**, by induction on the
path to the read. -/
theorem needs_of_liveBefore {i : Nat} (h : r.LiveBefore v i) :
    ∀ (k : Nat) (b : Block) (offset : Nat), (ofRoutine r).toGraph.Reaches 0 k →
      (ofRoutine r).blocks[k]? = some b → i = b.start + offset → i < b.stop →
      Needs v (v ∈ liveOut r k) (b.code.drop offset) := by
  refine h.induction (motive := fun i ↦ ∀ (k : Nat) (b : Block) (offset : Nat),
    (ofRoutine r).toGraph.Reaches 0 k → (ofRoutine r).blocks[k]? = some b →
      i = b.start + offset → i < b.stop → Needs v (v ∈ liveOut r k) (b.code.drop offset)) ?_ ?_
  · rintro _ hreads k b offset - hb rfl hlt
    exact (needs_drop_iff hb hlt).2 (Or.inl hreads)
  · rintro _ j hfree hnext - ih k b offset hk hb rfl hlt
    refine (needs_drop_iff hb hlt).2 (Or.inr ⟨hfree, ?_⟩)
    rcases (next_cases hb (Nat.le_add_right ..) hlt).1 hnext with
      ⟨hstop, rfl⟩ | ⟨hstop, l, c, hc, rfl, hedge⟩
    · exact ih k b (offset + 1) hk hb rfl hstop
    · -- Behind the last instruction nothing is left of the block.
      have hlen := (cut_of_getElem? hb).code_length
      have hl : (ofRoutine r).toGraph.Reaches 0 l := hk.step hedge
      rw [List.drop_eq_nil_of_le (by omega)]
      refine (mem_liveOut_iff_edge hk).2 ⟨l, hedge, (mem_liveIn_iff_needs hl hc).2 ?_⟩
      exact ih l c 0 hl hc rfl (cut_of_getElem? hc).start_lt_stop

/-- **At the end of a block is held what is live there.** -/
theorem mem_liveOut_iff (hk : (ofRoutine r).toGraph.Reaches 0 k)
    (hb : (ofRoutine r).blocks[k]? = some b) :
    v ∈ liveOut r k ↔ r.LiveAfter v (b.stop - 1) := by
  refine ⟨liveAfter_of_mem_liveOut hk hb, fun ⟨j, hnext, hlive⟩ ↦ ?_⟩
  have hlt := (cut_of_getElem? hb).start_lt_stop
  rcases (next_cases hb (by omega) (by omega)).1 hnext with
    ⟨hstop, -⟩ | ⟨-, l, c, hc, rfl, hedge⟩
  · omega
  · have hl : (ofRoutine r).toGraph.Reaches 0 l := hk.step hedge
    refine (mem_liveOut_iff_edge hk).2 ⟨l, hedge, (mem_liveIn_iff_needs hl hc).2 ?_⟩
    exact needs_of_liveBefore hlive l c 0 hl hc rfl (cut_of_getElem? hc).start_lt_stop

/-- What comes in at a block is live in front of its first instruction. -/
theorem mem_liveIn_iff (hk : (ofRoutine r).toGraph.Reaches 0 k)
    (hb : (ofRoutine r).blocks[k]? = some b) : v ∈ liveIn r k ↔ r.LiveBefore v b.start := by
  rw [mem_liveIn_iff_needs hk hb, liveBefore_start_iff hb, needs_congr (mem_liveOut_iff hk hb)]

/-! ### Points -/

/-- The live variables of a routine. -/
def resultIn (r : Routine) : Result :=
  compute (ofRoutine r) (ofRoutine r).reversePostorder

/-- The points of a block. -/
def pointsOf (r : Routine) (k : Nat) : List LivePoint :=
  (points (((ofRoutine r).block? k).elim [] Block.indexed) (liveOut r k)).1

theorem resultIn_points (r : Routine) :
    (resultIn r).points = (ofRoutine r).reversePostorder.flatMap (pointsOf r) :=
  rfl

theorem resultIn_blocks (r : Routine) : (resultIn r).blocks =
    tabulate (ofRoutine r).reversePostorder fun k ↦ ⟨liveIn r k, liveOut r k⟩ :=
  rfl

theorem indexed_getElem? (b : Block) (offset : Nat) :
    b.indexed[offset]? = (b.code[offset]?).map fun c ↦ (b.start + offset, c) := by
  rw [Block.indexed, List.getElem?_map, List.getElem?_zipIdx, Option.map_map]
  simp only [Function.comp_def, Nat.zero_add]

theorem map_snd_indexed (b : Block) : b.indexed.map Prod.snd = b.code := by
  rw [Block.indexed, List.map_map]
  exact List.zipIdx_map_fst 0 b.code

/-- **The point of an instruction tells what is live around it.** -/
theorem pointsOf_getElem? (hk : (ofRoutine r).toGraph.Reaches 0 k)
    (hb : (ofRoutine r).blocks[k]? = some b) {offset : Nat} {p : LivePoint}
    (hp : (pointsOf r k)[offset]? = some p) : p.index = b.start + offset ∧
      (∀ v, v ∈ p.before ↔ r.LiveBefore v p.index) ∧
        ∀ v, v ∈ p.after ↔ r.LiveAfter v p.index := by
  rw [pointsOf, block?, hb, Option.elim_some, points_getElem?, indexed_getElem?,
    Option.map_map] at hp
  obtain ⟨c, hc, rfl⟩ := Option.map_eq_some_iff.1 hp
  have hcut := cut_of_getElem? hb
  have hlt : b.start + offset < b.stop := by
    have hlen := hcut.code_length
    have hoffset := (List.getElem?_eq_some_iff.1 hc).1
    omega
  have hcode : r.instructions[b.start + offset]? = some c := (hcut.code_getElem? hlt).symm.trans hc
  have hafter : ∀ v, v ∈ (points (b.indexed.drop (offset + 1)) (liveOut r k)).2 ↔
      r.LiveAfter v (b.start + offset) := by
    intro v
    rw [mem_points_iff, List.map_drop, map_snd_indexed, needs_congr (mem_liveOut_iff hk hb),
      liveAfter_iff_needs hb (b.stop - (b.start + offset) - 1) offset (by omega)]
  refine ⟨rfl, fun v ↦ ?_, hafter⟩
  show v ∈ beforeOf c _ ↔ r.LiveBefore v (b.start + offset)
  rw [mem_beforeOf_iff, hafter, liveBefore_iff, ReadsAt, WritesAt, hcode]
  simp

/-- The points of a block stand at its instructions. -/
theorem map_index_pointsOf (r : Routine) (k : Nat) :
    (pointsOf r k).map LivePoint.index = ((ofRoutine r).located [k]).map (·.1.index) := by
  rw [pointsOf, located, List.flatMap_singleton]
  rcases (ofRoutine r).block? k with - | b
  · rfl
  · refine List.ext_getElem? fun offset ↦ ?_
    rw [Option.elim_some, Option.elim_some, List.getElem?_map, points_getElem?, Option.map_map,
      List.map_map, List.getElem?_map]
    rfl

/-- There is a point for each located instruction, in order. -/
theorem map_index_points (r : Routine) : (resultIn r).points.map LivePoint.index =
    ((ofRoutine r).located (ofRoutine r).reversePostorder).map (·.1.index) := by
  rw [resultIn_points, List.map_flatMap, located_eq_flatMap, List.map_flatMap]
  exact congrArg (fun f ↦ List.flatMap f _) (funext fun k ↦ map_index_pointsOf r k)

/-- The variables that satisfy a condition are counted by the set of them. -/
theorem ncard_eq_size {s : NameSet} {P : String → Prop} (h : ∀ v, v ∈ s ↔ P v) :
    {v | P v}.ncard = s.size := by
  have hnodup : s.toList.Nodup := Std.ExtTreeSet.distinct_toList.imp fun hne heq ↦
    hne (Std.LawfulEqOrd.compare_eq_iff_eq.2 heq)
  have hset : {v | P v} = (s.toList.toFinset : Set String) := by
    ext v
    simp [← h v, Std.ExtTreeSet.mem_toList]
  rw [hset, Set.ncard_coe_finset, List.toFinset_card_of_nodup hnodup, Std.ExtTreeSet.length_toList]

/-- Folding with `max` from zero finds the greatest of the numbers and zero. -/
theorem isGreatest_foldl_max (numbers : List Nat) :
    IsGreatest (insert 0 {n | n ∈ numbers}) (numbers.foldl max 0) := by
  rw [List.foldl_max]
  rcases hmax : numbers.max? with - | n
  · rw [List.max?_eq_none_iff.1 hmax]
    simp
  · obtain ⟨hmem, hle⟩ := List.max?_eq_some_iff.1 hmax
    rw [Option.getD_some, Nat.zero_max]
    refine ⟨Or.inr hmem, fun m hm ↦ ?_⟩
    rcases hm with rfl | hm
    · exact Nat.zero_le n
    · exact hle m hm

/-! ### Exactness -/

/-- Live variables that are exact for a routine. -/
structure Exact (r : Routine) (result : Result) : Prop where
  /-- The reached blocks have an entry, and no others. -/
  mem_blocks_iff : ∀ k, k ∈ result.blocks ↔ (ofRoutine r).toGraph.Reaches 0 k
  mem_liveIn_iff : ∀ (k : Nat) (live : BlockLiveness) (b : Block), result.blocks[k]? = some live →
    (ofRoutine r).blocks[k]? = some b → ∀ v, v ∈ live.liveIn ↔ r.LiveBefore v b.start
  mem_liveOut_iff : ∀ (k : Nat) (live : BlockLiveness) (b : Block), result.blocks[k]? = some live →
    (ofRoutine r).blocks[k]? = some b → ∀ v, v ∈ live.liveOut ↔ r.LiveAfter v (b.stop - 1)
  /-- The instructions of the reached blocks have a point, and no others. -/
  exists_point_iff : ∀ i, (∃ p ∈ result.points, p.index = i) ↔ ∃ l c, r.Reached l c ∧ l.index = i
  /-- No instruction has two points. -/
  nodup_points : (result.points.map LivePoint.index).Nodup
  mem_before_iff : ∀ p ∈ result.points, ∀ v, v ∈ p.before ↔ r.LiveBefore v p.index
  mem_after_iff : ∀ p ∈ result.points, ∀ v, v ∈ p.after ↔ r.LiveAfter v p.index

theorem resultIn_blocks_getElem? {live : BlockLiveness} : (resultIn r).blocks[k]? = some live ↔
    (ofRoutine r).toGraph.Reaches 0 k ∧ live = ⟨liveIn r k, liveOut r k⟩ := by
  rw [resultIn_blocks, getElem?_tabulate, ← mem_reversePostorder_ofRoutine_iff]
  split
  · next hk => simp [hk, eq_comm]
  · next hk => simp [hk]

/-- A point says what is live on both sides of its instruction. -/
theorem mem_points_spec {p : LivePoint} (hp : p ∈ (resultIn r).points) :
    (∀ v, v ∈ p.before ↔ r.LiveBefore v p.index) ∧ ∀ v, v ∈ p.after ↔ r.LiveAfter v p.index := by
  rw [resultIn_points] at hp
  obtain ⟨k, hk, hp⟩ := List.mem_flatMap.1 hp
  obtain ⟨offset, hoffset⟩ := List.mem_iff_getElem?.1 hp
  have hreach := mem_reversePostorder_ofRoutine_iff.1 hk
  exact (pointsOf_getElem? hreach (List.getElem?_eq_getElem hreach.lt_size) hoffset).2

/-- Reached instructions have points, and no others. -/
theorem exists_point_iff {i : Nat} :
    (∃ p ∈ (resultIn r).points, p.index = i) ↔ ∃ l c, r.Reached l c ∧ l.index = i := by
  rw [← List.mem_map, map_index_points, List.mem_map, Prod.exists]
  simp only [mem_located_iff_reached]

/-- No instruction has two points. -/
theorem nodup_points (r : Routine) : ((resultIn r).points.map LivePoint.index).Nodup := by
  rw [map_index_points]
  refine List.pairwise_map.2
    ((located_pairwise (reversePostorder_nodup (ofRoutine r))).imp_of_mem ?_)
  intro p q hp hq hne hindex
  exact hne ((mem_located_iff_reached.1 hp).unique (mem_located_iff_reached.1 hq) hindex).1

/-- **The result is exact**: at blocks, at points, and nowhere else. -/
theorem resultIn_exact (r : Routine) : Exact r (resultIn r) where
  mem_blocks_iff k := by
    rw [← Std.ExtTreeMap.isSome_getElem?_iff_mem, Option.isSome_iff_exists]
    simp only [resultIn_blocks_getElem?, exists_and_left, exists_eq, and_true]
  mem_liveIn_iff k live b hlive hb v := by
    obtain ⟨hk, rfl⟩ := resultIn_blocks_getElem?.1 hlive
    exact mem_liveIn_iff hk hb
  mem_liveOut_iff k live b hlive hb v := by
    obtain ⟨hk, rfl⟩ := resultIn_blocks_getElem?.1 hlive
    exact mem_liveOut_iff hk hb
  exists_point_iff _ := exists_point_iff
  nodup_points := nodup_points r
  mem_before_iff _ hp := (mem_points_spec hp).1
  mem_after_iff _ hp := (mem_points_spec hp).2

end Liveness

namespace Routine

/-- The numbers of variables live before and after the reached instructions. -/
def liveCounts (r : Routine) : Set Nat :=
  {n | ∃ l c, r.Reached l c ∧
    (n = {v | r.LiveBefore v l.index}.ncard ∨ n = {v | r.LiveAfter v l.index}.ncard)}

end Routine

namespace Liveness.Exact

variable {r : Routine} {result : Result}

/-- The sizes of the sets at the points count the live variables. -/
theorem mem_liveCounts_iff (h : Exact r result) {n : Nat} : n ∈ r.liveCounts ↔
    ∃ p ∈ result.points, n = p.before.size ∨ n = p.after.size := by
  have hsizes : ∀ p ∈ result.points, {v | r.LiveBefore v p.index}.ncard = p.before.size ∧
      {v | r.LiveAfter v p.index}.ncard = p.after.size := fun p hp ↦
    ⟨ncard_eq_size (h.mem_before_iff p hp), ncard_eq_size (h.mem_after_iff p hp)⟩
  constructor
  · rintro ⟨l, c, hreached, hn⟩
    obtain ⟨p, hp, hindex⟩ := (h.exists_point_iff l.index).2 ⟨l, c, hreached, rfl⟩
    obtain ⟨hbefore, hafter⟩ := hsizes p hp
    exact ⟨p, hp, by rwa [← hindex, hbefore, hafter] at hn⟩
  · rintro ⟨p, hp, hn⟩
    obtain ⟨l, c, hreached, hindex⟩ := (h.exists_point_iff p.index).1 ⟨p, hp, rfl⟩
    obtain ⟨hbefore, hafter⟩ := hsizes p hp
    exact ⟨l, c, hreached, by rwa [hindex, hbefore, hafter]⟩

/-- **The peak over the points is the greatest number of variables live at once.** -/
theorem isGreatest_peak (h : Exact r result) : IsGreatest (insert 0 r.liveCounts)
    ((result.points.map fun p ↦ max p.before.size p.after.size).foldl max 0) := by
  obtain ⟨hmem, hle⟩ := isGreatest_foldl_max
    (result.points.map fun p ↦ max p.before.size p.after.size)
  refine ⟨hmem.imp_right fun hmem ↦ ?_, fun n hn ↦ ?_⟩
  · obtain ⟨p, hp, heq⟩ := List.mem_map.1 hmem
    rw [← heq]
    exact h.mem_liveCounts_iff.2 ⟨p, hp, (max_choice p.before.size p.after.size)⟩
  · rcases hn with rfl | hn
    · exact Nat.zero_le _
    · obtain ⟨p, hp, hn⟩ := h.mem_liveCounts_iff.1 hn
      have hpeak := hle (Or.inr (List.mem_map_of_mem hp))
      rcases hn with rfl | rfl
      · exact (le_max_left ..).trans hpeak
      · exact (le_max_right ..).trans hpeak

end Liveness.Exact

namespace DataFlow

open FlowGraph Liveness

/-- **Live variables are exact**, for every routine: at both ends of the reached blocks, for both
precisions, and around every reached instruction. With precise ranges the peak is the greatest
number of variables live at one point. -/
theorem liveness_exact (r : Routine) :
    Exact r (compute (ofRoutine r) (ofRoutine r).reversePostorder) ∧
      (∀ precision, (analyze (ofRoutine r) precision).blockLiveness =
        (compute (ofRoutine r) (ofRoutine r).reversePostorder).blocks) ∧
      IsGreatest (insert 0 r.liveCounts) (analyze (ofRoutine r) .precise).maxLive := by
  have hexact := resultIn_exact r
  refine ⟨hexact, fun precision ↦ ?_, hexact.isGreatest_peak⟩
  cases precision <;> rfl

end DataFlow

end FlowGauge
