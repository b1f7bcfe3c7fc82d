import FlowGauge.DataFlow.Solver
import FlowGauge.Proofs.BitSet
import FlowGauge.Proofs.Flow.Location
import Mathlib.Data.Finset.Card
import Mathlib.Data.Finset.Prod

/-!
# The solver finds the least solution

A run of the solver evaluates one queued block after another. Two facts carry the theory:

* outgoing sets only grow, since every set stays below what an evaluation of its block would give
  (`Running.ascending`); a change therefore uses up one of the `size * count` possible members, and
  `potential` falls with every evaluation;
* a block that is not queued agrees with its equations (`Settled`), since every change queues the
  blocks that depend on it.

So the queue is empty in the end, and then all equations hold (`work_solves`). That the solution is
the least one follows from what evaluations can add: a property of blocks and members that is closed
under the transfer functions is never left (`Closed`).

## The queue and the bound

Which block is evaluated next does not matter for the outcome, and nothing here depends on it: the
queue is any list without repetitions, and the facts above are kept by one evaluation of its first
block. The bound of the loop is no less than what `potential` can be at the start
(`potential_blank_le`), so it never cuts a run short.

Sources and dependents are parameters. What they have to do with each other, that a block depends on
its sources, is asked for by name where it is needed; growth and termination do without.
-/

namespace FlowGauge

namespace GenKill

/-! ### Sets of one capacity -/

/-- All sets of the problem have the given capacity. -/
structure Fits (count : Nat) (problem : GenKill) : Prop where
  gen : ∀ s ∈ problem.gen, s.Fits count
  kill : ∀ s ∈ problem.kill, s.Fits count

/-- Block `b` generates `i`. -/
def Gens (problem : GenKill) (b i : Nat) : Prop :=
  ∃ s, problem.gen[b]? = some s ∧ s.contains i = true

/-- Block `b` kills `i`. -/
def Kills (problem : GenKill) (b i : Nat) : Prop :=
  ∃ s, problem.kill[b]? = some s ∧ s.contains i = true

/-- Whether `i` is in the outgoing set of block `b`. -/
def Solution.out (state : Solution) (b i : Nat) : Bool :=
  state.outgoing[b]?.any (·.contains i)

/-- A state for the given number of blocks, all of whose sets have the given capacity. -/
structure Solution.Fits (size count : Nat) (state : Solution) : Prop where
  incoming_length : state.incoming.length = size
  outgoing_length : state.outgoing.length = size
  outgoing : ∀ s ∈ state.outgoing, s.Fits count

variable {size count : Nat} {problem : GenKill} {state : Solution}

/-- **What a block lets through and what it adds.** -/
theorem Fits.transfer_spec (hproblem : problem.Fits count) (b : Nat) {s : BitSet}
    (hs : s.Fits count) : (problem.transfer b s).Fits count ∧ ∀ i,
      (problem.transfer b s).contains i = true ↔
        problem.Gens b i ∨ s.contains i = true ∧ ¬problem.Kills b i := by
  have hrest : ((problem.kill[b]?).elim s s.difference).Fits count ∧ ∀ i,
      ((problem.kill[b]?).elim s s.difference).contains i = true ↔
        s.contains i = true ∧ ¬problem.Kills b i := by
    unfold Kills
    rcases hk : problem.kill[b]? with - | k
    · exact ⟨hs, fun i ↦ by simp⟩
    · refine ⟨hs.difference k, fun i ↦ ?_⟩
      rw [Option.elim_some, (hproblem.kill k (List.mem_of_getElem? hk)).contains_difference]
      simp
  unfold transfer Gens
  generalize (problem.kill[b]?).elim s s.difference = rest at hrest
  rcases hg : problem.gen[b]? with - | t
  · exact ⟨hrest.1, fun i ↦ by simpa using hrest.2 i⟩
  · have ht := hproblem.gen t (List.mem_of_getElem? hg)
    refine ⟨hrest.1.union ht, fun i ↦ ?_⟩
    rw [Option.elim_some, hrest.1.contains_union ht, hrest.2 i, or_comm]
    simp

/-- A block that receives more passes on more. -/
theorem Fits.transfer_mono (hproblem : problem.Fits count) (b : Nat) {s t : BitSet}
    (hs : s.Fits count) (ht : t.Fits count)
    (hst : ∀ i, s.contains i = true → t.contains i = true) (i : Nat)
    (hi : (problem.transfer b s).contains i = true) :
    (problem.transfer b t).contains i = true := by
  rw [(hproblem.transfer_spec b hs).2] at hi
  rw [(hproblem.transfer_spec b ht).2]
  exact hi.imp id fun h ↦ ⟨hst i h.1, h.2⟩

/-- **A meet holds what some source passes on.** -/
theorem Solution.Fits.meet_spec (hstate : state.Fits size count) (sources : List Nat) :
    (meet count state sources).Fits count ∧ ∀ i,
      (meet count state sources).contains i = true ↔ ∃ p ∈ sources, state.out p i = true := by
  unfold meet
  suffices h : ∀ s : BitSet, s.Fits count →
      (sources.foldl (fun s b ↦ (state.outgoing[b]?).elim s s.union) s).Fits count ∧ ∀ i,
        (sources.foldl (fun s b ↦ (state.outgoing[b]?).elim s s.union) s).contains i = true ↔
          s.contains i = true ∨ ∃ p ∈ sources, state.out p i = true by
    obtain ⟨hfits, hmem⟩ := h (.empty count) (BitSet.empty_fits count)
    exact ⟨hfits, fun i ↦ (hmem i).trans (by simp)⟩
  induction sources with
  | nil => exact fun s hs ↦ ⟨hs, fun i ↦ by simp⟩
  | cons p sources ih =>
    intro s hs
    rw [List.foldl_cons]
    rcases hp : state.outgoing[p]? with - | t
    · obtain ⟨hfits, hmem⟩ := ih s hs
      refine ⟨hfits, fun i ↦ (hmem i).trans ?_⟩
      have hout : state.out p i = false := by rw [out, hp]; rfl
      simp [hout]
    · have ht := hstate.outgoing t (List.mem_of_getElem? hp)
      obtain ⟨hfits, hmem⟩ := ih (s.union t) (hs.union ht)
      refine ⟨hfits, fun i ↦ (hmem i).trans ?_⟩
      have hout : state.out p i = t.contains i := by rw [out, hp]; rfl
      rw [hs.contains_union ht, List.exists_mem_cons_iff, hout, or_assoc]

/-! ### One evaluation -/

/-- What an evaluation of block `b` gives as its outgoing set. -/
def evaluate (problem : GenKill) (count : Nat) (sources : Nat → List Nat) (state : Solution)
    (b : Nat) : BitSet :=
  problem.transfer b (meet count state (sources b))

/-- The state after the evaluation of a block. -/
def visit (problem : GenKill) (count : Nat) (sources : Nat → List Nat) (state : Solution)
    (b : Nat) : Solution :=
  ⟨state.incoming.set b (meet count state (sources b)),
    state.outgoing.set b (problem.evaluate count sources state b)⟩

/-- The queue with the blocks of a list that are not in it yet behind it. -/
def enqueue (queue blocks : List Nat) : List Nat :=
  blocks.foldl (fun q d ↦ if d ∈ q then q else q ++ [d]) queue

/-- The queue after the evaluation of its first block. -/
def requeue (problem : GenKill) (count : Nat) (sources dependents : Nat → List Nat)
    (state : Solution) (b : Nat) (queue : List Nat) : List Nat :=
  if state.outgoing[b]? = some (problem.evaluate count sources state b) then queue
  else enqueue queue (dependents b)

theorem work_succ_cons (problem : GenKill) (count : Nat) (sources dependents : Nat → List Nat)
    (bound b : Nat) (queue : List Nat) (state : Solution) :
    problem.work count sources dependents (bound + 1) (b :: queue) state =
      problem.work count sources dependents bound
        (problem.requeue count sources dependents state b queue)
        (problem.visit count sources state b) := by
  rw [work, requeue]
  show (if state.outgoing[b]? = some (problem.evaluate count sources state b) then _ else _) = _
  split <;> rfl

theorem mem_enqueue_iff {blocks : List Nat} {c : Nat} :
    ∀ {queue : List Nat}, c ∈ enqueue queue blocks ↔ c ∈ queue ∨ c ∈ blocks := by
  induction blocks with
  | nil => simp [enqueue]
  | cons d blocks ih =>
    intro queue
    show c ∈ enqueue (if d ∈ queue then queue else queue ++ [d]) blocks ↔ _
    rw [ih]
    split
    · next hd =>
      refine ⟨fun h ↦ h.imp id (List.mem_cons_of_mem d), ?_⟩
      rintro (h | h)
      · exact Or.inl h
      · rcases List.mem_cons.1 h with rfl | h
        · exact Or.inl hd
        · exact Or.inr h
    · rw [List.mem_append, List.mem_singleton, List.mem_cons, or_assoc]

/-- A block that is queued already is not queued again. -/
theorem enqueue_nodup {blocks : List Nat} :
    ∀ {queue : List Nat}, queue.Nodup → (enqueue queue blocks).Nodup := by
  induction blocks with
  | nil => exact fun h ↦ h
  | cons d blocks ih =>
    intro queue hqueue
    show (enqueue (if d ∈ queue then queue else queue ++ [d]) blocks).Nodup
    refine ih ?_
    split
    · exact hqueue
    · next hd =>
      have hcons : ([d] ++ queue).Nodup := List.nodup_cons.2 ⟨hd, hqueue⟩
      exact List.nodup_append_comm.1 hcons

/-! ### Growth -/

/-- A run in progress over the listed blocks. -/
structure Running (problem : GenKill) (size count : Nat) (reached : List Nat)
    (sources : Nat → List Nat) (queue : List Nat) (state : Solution) : Prop where
  fits : state.Fits size count
  queue_nodup : queue.Nodup
  queue_reached : ∀ b ∈ queue, b ∈ reached
  /-- An evaluation would take nothing away. -/
  ascending : ∀ b i, state.out b i = true →
    (problem.evaluate count sources state b).contains i = true

section Run

variable {reached : List Nat} {sources dependents : Nat → List Nat} {queue : List Nat} {b : Nat}

/-- An evaluation keeps the capacity. -/
theorem evaluate_fits (hproblem : problem.Fits count) (sources : Nat → List Nat)
    (hstate : state.Fits size count) (b : Nat) :
    (problem.evaluate count sources state b).Fits count :=
  (hproblem.transfer_spec b (hstate.meet_spec (sources b)).1).1

theorem visit_fits (hproblem : problem.Fits count) (sources : Nat → List Nat)
    (hstate : state.Fits size count) (b : Nat) :
    (problem.visit count sources state b).Fits size count := by
  refine ⟨?_, ?_, fun s hs ↦ ?_⟩
  · exact List.length_set.trans hstate.incoming_length
  · exact List.length_set.trans hstate.outgoing_length
  · rcases List.mem_or_eq_of_mem_set hs with hs | rfl
    · exact hstate.outgoing s hs
    · exact evaluate_fits hproblem sources hstate b

/-- An evaluation changes the outgoing set of its block only. -/
theorem out_visit (hstate : state.Fits size count) (hb : b < size) (c i : Nat) :
    (problem.visit count sources state b).out c i =
      if c = b then (problem.evaluate count sources state b).contains i else state.out c i := by
  rw [Solution.out, visit, List.getElem?_set]
  split
  · next hbc =>
    rw [if_pos hbc.symm, if_pos (hstate.outgoing_length.symm ▸ hb)]
    rfl
  · next hbc =>
    rw [if_neg (Ne.symm hbc)]
    rfl

/-- Outgoing sets never lose a member. -/
theorem Running.out_visit_of_out (h : problem.Running size count reached sources queue state)
    (hb : b < size) {c i : Nat} (hout : state.out c i = true) :
    (problem.visit count sources state b).out c i = true := by
  rw [out_visit h.fits hb]
  split
  · next hcb => exact h.ascending b i (hcb ▸ hout)
  · exact hout

/-- An evaluation grows with what it reads. -/
theorem evaluate_mono (hproblem : problem.Fits count) {state' : Solution}
    (hstate : state.Fits size count) (hstate' : state'.Fits size count)
    (hle : ∀ c i, state.out c i = true → state'.out c i = true) {b i : Nat}
    (hi : (problem.evaluate count sources state b).contains i = true) :
    (problem.evaluate count sources state' b).contains i = true := by
  obtain ⟨hfits, hmem⟩ := hstate.meet_spec (sources b)
  obtain ⟨hfits', hmem'⟩ := hstate'.meet_spec (sources b)
  refine hproblem.transfer_mono b hfits hfits' (fun j hj ↦ ?_) i hi
  obtain ⟨p, hp, hout⟩ := (hmem j).1 hj
  exact (hmem' j).2 ⟨p, hp, hle p j hout⟩

/-- **One evaluation keeps a run in progress.** -/
theorem Running.step (hproblem : problem.Fits count) (hlt : ∀ c ∈ reached, c < size)
    (hdep : ∀ c, ∀ d ∈ dependents c, d ∈ reached)
    (h : problem.Running size count reached sources (b :: queue) state) :
    problem.Running size count reached sources
      (problem.requeue count sources dependents state b queue)
      (problem.visit count sources state b) := by
  have hb : b < size := hlt b (h.queue_reached b (List.mem_cons_self ..))
  have hfits := visit_fits hproblem sources h.fits b
  refine
    { fits := hfits
      queue_nodup := ?nodup
      queue_reached := ?reached
      ascending := ?ascending }
  case nodup =>
    unfold requeue
    split
    · exact (List.nodup_cons.1 h.queue_nodup).2
    · exact enqueue_nodup (List.nodup_cons.1 h.queue_nodup).2
  case reached =>
    intro c hc
    unfold requeue at hc
    split at hc
    · exact h.queue_reached c (List.mem_cons_of_mem b hc)
    · exact (mem_enqueue_iff.1 hc).elim (fun hc ↦ h.queue_reached c (List.mem_cons_of_mem b hc))
        (hdep b c)
  case ascending =>
    -- The new sets are no smaller, so an evaluation gives no less than one in the old state.
    intro c i hout
    refine evaluate_mono hproblem h.fits hfits (fun _ _ ↦ h.out_visit_of_out hb) ?_
    rw [out_visit h.fits hb] at hout
    split at hout
    · next hcb => exact hcb ▸ hout
    · exact h.ascending c i hout

/-! ### Termination -/

/-- The number of members of all outgoing sets. -/
def weight (size count : Nat) (state : Solution) : Nat :=
  ((Finset.range size ×ˢ Finset.range count).filter fun p ↦ state.out p.1 p.2 = true).card

/-- A bound on the evaluations that are left: every queued block is evaluated once, and every member
that is still missing may queue all blocks. -/
def potential (size count : Nat) (queue : List Nat) (state : Solution) : Nat :=
  queue.length + size * (size * count - weight size count state)

/-- There are no more members than blocks times numbers. -/
theorem weight_le (size count : Nat) (state : Solution) :
    weight size count state ≤ size * count := by
  refine (Finset.card_filter_le _ _).trans ?_
  rw [Finset.card_product, Finset.card_range, Finset.card_range]

theorem Running.weight_visit_le (h : problem.Running size count reached sources queue state)
    (hb : b < size) :
    weight size count state ≤ weight size count (problem.visit count sources state b) := by
  refine Finset.card_le_card fun p hp ↦ ?_
  rw [Finset.mem_filter] at hp ⊢
  exact ⟨hp.1, h.out_visit_of_out hb hp.2⟩

/-- A change adds a member. -/
theorem Running.exists_new (hproblem : problem.Fits count)
    (h : problem.Running size count reached sources queue state) (hb : b < size)
    (hne : state.outgoing[b]? ≠ some (problem.evaluate count sources state b)) :
    ∃ i < count, state.out b i = false ∧
      (problem.evaluate count sources state b).contains i = true := by
  by_contra hnone
  have hlt : b < state.outgoing.length := h.fits.outgoing_length.symm ▸ hb
  have hold := List.getElem?_eq_getElem hlt
  have hout : ∀ i, state.out b i = (state.outgoing[b]).contains i := by
    intro i
    rw [Solution.out, hold]
    rfl
  refine hne (hold.trans (congrArg some ?_))
  have hfits := evaluate_fits hproblem sources h.fits b
  refine (h.fits.outgoing _ (List.getElem_mem hlt)).ext hfits fun i ↦ ?_
  rw [← hout]
  refine ⟨h.ascending b i, fun hi ↦ ?_⟩
  by_contra hf
  exact hnone ⟨i, hfits.lt_of_contains hi, Bool.eq_false_iff.2 hf, hi⟩

/-- An evaluation that changes a block uses up a possible member. -/
theorem Running.weight_visit_lt (hproblem : problem.Fits count)
    (h : problem.Running size count reached sources queue state) (hb : b < size)
    (hne : state.outgoing[b]? ≠ some (problem.evaluate count sources state b)) :
    weight size count state < weight size count (problem.visit count sources state b) := by
  obtain ⟨i, hi, hold, hnew⟩ := h.exists_new hproblem hb hne
  refine Finset.card_lt_card (Finset.ssubset_iff_of_subset ?_ |>.2 ⟨(b, i), ?_, ?_⟩)
  · intro p hp
    rw [Finset.mem_filter] at hp ⊢
    exact ⟨hp.1, h.out_visit_of_out hb hp.2⟩
  · rw [Finset.mem_filter, Finset.mem_product, Finset.mem_range, Finset.mem_range,
      out_visit h.fits hb, if_pos rfl]
    exact ⟨⟨hb, hi⟩, hnew⟩
  · rw [Finset.mem_filter, hold]
    exact fun hmem ↦ Bool.false_ne_true hmem.2

/-- **Every evaluation uses up potential.** -/
theorem Running.potential_step (hproblem : problem.Fits count)
    (hlt : ∀ c ∈ reached, c < size) (hdep : ∀ c, ∀ d ∈ dependents c, d ∈ reached)
    (h : problem.Running size count reached sources (b :: queue) state) :
    potential size count (problem.requeue count sources dependents state b queue)
      (problem.visit count sources state b) < potential size count (b :: queue) state := by
  have hb : b < size := hlt b (h.queue_reached b (List.mem_cons_self ..))
  have hnext := h.step hproblem hlt hdep
  have hle := weight_le size count (problem.visit count sources state b)
  unfold potential
  by_cases heq : state.outgoing[b]? = some (problem.evaluate count sources state b)
  · have hweight := h.weight_visit_le hb
    have hmul := Nat.mul_le_mul_left size
      (Nat.sub_le_sub_left hweight (size * count))
    rw [requeue, if_pos heq, List.length_cons]
    omega
  · have hweight := h.weight_visit_lt hproblem hb heq
    have hlen : (problem.requeue count sources dependents state b queue).length ≤ size :=
      length_le_of_nodup hnext.queue_nodup fun c hc ↦ hlt c (hnext.queue_reached c hc)
    have hmul : size * (size * count - weight size count (problem.visit count sources state b)) +
        size ≤ size * (size * count - weight size count state) := by
      rw [← Nat.mul_succ]
      exact Nat.mul_le_mul_left size (by omega)
    rw [List.length_cons]
    omega

/-- **A run with enough evaluations ends with an empty queue, and what every evaluation keeps holds
in the end.** -/
theorem work_induction (hproblem : problem.Fits count) (hlt : ∀ c ∈ reached, c < size)
    (hdep : ∀ c, ∀ d ∈ dependents c, d ∈ reached) {motive : List Nat → Solution → Prop}
    (step : ∀ b queue state, problem.Running size count reached sources (b :: queue) state →
      motive (b :: queue) state → motive (problem.requeue count sources dependents state b queue)
        (problem.visit count sources state b)) (bound : Nat) :
    ∀ queue state, problem.Running size count reached sources queue state → motive queue state →
      potential size count queue state ≤ bound →
      problem.Running size count reached sources []
          (problem.work count sources dependents bound queue state) ∧
        motive [] (problem.work count sources dependents bound queue state) := by
  induction bound with
  | zero =>
    -- Without potential nothing is queued.
    intro queue state h hmotive hbound
    obtain rfl : queue = [] :=
      List.length_eq_zero_iff.1 (Nat.le_zero.1 ((Nat.le_add_right _ _).trans hbound))
    exact ⟨h, hmotive⟩
  | succ bound ih =>
    intro queue state h hmotive hbound
    rcases queue with - | ⟨b, queue⟩
    · exact ⟨h, hmotive⟩
    · rw [work_succ_cons]
      have hfall := h.potential_step hproblem hlt hdep
      exact ih _ _ (h.step hproblem hlt hdep) (step b queue state h hmotive) (by omega)

/-! ### Equations -/

/-- The blocks that are not queued agree with their equations. -/
def Settled (problem : GenKill) (count : Nat) (reached : List Nat) (sources : Nat → List Nat)
    (queue : List Nat) (state : Solution) : Prop :=
  ∀ b ∈ reached, b ∉ queue → state.incoming[b]? = some (meet count state (sources b)) ∧
    state.outgoing[b]? = some (problem.evaluate count sources state b)

/-- A meet depends on the outgoing sets of its sources only. -/
theorem meet_congr {state' : Solution} {blocks : List Nat}
    (h : ∀ p ∈ blocks, state.outgoing[p]? = state'.outgoing[p]?) :
    meet count state blocks = meet count state' blocks := by
  refine List.foldl_ext _ _ _ fun s p hp ↦ ?_
  rw [h p hp]

/-- **One evaluation keeps the blocks that are not queued settled.** What depends on a changed block
is queued. -/
theorem Settled.step (hlt : ∀ c ∈ reached, c < size)
    (hmirror : ∀ c ∈ reached, ∀ p ∈ sources c, p ∈ reached → c ∈ dependents p)
    (h : problem.Running size count reached sources (b :: queue) state)
    (hsettled : problem.Settled count reached sources (b :: queue) state) :
    problem.Settled count reached sources
      (problem.requeue count sources dependents state b queue)
      (problem.visit count sources state b) := by
  intro c hc hnot
  have hb : b ∈ reached := h.queue_reached b (List.mem_cons_self ..)
  have hget : ∀ p, (problem.visit count sources state b).outgoing[p]? =
      if b = p then some (problem.evaluate count sources state b) else state.outgoing[p]? := by
    intro p
    rw [visit, List.getElem?_set]
    split
    · next hbp => rw [if_pos (h.fits.outgoing_length.symm ▸ hlt b hb)]
    · rfl
  obtain ⟨hqueue, hmeet⟩ : c ∉ queue ∧
      meet count (problem.visit count sources state b) (sources c) =
        meet count state (sources c) := by
    unfold requeue at hnot
    split at hnot
    · next heq =>
      refine ⟨hnot, meet_congr fun p _ ↦ ?_⟩
      rw [hget]
      split
      · next hbp => rw [← hbp, heq]
      · rfl
    · rw [mem_enqueue_iff, not_or] at hnot
      refine ⟨hnot.1, meet_congr fun p hp ↦ ?_⟩
      rw [hget, if_neg]
      rintro rfl
      exact hnot.2 (hmirror c hc b hp hb)
  rw [evaluate, hmeet, hget]
  by_cases hbc : b = c
  · subst hbc
    rw [if_pos rfl, visit, List.getElem?_set_self (h.fits.incoming_length.symm ▸ hlt b hb)]
    exact ⟨rfl, rfl⟩
  · rw [if_neg hbc, visit, List.getElem?_set_ne hbc]
    exact hsettled c hc fun hmem ↦ (List.mem_cons.1 hmem).elim (Ne.symm hbc) hqueue

/-! ### The least solution -/

/-- A property of blocks and members that no evaluation leaves: when all that comes into a reached
block has it at a source, all that goes out of the block has it there. -/
def Closed (problem : GenKill) (count : Nat) (reached : List Nat) (sources : Nat → List Nat)
    (P : Nat → Nat → Prop) : Prop :=
  ∀ b ∈ reached, ∀ s : BitSet, s.Fits count →
    (∀ i, s.contains i = true → ∃ p ∈ sources b, P p i) →
    ∀ i, (problem.transfer b s).contains i = true → P b i

/-- A state that agrees with all equations and holds nothing that they do not demand. -/
structure Solves (problem : GenKill) (size count : Nat) (reached : List Nat)
    (sources : Nat → List Nat) (state : Solution) : Prop where
  fits : state.Fits size count
  incoming_eq : ∀ b ∈ reached, state.incoming[b]? = some (meet count state (sources b))
  outgoing_eq : ∀ b ∈ reached,
    state.outgoing[b]? = some (problem.transfer b (meet count state (sources b)))
  least : ∀ P, problem.Closed count reached sources P → ∀ b i, state.out b i = true → P b i

/-- A closed property is not left by one evaluation. -/
theorem Closed.step {P : Nat → Nat → Prop} (hP : problem.Closed count reached sources P)
    (hlt : ∀ c ∈ reached, c < size)
    (h : problem.Running size count reached sources (b :: queue) state)
    (hout : ∀ c i, state.out c i = true → P c i) (c i : Nat)
    (hi : (problem.visit count sources state b).out c i = true) : P c i := by
  have hb : b ∈ reached := h.queue_reached b (List.mem_cons_self ..)
  rw [out_visit h.fits (hlt b hb)] at hi
  split at hi
  · next hcb =>
    subst hcb
    obtain ⟨hfits, hmem⟩ := h.fits.meet_spec (sources c)
    refine hP c hb _ hfits (fun j hj ↦ ?_) i hi
    obtain ⟨p, hp, hpj⟩ := (hmem j).1 hj
    exact ⟨p, hp, hout p j hpj⟩
  · exact hout c i hi

/-- The state that a run starts from. -/
def blank (size count : Nat) : Solution :=
  ⟨List.replicate size (.empty count), List.replicate size (.empty count)⟩

theorem out_blank (size count b i : Nat) : (blank size count).out b i = false := by
  rw [Solution.out, blank, List.getElem?_replicate]
  split
  · exact BitSet.contains_empty count i
  · rfl

/-- The invariant holds at the start, when all sets are empty. -/
theorem blank_running (hnodup : queue.Nodup) (hqueue : ∀ b ∈ queue, b ∈ reached) :
    problem.Running size count reached sources queue (blank size count) := by
  refine ⟨⟨List.length_replicate, List.length_replicate, fun s hs ↦ ?_⟩, hnodup, hqueue,
    fun b i hi ↦ absurd hi (by simp [out_blank])⟩
  rw [(List.mem_replicate.1 hs).2]
  exact BitSet.empty_fits count

/-- A run from the blank state needs no more evaluations than the solver allows. -/
theorem potential_blank_le (hlt : ∀ c ∈ reached, c < size) (hnodup : queue.Nodup)
    (hqueue : ∀ b ∈ queue, b ∈ reached) :
    potential size count queue (blank size count) ≤ size + size * size * count := by
  have hlen := length_le_of_nodup hnodup fun b hb ↦ hlt b (hqueue b hb)
  have hmul := Nat.mul_le_mul_left size
    (Nat.sub_le (size * count) (weight size count (blank size count)))
  rw [← Nat.mul_assoc] at hmul
  unfold potential
  omega

/-- **The solver ends at the least solution.** -/
theorem work_solves (hproblem : problem.Fits count) (hlt : ∀ c ∈ reached, c < size)
    (hdep : ∀ c, ∀ d ∈ dependents c, d ∈ reached)
    (hmirror : ∀ c ∈ reached, ∀ p ∈ sources c, p ∈ reached → c ∈ dependents p)
    (hnodup : queue.Nodup) (hqueue : ∀ b, b ∈ queue ↔ b ∈ reached) {bound : Nat}
    (hbound : size + size * size * count ≤ bound) :
    problem.Solves size count reached sources
      (problem.work count sources dependents bound queue (blank size count)) := by
  have hrun : problem.Running size count reached sources queue (blank size count) :=
    blank_running hnodup fun b ↦ (hqueue b).1
  have hpotential : potential size count queue (blank size count) ≤ bound :=
    (potential_blank_le hlt hnodup fun b ↦ (hqueue b).1).trans hbound
  obtain ⟨hend, hsettled⟩ := work_induction hproblem hlt hdep
    (motive := problem.Settled count reached sources) (fun _ _ _ h ↦ Settled.step hlt hmirror h)
    bound queue _ hrun (fun b hb hnot ↦ absurd ((hqueue b).2 hb) hnot) hpotential
  refine ⟨hend.fits, fun b hb ↦ (hsettled b hb List.not_mem_nil).1,
    fun b hb ↦ (hsettled b hb List.not_mem_nil).2, fun P hP ↦ ?_⟩
  exact (work_induction hproblem hlt hdep
    (motive := fun _ state ↦ ∀ c i, state.out c i = true → P c i)
    (fun _ _ _ h hout ↦ hP.step hlt h hout)
    bound queue _ hrun (fun b i hi ↦ absurd hi (by simp [out_blank])) hpotential).2

end Run

/-! ### Problems over a flow graph -/

/-- The blocks from which information flows into a block. -/
def sourcesOf (g : FlowGraph) (direction : Direction) (b : Nat) : List Nat :=
  match direction with
  | .forward => (g.predecessors b).filter (· ∈ g.reversePostorder)
  | .backward => (g.successors b).filter (· ∈ g.reversePostorder)

section Solve

variable {g : FlowGraph}

/-- Forwards, a block reads from its reached predecessors. -/
theorem mem_sourcesOf_forward_iff {b p : Nat} :
    p ∈ sourcesOf g .forward b ↔ p ∈ g.predecessors b ∧ p ∈ g.reversePostorder := by
  rw [sourcesOf, List.mem_filter, decide_eq_true_iff]

/-- Backwards, it reads from its reached successors. -/
theorem mem_sourcesOf_backward_iff {b p : Nat} :
    p ∈ sourcesOf g .backward b ↔ p ∈ g.successors b ∧ p ∈ g.reversePostorder := by
  rw [sourcesOf, List.mem_filter, decide_eq_true_iff]

theorem sourcesOf_reached (direction : Direction) (b : Nat) :
    ∀ p ∈ sourcesOf g direction b, p ∈ g.reversePostorder := by
  intro p hp
  cases direction with
  | forward => exact (mem_sourcesOf_forward_iff.1 hp).2
  | backward => exact (mem_sourcesOf_backward_iff.1 hp).2

/-- **Over a graph whose predecessors mirror its successors, the solver finds the least solution, in
both directions.** -/
theorem solve_solves (hco : g.toGraph.Coherent) (hproblem : problem.Fits count)
    (direction : Direction) : problem.Solves g.size count g.reversePostorder
      (sourcesOf g direction) (problem.solve g direction count) := by
  have hlt : ∀ b ∈ g.reversePostorder, b < g.size := fun b ↦
    FlowGraph.lt_size_of_mem_reversePostorder
  cases direction with
  | forward =>
    refine work_solves hproblem hlt (sourcesOf_reached .backward) (fun c hc p hp hpr ↦ ?_)
      g.reversePostorder_nodup (fun _ ↦ Iff.rfl) (Nat.le_refl _)
    exact mem_sourcesOf_backward_iff.2
      ⟨(hco p c (hlt p hpr) (hlt c hc)).2 (mem_sourcesOf_forward_iff.1 hp).1, hc⟩
  | backward =>
    refine work_solves hproblem hlt (sourcesOf_reached .forward) (fun c hc p hp hpr ↦ ?_)
      (List.nodup_reverse.2 g.reversePostorder_nodup) (fun _ ↦ List.mem_reverse) (Nat.le_refl _)
    exact mem_sourcesOf_forward_iff.2
      ⟨(hco c p (hlt c hc) (hlt p hpr)).1 (mem_sourcesOf_backward_iff.1 hp).1, hc⟩

end Solve

end GenKill

end FlowGauge
