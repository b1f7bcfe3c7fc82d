import FlowGauge.Proofs.DataFlow.Solver
import FlowGauge.Proofs.Graph.StackSearch
import Mathlib.Data.Set.Basic

/-!
# The equations of a gen/kill problem

A gen/kill problem over a flow graph asks for an incoming and an outgoing set at every reached
block: what comes in is what the reached neighbours pass on, and what goes out is what the block
generates and what it lets through (`Satisfies`). The solver is held against these equations.

Its loop runs without a bound as `takeQueued`, and it ends with an empty queue on every graph,
whatever the neighbour lists say: growth alone makes the potential fall. The mirroring of the lists
matters for the outcome only. Where it fails, a block may change without queueing the blocks that
read from it, and these are left behind; where it holds, the sets are the least that satisfy the
equations. Nothing is ever written at a block that is not reached.

## Least solutions

The equations usually have many solutions: around a cycle that generates nothing, anything may be
passed on for ever. The least one holds what some block generates and the blocks between let
through. `Solved.least` compares the solution with every pair of set-valued functions that satisfies
the equations, sets of any numbers, not only those that a bit set could hold.
-/

namespace FlowGauge

namespace GenKill

/-! ### The loop without a bound -/

/-- What the loop of the solver works on. -/
structure Work where
  queue : List Nat
  state : Solution

/-- Evaluate the first queued block. -/
def takeQueued (problem : GenKill) (count : Nat) (sources dependents : Nat → List Nat) (w : Work) :
    Option Work :=
  match w.queue with
  | [] => none
  | b :: queue => some ⟨problem.requeue count sources dependents w.state b queue,
      problem.visit count sources w.state b⟩

/-- The blocks into which information flows from a block. -/
def dependentsOf (g : FlowGraph) : Direction → Nat → List Nat
  | .forward => sourcesOf g .backward
  | .backward => sourcesOf g .forward

/-- The blocks in the order in which they are first evaluated. -/
def seeds (g : FlowGraph) : Direction → List Nat
  | .forward => g.reversePostorder
  | .backward => g.reversePostorder.reverse

/-! ### Equations over a flow graph -/

/-- The blocks from which information flows directly into a block. -/
def neighbours (g : FlowGraph) : Direction → Nat → List Nat
  | .forward => g.predecessors
  | .backward => g.successors

/-- The incoming set of a block. -/
def Solution.incomingAt (state : Solution) (b : Nat) : Set Nat :=
  {i | state.incoming[b]?.any (·.contains i) = true}

/-- The outgoing set of a block. -/
def Solution.outgoingAt (state : Solution) (b : Nat) : Set Nat :=
  {i | state.out b i = true}

/-- Sets that agree with the equations at every reached block. -/
structure Satisfies (problem : GenKill) (g : FlowGraph) (direction : Direction)
    (incoming outgoing : Nat → Set Nat) : Prop where
  incoming_eq : ∀ b, g.Reached b →
    incoming b = {i | ∃ p ∈ neighbours g direction b, g.Reached p ∧ i ∈ outgoing p}
  outgoing_eq : ∀ b, g.Reached b →
    outgoing b = {i | problem.Gens b i} ∪ (incoming b \ {i | problem.Kills b i})

/-- What the solver finds in a problem over a graph. -/
structure Solved (problem : GenKill) (g : FlowGraph) (direction : Direction) (count : Nat) :
    Prop where
  /-- The loop empties its queue, and the solution is the state it leaves. -/
  ends : Computes (problem.takeQueued count (sourcesOf g direction) (dependentsOf g direction))
    ⟨seeds g direction, blank g.size count⟩ Work.state (problem.solve g direction count)
  /-- Every block has an incoming and an outgoing set of the universe. -/
  shape : (problem.solve g direction count).incoming.length = g.size ∧
    (problem.solve g direction count).outgoing.length = g.size ∧
    ∀ s ∈ (problem.solve g direction count).incoming ++ (problem.solve g direction count).outgoing,
      s.Fits count
  satisfies : g.toGraph.Coherent → problem.Satisfies g direction
    (problem.solve g direction count).incomingAt (problem.solve g direction count).outgoingAt
  least : g.toGraph.Coherent → ∀ incoming outgoing,
    problem.Satisfies g direction incoming outgoing → ∀ b,
      (problem.solve g direction count).incomingAt b ⊆ incoming b ∧
        (problem.solve g direction count).outgoingAt b ⊆ outgoing b
  unreached : ∀ b, ¬g.Reached b → (problem.solve g direction count).incomingAt b = ∅ ∧
    (problem.solve g direction count).outgoingAt b = ∅

section Solve

variable {problem : GenKill} {g : FlowGraph} {direction : Direction} {count : Nat}

/-- A block reads from its reached neighbours. -/
theorem mem_sourcesOf_iff {b p : Nat} :
    p ∈ sourcesOf g direction b ↔ p ∈ neighbours g direction b ∧ g.Reached p := by
  cases direction with
  | forward => exact mem_sourcesOf_forward_iff.trans (and_congr_right fun _ ↦
      FlowGraph.mem_reversePostorder_iff)
  | backward => exact mem_sourcesOf_backward_iff.trans (and_congr_right fun _ ↦
      FlowGraph.mem_reversePostorder_iff)

/-- Only reached blocks are queued. -/
theorem dependentsOf_reached (b : Nat) : ∀ d ∈ dependentsOf g direction b,
    d ∈ g.reversePostorder := by
  cases direction with
  | forward => exact sourcesOf_reached .backward b
  | backward => exact sourcesOf_reached .forward b

/-- Every reached block is queued at the start. -/
theorem mem_seeds_iff {b : Nat} : b ∈ seeds g direction ↔ b ∈ g.reversePostorder := by
  cases direction with
  | forward => exact Iff.rfl
  | backward => exact List.mem_reverse

theorem seeds_nodup : (seeds g direction).Nodup := by
  cases direction with
  | forward => exact g.reversePostorder_nodup
  | backward => exact List.nodup_reverse.2 g.reversePostorder_nodup

/-- **What every evaluation keeps holds of the solution**, whatever the neighbour lists say. -/
theorem solve_induction (g : FlowGraph) (direction : Direction) (hproblem : problem.Fits count)
    {motive : List Nat → Solution → Prop} (start : motive (seeds g direction) (blank g.size count))
    (step : ∀ b queue state, problem.Running g.size count g.reversePostorder
        (sourcesOf g direction) (b :: queue) state → motive (b :: queue) state →
      motive (problem.requeue count (sourcesOf g direction) (dependentsOf g direction) state b
        queue) (problem.visit count (sourcesOf g direction) state b)) :
    problem.Running g.size count g.reversePostorder (sourcesOf g direction) []
        (problem.solve g direction count) ∧
      motive [] (problem.solve g direction count) := by
  have hlt : ∀ b ∈ g.reversePostorder, b < g.size := fun b ↦
    FlowGraph.lt_size_of_mem_reversePostorder
  have hseeds : ∀ b ∈ seeds g direction, b ∈ g.reversePostorder := fun b ↦ mem_seeds_iff.1
  have hwork : problem.solve g direction count =
      problem.work count (sourcesOf g direction) (dependentsOf g direction)
        (g.size + g.size * g.size * count) (seeds g direction) (blank g.size count) := by
    cases direction <;> rfl
  rw [hwork]
  exact work_induction hproblem hlt dependentsOf_reached step _ _ _
    (blank_running seeds_nodup hseeds) start (potential_blank_le hlt seeds_nodup hseeds)

/-- **The loop ends by itself** with what the bounded solver finds. -/
theorem solve_computes (hproblem : problem.Fits count) :
    Computes (problem.takeQueued count (sourcesOf g direction) (dependentsOf g direction))
      ⟨seeds g direction, blank g.size count⟩ Work.state (problem.solve g direction count) := by
  have hrun := (solve_induction g direction hproblem
    (motive := fun queue state ↦ Runs
      (problem.takeQueued count (sourcesOf g direction) (dependentsOf g direction))
      ⟨seeds g direction, blank g.size count⟩ ⟨queue, state⟩)
    .refl fun _ _ _ _ h ↦ h.tail rfl).2
  exact EndsIn.computes ⟨hrun, rfl⟩ Work.state

/-- Every block keeps an incoming and an outgoing set of the universe. -/
theorem solve_shape (hproblem : problem.Fits count) :
    (problem.solve g direction count).incoming.length = g.size ∧
    (problem.solve g direction count).outgoing.length = g.size ∧
    ∀ s ∈ (problem.solve g direction count).incoming ++ (problem.solve g direction count).outgoing,
      s.Fits count := by
  obtain ⟨hend, hincoming⟩ := solve_induction g direction hproblem
    (motive := fun _ state ↦ ∀ s ∈ state.incoming, s.Fits count)
    (fun s hs ↦ (List.mem_replicate.1 hs).2 ▸ BitSet.empty_fits count) (by
      intro b _ state hrun hold s hs
      rcases List.mem_or_eq_of_mem_set hs with hs | rfl
      · exact hold s hs
      · exact (hrun.fits.meet_spec (sourcesOf g direction b)).1)
  refine ⟨hend.fits.incoming_length, hend.fits.outgoing_length, fun s hs ↦ ?_⟩
  exact (List.mem_append.1 hs).elim (hincoming s) (hend.fits.outgoing s)

/-- **A block that is not reached is never evaluated.** -/
theorem solve_unreached (hproblem : problem.Fits count) {b : Nat} (hb : ¬g.Reached b) :
    (problem.solve g direction count).incomingAt b = ∅ ∧
      (problem.solve g direction count).outgoingAt b = ∅ := by
  have hkept := (solve_induction g direction hproblem
    (motive := fun _ state ↦ state.incoming[b]? = (blank g.size count).incoming[b]? ∧
      state.outgoing[b]? = (blank g.size count).outgoing[b]?) ⟨rfl, rfl⟩ (by
      intro c _ state hrun hold
      have hne : c ≠ b := fun hcb ↦ hb (FlowGraph.mem_reversePostorder_iff.1
        (hcb ▸ hrun.queue_reached c List.mem_cons_self))
      rw [visit, List.getElem?_set_ne hne, List.getElem?_set_ne hne]
      exact hold)).2
  constructor
  · refine Set.eq_empty_of_forall_notMem fun i hi ↦ ?_
    have hi : Option.any _ _ = true := hi
    rw [hkept.1] at hi
    exact Bool.false_ne_true ((out_blank g.size count b i).symm.trans hi)
  · refine Set.eq_empty_of_forall_notMem fun i hi ↦ ?_
    have hi : Option.any _ _ = true := hi
    rw [hkept.2] at hi
    exact Bool.false_ne_true ((out_blank g.size count b i).symm.trans hi)

/-- What comes in at a reached block is what its neighbours pass on. -/
theorem incomingAt_of_reached (h : problem.Solves g.size count g.reversePostorder
    (sourcesOf g direction) (problem.solve g direction count)) {b : Nat} (hb : g.Reached b) :
    (problem.solve g direction count).incomingAt b =
      {i | ∃ p ∈ sourcesOf g direction b, i ∈ (problem.solve g direction count).outgoingAt p} := by
  ext i
  show Option.any _ _ = true ↔ ∃ p ∈ sourcesOf g direction b, Solution.out _ p i = true
  rw [h.incoming_eq b (FlowGraph.mem_reversePostorder_iff.2 hb)]
  exact (h.fits.meet_spec (sourcesOf g direction b)).2 i

/-- **The solution satisfies the equations**, when successors and predecessors mirror each other. -/
theorem solve_satisfies (hco : g.toGraph.Coherent) (hproblem : problem.Fits count) :
    problem.Satisfies g direction (problem.solve g direction count).incomingAt
      (problem.solve g direction count).outgoingAt := by
  have h := solve_solves hco hproblem direction
  constructor
  · intro b hb
    rw [incomingAt_of_reached h hb]
    simp only [mem_sourcesOf_iff, and_assoc]
  · intro b hb
    rw [incomingAt_of_reached h hb]
    ext i
    obtain ⟨hfits, hmeet⟩ := h.fits.meet_spec (sourcesOf g direction b)
    show Option.any _ _ = true ↔ _
    rw [h.outgoing_eq b (FlowGraph.mem_reversePostorder_iff.2 hb)]
    refine ((hproblem.transfer_spec b hfits).2 i).trans ?_
    rw [hmeet]
    rfl

/-- **The outgoing sets lie in those of any sets that satisfy the equations.** -/
theorem outgoingAt_subset (hco : g.toGraph.Coherent) (hproblem : problem.Fits count)
    {incoming outgoing : Nat → Set Nat} (hsat : problem.Satisfies g direction incoming outgoing)
    (b : Nat) : (problem.solve g direction count).outgoingAt b ⊆ outgoing b := by
  refine fun i ↦ (solve_solves hco hproblem direction).least (fun b i ↦ i ∈ outgoing b) ?_ b i
  -- Sets that satisfy the equations are not left by an evaluation.
  intro b hb s hs hsources i hi
  have hreached : g.Reached b := FlowGraph.mem_reversePostorder_iff.1 hb
  rw [(hproblem.transfer_spec b hs).2] at hi
  show i ∈ outgoing b
  rw [hsat.outgoing_eq b hreached, hsat.incoming_eq b hreached]
  refine hi.imp id fun ⟨hi, hkept⟩ ↦ ⟨?_, hkept⟩
  obtain ⟨p, hp, hout⟩ := hsources i hi
  obtain ⟨hneighbour, hpreached⟩ := mem_sourcesOf_iff.1 hp
  exact ⟨p, hneighbour, hpreached, hout⟩

/-- **The solver ends on every graph, and on a graph whose predecessors mirror its successors it
finds the least solution of the equations**, in both directions and for any sets of the universe. -/
theorem solve_least (g : FlowGraph) (direction : Direction) {count : Nat} {problem : GenKill}
    (hproblem : problem.Fits count) : problem.Solved g direction count where
  ends := solve_computes hproblem
  shape := solve_shape hproblem
  satisfies hco := solve_satisfies hco hproblem
  least hco incoming outgoing hsat b := by
    refine ⟨?_, outgoingAt_subset hco hproblem hsat b⟩
    rcases Classical.em (g.Reached b) with hb | hb
    · rw [(solve_satisfies hco hproblem).incoming_eq b hb, hsat.incoming_eq b hb]
      exact fun i ⟨p, hp, hreached, hi⟩ ↦
        ⟨p, hp, hreached, outgoingAt_subset hco hproblem hsat p hi⟩
    · rw [(solve_unreached hproblem hb).1]
      exact Set.empty_subset _
  unreached b hb := solve_unreached hproblem hb

end Solve

/-- A loop of blocks 1 and 2 behind the entry, and a dead block that leads into it. -/
def sideDoor : FlowGraph where
  routineName := "side"
  blocks := [{ id := 0, start := 0, stop := 0, code := [], successors := .ofList [1] },
    { id := 1, start := 0, stop := 0, code := [], predecessors := .ofList [0, 2, 3],
      successors := .ofList [2] },
    { id := 2, start := 0, stop := 0, code := [], predecessors := .ofList [1],
      successors := .ofList [1] },
    { id := 3, start := 0, stop := 0, code := [], successors := .ofList [1] }]
  edges := []
  entry := some 0
  exits := ∅

/-- The entry, block 2 and the dead block generate one number each, and block 1 kills that of the
entry. -/
def sideDoorProblem : GenKill where
  gen := [.ofList 3 [0], .empty 3, .ofList 3 [1], .ofList 3 [2]]
  kill := [.empty 3, .ofList 3 [0], .empty 3, .empty 3]

/-- Its sets mirror each other. -/
theorem sideDoor_coherent : sideDoor.toGraph.Coherent := by
  have hall : ∀ u < 4, ∀ v < 4,
      (v ∈ sideDoor.successors u ↔ u ∈ sideDoor.predecessors v) := by decide +kernel
  exact fun u v hu hv ↦ hall u hu v hv

theorem sideDoorProblem_fits : sideDoorProblem.Fits 3 := by
  have hfits : ∀ indices : List Nat, (∀ i ∈ indices, i < 3) → (BitSet.ofList 3 indices).Fits 3 :=
    fun indices hlt ↦ (BitSet.ofList_fits_and_contains hlt).1
  have hempty := BitSet.empty_fits 3
  constructor
  · simp only [sideDoorProblem, List.forall_mem_cons, List.not_mem_nil, false_implies, implies_true,
      and_true]
    exact ⟨hfits [0] (by decide), hempty, hfits [1] (by decide), hfits [2] (by decide)⟩
  · simp only [sideDoorProblem, List.forall_mem_cons, List.not_mem_nil, false_implies, implies_true,
      and_true]
    exact ⟨hempty, hfits [0] (by decide), hempty, hempty⟩

theorem solve_least_sideDoor : sideDoor.toGraph.Coherent ∧ sideDoorProblem.Fits 3 ∧
    sideDoorProblem.Solved sideDoor .forward 3 ∧ sideDoorProblem.Solved sideDoor .backward 3 ∧
    (sideDoorProblem.solve sideDoor .forward 3).incoming.map BitSet.toList =
      [[], [0, 1], [1], []] ∧
    (sideDoorProblem.solve sideDoor .backward 3).incoming.map BitSet.toList =
      [[1], [1], [1], []] :=
  ⟨sideDoor_coherent, sideDoorProblem_fits, solve_least sideDoor .forward sideDoorProblem_fits,
    solve_least sideDoor .backward sideDoorProblem_fits, by decide +kernel, by decide +kernel⟩

end GenKill

end FlowGauge
