import FlowGauge.Proofs.Flow.Dominance
import FlowGauge.Proofs.Graph.Termination
import Mathlib.Data.List.TakeWhile

/-!
# Dominance frontiers

The dominance of a node ends at the nodes of its frontier (`Graph.InFrontier`). The computation
looks at the joins only, the nodes with two reached predecessors, and climbs from the predecessors
of a join to its immediate dominator. The climb passes the dominators of the predecessor that do not
dominate the immediate dominator of the join (`mem_takeWhile_chain_iff`), which are those that do
not strictly dominate the join.

Leaving out the nodes that are no joins is right for every node but the entry. A node with a single
reached predecessor has it as its immediate dominator, and nothing is passed. The entry has no
immediate dominator, though: it belongs to frontiers as soon as one edge leads back to it, but it is
listed there only when two do (`Dominators.mem_frontier_iff`).

A frontier is computed by climbing from the predecessors of a join. A node with one reached
predecessor is taken for none, which is right unless the node is the entry: the start of a path
counts as one more way into it.
-/

namespace FlowGauge

namespace Graph

variable {g : Graph} {entry n m : Nat}

/-- `m` is in the dominance frontier of `n`: it is reached, `n` dominates a reached predecessor of
it, and `n` does not strictly dominate it. -/
structure InFrontier (g : Graph) (entry n m : Nat) : Prop where
  reached : g.Reaches entry m
  exists_dominated : ∃ p, g.Reaches entry p ∧ g.Edge p m ∧ g.Dominates entry n p
  not_strict : ¬(n ≠ m ∧ g.Dominates entry n m)

/-- The node is a join: two of its listed predecessors are reached. -/
def Joins (g : Graph) (entry m : Nat) : Prop :=
  ∃ p q, [p, q].Sublist (g.predecessors m) ∧ g.Reaches entry p ∧ g.Reaches entry q

end Graph

namespace Dominators

variable {g : Graph} {d : Dominators} {n m p u : Nat}

section Table

variable (h : d.table.Exact g d.entry)

include h

/-! ### Climbs to an immediate dominator -/

/-- **A climb from a node to one of its dominators passes the dominators below that one.** -/
theorem mem_takeWhile_chain_iff (hu : g.Dominates d.entry u p) :
    n ∈ (d.chain p).takeWhile (fun c ↦ some c ≠ some u) ↔
      g.Dominates d.entry n p ∧ ¬g.Dominates d.entry n u := by
  -- Where the climb starts at its goal, nothing is passed.
  have hstop : ∀ chain : List Nat, n ∈ (u :: chain).takeWhile (fun c ↦ some c ≠ some u) ↔
      g.Dominates d.entry n u ∧ ¬g.Dominates d.entry n u := by
    intro chain
    rw [List.takeWhile_cons_of_neg (by simp), and_not_self_iff]
    exact iff_false_intro List.not_mem_nil
  refine chain_induction h.rooted (motive := fun p ↦ g.Dominates d.entry u p →
    (n ∈ (d.chain p).takeWhile (fun c ↦ some c ≠ some u) ↔
      g.Dominates d.entry n p ∧ ¬g.Dominates d.entry n u)) ?_ ?_
    ((h.filled_iff_reaches p).2 hu.1) hu
  · intro hu
    obtain rfl : u = d.entry := hu.eq_entry
    rw [chain_entry h.rooted]
    exact hstop []
  · intro p q hat hne ih hu
    obtain ⟨-, hdom, hlow⟩ := h.at?_spec p q hat hne
    rw [chain_cons h.rooted hat hne]
    by_cases hpu : p = u
    · rw [hpu]
      exact hstop (d.chain q)
    · rw [List.takeWhile_cons_of_pos (by simpa using hpu), List.mem_cons,
        ih (hlow u (Ne.symm hpu) hu)]
      constructor
      · rintro (rfl | hn)
        · exact ⟨.refl hdom.1, fun hpd ↦ hpu (hpd.antisymm hu)⟩
        · exact ⟨hn.1.trans hdom, hn.2⟩
      · intro hn
        by_cases heq : n = p
        · exact Or.inl heq
        · exact Or.inr ⟨hlow n heq hn.1, hn.2⟩

/-- What dominates the immediate dominator of a node is what strictly dominates the node. -/
theorem dominates_at?_iff (hat : d.table.at? m = some u) (hne : m ≠ d.entry) :
    g.Dominates d.entry n u ↔ n ≠ m ∧ g.Dominates d.entry n m := by
  obtain ⟨hum, hdom, hlow⟩ := h.at?_spec m u hat hne
  constructor
  · intro hn
    refine ⟨?_, hn.trans hdom⟩
    rintro rfl
    exact hum (hdom.antisymm hn)
  · exact fun hn ↦ hlow n hn.1 hn.2

/-- **The climb to the immediate dominator of a node passes what does not strictly dominate the
node.** -/
theorem mem_climb_iff (hm : g.Reaches d.entry m) (hp : g.Reaches d.entry p) (hedge : g.Edge p m) :
    n ∈ (d.chain p).takeWhile (fun c ↦ some c ≠ d.idom? m) ↔
      g.Dominates d.entry n p ∧ ¬(n ≠ m ∧ g.Dominates d.entry n m) := by
  by_cases hne : m = d.entry
  · -- The entry has no immediate dominator, so the climb goes up to the entry itself.
    have hall : (d.chain p).takeWhile (fun c ↦ some c ≠ d.idom? m) = d.chain p := by
      rw [hne, idom?_entry]
      exact List.takeWhile_eq_self_iff.2 fun c _ ↦ by simp
    have hentry : ¬(n ≠ m ∧ g.Dominates d.entry n m) := by
      rw [hne]
      exact fun hn ↦ hn.1 hn.2.eq_entry
    rw [hall, mem_chain_iff h, and_iff_left hentry]
  · obtain ⟨u, hu, hat, -⟩ := idom?_eq_some h hm hne
    obtain ⟨hum, hdom, -⟩ := h.at?_spec m u hat hne
    rw [hu, mem_takeWhile_chain_iff h (hdom.of_edge hum hp hedge), dominates_at?_iff h hat hne]

/-! ### Joins -/

theorem two_le_sources_iff :
    2 ≤ ((g.predecessors m).filter d.isReachable).length ↔ g.Joins d.entry m := by
  constructor
  · intro hlen
    match hsources : (g.predecessors m).filter d.isReachable, hlen with
    | p :: q :: rest, _ =>
      have hsub : [p, q].Sublist ((g.predecessors m).filter d.isReachable) := by
        rw [hsources]
        exact ((List.nil_sublist rest).cons_cons q).cons_cons p
      have hreach : ∀ x ∈ [p, q], g.Reaches d.entry x := fun x hx ↦
        (isReachable_iff h).1 (List.mem_filter.1 (hsub.subset hx)).2
      exact ⟨p, q, hsub.trans List.filter_sublist, hreach p (by simp), hreach q (by simp)⟩
  · rintro ⟨p, q, hsub, hp, hq⟩
    have hkept : [p, q].filter d.isReachable = [p, q] := by
      simp [(isReachable_iff h).2 hp, (isReachable_iff h).2 hq]
    have hle := (hsub.filter d.isReachable).length_le
    rwa [hkept] at hle

/-- **A node in a frontier is a join, the entry apart.** Its only reached predecessor would be its
immediate dominator, and a dominator of that strictly dominates the node. -/
theorem joins_of_inFrontier (hco : g.Coherent) (hfrontier : g.InFrontier d.entry n m)
    (hne : m ≠ d.entry) : g.Joins d.entry m := by
  obtain ⟨p, hp, hedge, hnp⟩ := hfrontier.exists_dominated
  obtain ⟨u, -, hat, -⟩ := idom?_eq_some h hfrontier.reached hne
  obtain ⟨hum, hdom, hlow⟩ := h.at?_spec m u hat hne
  have hmem : ∀ x, g.Reaches d.entry x → g.Edge x m →
      x ∈ (g.predecessors m).filter d.isReachable := fun x hx hxm ↦
    List.mem_filter.2 ⟨(hco x m hxm.1 hxm.2.1).1 hxm.2.2, (isReachable_iff h).2 hx⟩
  by_contra hjoins
  rw [← two_le_sources_iff h] at hjoins
  -- With fewer than two listed predecessors that are reached, `p` is the only one.
  have honly : ∀ x, g.Reaches d.entry x → g.Edge x m → x = p := by
    intro x hx hxm
    obtain ⟨y, hy⟩ : ∃ y, (g.predecessors m).filter d.isReachable = [y] := by
      have hpos := List.length_pos_of_mem (hmem x hx hxm)
      exact List.length_eq_one_iff.1 (by omega)
    have hxy := hmem x hx hxm
    have hpy := hmem p hp hedge
    rw [hy, List.mem_singleton] at hxy hpy
    rw [hxy, hpy]
  have hpm : p ≠ m := by
    rintro rfl
    obtain ⟨x, hx, hxm, hlt⟩ := Graph.exists_parent hfrontier.reached hne
    exact Nat.lt_irrefl _ (honly x hx hxm ▸ hlt)
  have hdomp : g.Dominates d.entry p m := by
    refine ⟨hfrontier.reached, fun π hπ ↦ ?_⟩
    cases hπ with
    | single _ => exact absurd rfl hne
    | snoc hπ hlast =>
      exact List.mem_append_left _ (honly _ hπ.reaches hlast ▸ hπ.target_mem)
  have hpu : g.Dominates d.entry p u := hlow p hpm hdomp
  exact hfrontier.not_strict ((dominates_at?_iff h hat hne).1 (hnp.trans hpu))

/-- **The computed frontier of a node is its dominance frontier, but for an entry that is no
join.** -/
theorem mem_frontier_iff (hco : g.Coherent) :
    m ∈ d.frontier g n ↔ g.InFrontier d.entry n m ∧ (m = d.entry → g.Joins d.entry m) := by
  have hpassed : n ∈ d.passed g m ↔ g.InFrontier d.entry n m ∧ g.Joins d.entry m := by
    rw [mem_passed_iff, isReachable_iff h, two_le_sources_iff h]
    constructor
    · rintro ⟨hm, hjoins, p, hpred, hp, hmem⟩
      have hp := (isReachable_iff h).1 hp
      have hedge : g.Edge p m :=
        ⟨hp.lt_size, hm.lt_size, (hco p m hp.lt_size hm.lt_size).2 hpred⟩
      obtain ⟨hnp, hstrict⟩ := (mem_climb_iff h hm hp hedge).1 hmem
      exact ⟨⟨hm, ⟨p, hp, hedge, hnp⟩, hstrict⟩, hjoins⟩
    · rintro ⟨⟨hm, ⟨p, hp, hedge, hnp⟩, hstrict⟩, hjoins⟩
      exact ⟨hm, hjoins, p, (hco p m hedge.1 hedge.2.1).1 hedge.2.2, (isReachable_iff h).2 hp,
        (mem_climb_iff h hm hp hedge).2 ⟨hnp, hstrict⟩⟩
  rw [frontier, List.mem_filter, List.mem_range, decide_eq_true_iff, hpassed]
  constructor
  · exact fun hm ↦ ⟨hm.2.1, fun _ ↦ hm.2.2⟩
  · intro hm
    refine ⟨hm.1.reached.lt_size, hm.1, ?_⟩
    by_cases hne : m = d.entry
    · exact hm.2 hne
    · exact joins_of_inFrontier h hco hm.1 hne

end Table

end Dominators

namespace Dominance

open Dominators FlowGraph

variable {g : FlowGraph} {t : Dominators}

/-- The recorded frontier of a reached block is that of the table. -/
theorem mem_frontiers_getElem?_iff (h : t.table.Exact g.toGraph t.entry) {n : Nat}
    (hn : g.toGraph.Reaches t.entry n) : ∃ s : BlockSet, (ofTable g t).frontiers[n]? = some s ∧
      ∀ m, m ∈ s ↔ m ∈ t.frontier g.toGraph n := by
  have hget : (ofTable g t).frontiers[n]? = some (.ofList (t.frontier g.toGraph n)) := by
    show (tabulate _ _)[n]? = _
    rw [getElem?_tabulate, if_pos ((mem_nodes_iff h).2 hn),
      frontiers_eq_map_frontier, List.getElem?_toArray, List.getElem?_map,
      List.getElem?_range hn.lt_size]
    rfl
  exact ⟨_, hget, fun m ↦ by rw [Std.ExtTreeSet.mem_ofList, List.contains_iff_mem]⟩

/-- **Dominance frontiers match their definition, but for an entry that is no join.** On every graph
whose predecessors mirror its successors, such as the graph of any routine, the frontier computed
for a reached node is its dominance frontier, except that the entry is left out as long as it has
fewer than two reached predecessors. The dominance record of a flow graph holds the same
frontiers. -/
theorem frontiers_exact_of_joins (g : Graph) (entry n : Nat) (hco : g.Coherent)
    (he : entry < g.size) (hn : g.Reaches entry n) : (∀ r, (ofRoutine r).toGraph.Coherent) ∧
    (∃ nodes, ((Dominators.compute g entry).frontiers g)[n]? = some nodes ∧ ∀ m, m ∈ nodes ↔
      g.InFrontier entry n m ∧ (m = entry → g.Joins entry m)) ∧
    ∀ flow : FlowGraph, flow.toGraph = g → flow.entry = some entry →
      ∃ s : BlockSet, (compute flow).frontiers[n]? = some s ∧ ∀ m, m ∈ s ↔
        g.InFrontier entry n m ∧ (m = entry → g.Joins entry m) := by
  refine ⟨ofRoutine_coherent, ?_, fun flow hflow hentry ↦ ?_⟩
  · have htable :
        (Dominators.compute g entry).table.Exact g (Dominators.compute g entry).entry := by
      rw [compute_entry]
      exact Dominators.compute_exact hco he
    refine ⟨(Dominators.compute g entry).frontier g n, ?_, fun m ↦ ?_⟩
    · rw [frontiers_eq_map_frontier, List.getElem?_map, List.getElem?_range hn.lt_size]
      rfl
    · rw [mem_frontier_iff htable hco, compute_entry]
  · subst hflow
    obtain ⟨heq, htable⟩ := compute_eq_and_exact hco hentry he
    rw [← compute_entry flow.toGraph entry] at hn
    obtain ⟨s, hs, hmem⟩ := mem_frontiers_getElem?_iff htable hn
    refine ⟨s, heq ▸ hs, fun m ↦ ?_⟩
    rw [hmem, mem_frontier_iff htable hco, compute_entry]

/-- Two edges lead back to the entry, from nodes one and two. -/
def twoReturns : Graph :=
  .ofEdges 3 [(0, 1), (1, 2), (2, 0), (1, 0)]

theorem frontiers_exact_of_joins_twoReturns : twoReturns.Coherent ∧ 0 < twoReturns.size ∧
    twoReturns.Reaches 0 1 ∧
      (∃ nodes, ((Dominators.compute twoReturns 0).frontiers twoReturns)[1]? = some nodes ∧
        ∀ m, m ∈ nodes ↔ twoReturns.InFrontier 0 1 m ∧ (m = 0 → twoReturns.Joins 0 m)) ∧
      ((Dominators.compute twoReturns 0).frontiers twoReturns)[1]? = some [0] := by
  have hall : ∀ u < 3, ∀ v < 3,
      (v ∈ twoReturns.successors u ↔ u ∈ twoReturns.predecessors v) := by decide
  have hco : twoReturns.Coherent := fun u v hu hv ↦ hall u hu v hv
  have hreach : twoReturns.Reaches 0 1 :=
    .step (.refl (by decide)) ⟨by decide, by decide, by decide⟩
  exact ⟨hco, by decide, hreach,
    (frontiers_exact_of_joins twoReturns 0 1 hco (by decide) hreach).2.1, by decide +kernel⟩

/-- A single block that jumps back to its start. -/
def spin : Routine where
  name := "spin"
  instructions := [⟨0, .label, [.label "top"], none, none, none⟩, ⟨1, .nop, [], none, none, none⟩,
    ⟨2, .branch, [.label "top"], none, none, none⟩]

/-- **An entry that one edge leads back to is missing from its own frontier.** -/
theorem frontier_misses_entry : (ofRoutine spin).toGraph.Coherent ∧ 0 < (ofRoutine spin).size ∧
    (ofRoutine spin).toGraph.Reaches 0 0 ∧ (ofRoutine spin).toGraph.InFrontier 0 0 0 ∧
      ((Dominators.compute (ofRoutine spin).toGraph 0).frontiers (ofRoutine spin).toGraph)[0]? =
        some [] ∧ (compute (ofRoutine spin)).frontiers[0]? = some ∅ := by
  have hsize : 0 < (ofRoutine spin).size := by decide +kernel
  have hreach : (ofRoutine spin).toGraph.Reaches 0 0 := .refl hsize
  have hedge : (ofRoutine spin).toGraph.Edge 0 0 :=
    ⟨hsize, hsize, by
      show 0 ∈ (ofRoutine spin).successors 0
      decide +kernel⟩
  exact ⟨ofRoutine_coherent spin, hsize, hreach,
    ⟨hreach, ⟨0, hreach, hedge, .refl hreach⟩, fun h ↦ h.1 rfl⟩, by decide +kernel,
    by decide +kernel⟩

end Dominance

end FlowGauge
