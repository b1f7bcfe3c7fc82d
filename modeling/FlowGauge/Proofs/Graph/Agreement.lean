import FlowGauge.Proofs.Graph.Settling
import FlowGauge.Proofs.Graph.Sweep

/-!
# Graphs that agree on what is reached

Two graphs agree from a start when the nodes reached from it have the same successors, and the same
predecessors up to nodes that are not reached. Unreached nodes are free: they may have any edges,
also edges into reached nodes.

Each algorithm is run on both graphs side by side. The depth-first search and the sweeps follow
successors or filtered predecessors of reached nodes only, so they make the same steps. The passes
over a dominator table look at all predecessors of a node but skip those without an entry, and in no
table of the run does an unreached node have one (`Confined`).

The comparison is between results and not between descriptions of results, so nothing is assumed of
the graphs beyond the agreement: their lists need not mirror each other, and no result has to mean
anything.
-/

namespace FlowGauge

namespace Graph

/-- The nodes reached from the start have the same successors in both graphs, and every filter that
keeps only reached nodes leaves them the same predecessors. -/
structure AgreesFrom (g h : Graph) (start : Nat) : Prop where
  size_eq : g.size = h.size
  successors_eq : ∀ v, g.Reaches start v → g.successors v = h.successors v
  filter_predecessors_eq : ∀ v, g.Reaches start v → ∀ keep : Nat → Bool,
    (∀ p, keep p = true → g.Reaches start p) →
      (g.predecessors v).filter keep = (h.predecessors v).filter keep

namespace AgreesFrom

theorem refl (g : Graph) (start : Nat) : g.AgreesFrom g start :=
  ⟨rfl, fun _ _ ↦ rfl, fun _ _ _ _ ↦ rfl⟩

variable {g h : Graph} {start : Nat} (hgh : g.AgreesFrom h start)

include hgh

/-! ### Searches -/

/-- Graphs that agree reach the same nodes: a path never leaves what is reached. -/
theorem reaches_iff {v : Nat} : g.Reaches start v ↔ h.Reaches start v := by
  constructor
  · intro hv
    induction hv with
    | refl hlt => exact .refl (hgh.size_eq ▸ hlt)
    | @step v w hreach hedge ih =>
      obtain ⟨hv, hw, hmem⟩ := hedge
      rw [hgh.size_eq] at hv hw
      exact ih.step ⟨hv, hw, hgh.successors_eq v hreach ▸ hmem⟩
  · intro hv
    induction hv with
    | refl hlt => exact .refl (hgh.size_eq ▸ hlt)
    | @step v w _ hedge ih =>
      obtain ⟨hv, hw, hmem⟩ := hedge
      rw [← hgh.size_eq] at hv hw
      exact ih.step ⟨hv, hw, hgh.successors_eq v ih ▸ hmem⟩

/-- The depth-first searches below a reached node are the same. -/
theorem explore_eq (depth : Nat) : ∀ {u : Nat}, g.Reaches start u → ∀ t,
    g.explore depth u t = h.explore depth u t := by
  induction depth with
  | zero => exact fun _ _ ↦ rfl
  | succ depth ih =>
    intro u hu t
    have hfollow : ∀ (t : Trail), ∀ v ∈ h.successors u,
        g.follow depth u t v = h.follow depth u t v := by
      intro t v hv
      unfold follow
      rw [← hgh.size_eq]
      split
      · rfl
      · next hlt =>
        have hedge : g.Edge u v := ⟨hu.lt_size, Nat.not_le.1 hlt, hgh.successors_eq u hu ▸ hv⟩
        rw [ih (hu.step hedge)]
    rw [explore_succ, explore_succ, hgh.successors_eq u hu,
      List.foldl_ext _ _ _ hfollow]

/-- The depth-first searches make the same steps, so their whole records agree. -/
theorem trail_eq : g.trail start = h.trail start := by
  unfold trail
  rw [← hgh.size_eq]
  split
  · next hstart => exact hgh.explore_eq _ (.refl hstart) _
  · rfl

theorem reversePostorder_eq : g.reversePostorder start = h.reversePostorder start := by
  rw [reversePostorder, postorder, hgh.trail_eq]
  rfl

theorem numbering_eq : g.numbering start = h.numbering start := by
  rw [numbering, hgh.reversePostorder_eq, hgh.size_eq]
  rfl

/-- Sweeps with neighbours that agree on reached nodes, and that lead from reached nodes to reached
nodes, are the same. -/
theorem sweep_eq {neighbours neighbours' : Nat → List Nat}
    {join : List Nat → List Nat → List Nat}
    (hjoin : ∀ fresh pending, (join fresh pending).Perm (fresh ++ pending))
    (hagree : ∀ v, g.Reaches start v → neighbours v = neighbours' v)
    (hstays : ∀ v, ∀ w ∈ neighbours v, g.Reaches start w) (bound : Nat) :
    ∀ pending seen : List Nat, (∀ v ∈ pending, g.Reaches start v) →
      g.sweep neighbours join bound pending seen = h.sweep neighbours' join bound pending seen := by
  induction bound with
  | zero => exact fun _ _ _ ↦ rfl
  | succ bound ih =>
    rintro (- | ⟨v, pending⟩) seen hpending
    · rfl
    · have hunseen : g.unseen seen (neighbours v) = h.unseen seen (neighbours' v) := by
        rw [hagree v (hpending v (List.mem_cons_self ..)), unseen, hgh.size_eq]
        rfl
      rw [sweep, sweep, ← hunseen]
      congr 1
      refine ih _ _ fun w hw ↦ ?_
      rcases List.mem_append.1 ((hjoin _ _).mem_iff.1 hw) with hfresh | hold
      · exact hstays v w (mem_unseen_iff.1 hfresh).1
      · exact hpending w (.tail v hold)

end AgreesFrom

end Graph

/-! ### Dominators -/

namespace DominatorTable

variable {g h : Graph} {start : Nat} {numbering : Array (Option Nat)} {table : DominatorTable}

/-- Predecessors without an entry do not take part in a meeting. -/
theorem meetAll_filter (table : DominatorTable) (numbering : Array (Option Nat))
    (nodes : List Nat) :
    table.meetAll numbering (nodes.filter fun p ↦ (table.at? p).isSome) =
      table.meetAll numbering nodes := by
  unfold meetAll
  rw [List.foldl_filter]
  refine List.foldl_ext _ _ _ fun found p _ ↦ ?_
  rcases table.at? p with - | u
  · rfl
  · rfl

/-- Only nodes reached from the start have an entry. -/
def Confined (g : Graph) (start : Nat) (table : DominatorTable) : Prop :=
  ∀ v, table.Filled v → g.Reaches start v

/-- Giving a reached node an entry keeps a table confined. -/
theorem Confined.setIfInBounds (hc : table.Confined g start) {v : Nat} (hv : g.Reaches start v)
    (d : Nat) : Confined g start (table.setIfInBounds v (some d)) := by
  intro w hw
  by_cases hwv : w = v
  · exact hwv ▸ hv
  · refine hc w ?_
    rwa [Filled, at?, Array.getElem?_setIfInBounds_ne (Ne.symm hwv)] at hw

/-- Recomputing a reached node gives no entry to any other. -/
theorem Confined.refine (hc : table.Confined g start) {v : Nat} (hv : g.Reaches start v) :
    (table.refine g numbering v).Confined g start := by
  unfold DominatorTable.refine
  split
  · exact hc.setIfInBounds hv _
  · exact hc

/-- A pass over reached nodes fills no others. -/
theorem Confined.pass {order : List Nat} (horder : ∀ v ∈ order, g.Reaches start v) :
    ∀ {table : DominatorTable}, table.Confined g start →
      (table.pass g numbering order).Confined g start := by
  induction order with
  | nil => exact fun hc ↦ hc
  | cons v order ih =>
    intro table hc
    exact ih (fun w hw ↦ horder w (.tail v hw)) (hc.refine (horder v (List.mem_cons_self ..)))

variable (hgh : g.AgreesFrom h start)

include hgh

/-- **The dead predecessors of a node do not move its immediate dominator.** -/
theorem Confined.refine_eq (hc : table.Confined g start) {v : Nat} (hv : g.Reaches start v) :
    table.refine g numbering v = table.refine h numbering v := by
  have hfilter := hgh.filter_predecessors_eq v hv (fun p ↦ (table.at? p).isSome) hc
  rw [DominatorTable.refine, DominatorTable.refine, ← meetAll_filter, hfilter, meetAll_filter]

/-- **Confined tables are recomputed alike**: the predecessors in which the graphs differ have no
entry and are passed over. -/
theorem Confined.pass_eq {order : List Nat} (horder : ∀ v ∈ order, g.Reaches start v) :
    ∀ {table : DominatorTable}, table.Confined g start →
      table.pass g numbering order = table.pass h numbering order := by
  induction order with
  | nil => exact fun _ ↦ rfl
  | cons v order ih =>
    intro table hc
    have hv := horder v (List.mem_cons_self ..)
    have hrefined : (table.refine g numbering v).Confined g start := hc.refine hv
    have hstep := ih (fun w hw ↦ horder w (.tail v hw)) hrefined
    rw [DominatorTable.pass, List.foldl_cons, ← DominatorTable.pass, hstep, hc.refine_eq hgh hv]
    rfl

/-- The passes settle at the same confined table. -/
theorem Confined.settle_eq (numbering : Array (Option Nat)) {order : List Nat}
    (horder : ∀ v ∈ order, g.Reaches start v) (bound : Nat) :
    ∀ {table : DominatorTable}, table.Confined g start →
      settle g numbering order bound table = settle h numbering order bound table ∧
        (settle g numbering order bound table).Confined g start := by
  induction bound with
  | zero => exact fun hc ↦ ⟨rfl, hc⟩
  | succ bound ih =>
    intro table hc
    rw [settle, settle, ← hc.pass_eq hgh horder]
    split
    · exact ⟨rfl, hc⟩
    · exact ih (hc.pass horder)

end DominatorTable

namespace Dominators

variable {g h : Graph} {start : Nat} (hgh : g.AgreesFrom h start)

include hgh

/-- The two graphs have one dominator table. -/
theorem compute_eq_and_confined : compute g start = compute h start ∧
    (compute g start).table.Confined g start := by
  have hblank : DominatorTable.Confined g start (Array.replicate g.size none) := by
    intro v hv
    rw [DominatorTable.Filled, DominatorTable.at?, Array.getElem?_replicate] at hv
    split at hv
    · exact absurd hv (by simp)
    · exact absurd hv (by simp)
  unfold compute
  rw [← hgh.size_eq, ← hgh.numbering_eq, ← hgh.reversePostorder_eq]
  split
  · next hstart =>
    have horder : ∀ v ∈ (g.reversePostorder start).drop 1, g.Reaches start v := fun v hv ↦
      Graph.mem_reversePostorder_iff.1 (List.mem_of_mem_drop hv)
    obtain ⟨heq, hc⟩ := DominatorTable.Confined.settle_eq hgh (g.numbering start).toArray horder
      (Nat.pow (g.size + 1) g.size) (hblank.setIfInBounds (.refl hstart) start)
    exact ⟨congrArg (Dominators.mk start) heq, hc⟩
  · exact ⟨rfl, hblank⟩

/-- **Dead nodes do not show in the table of immediate dominators.** -/
theorem compute_eq : compute g start = compute h start :=
  (compute_eq_and_confined hgh).1

omit hgh in
/-- Only reached nodes count as reachable. -/
theorem reaches_of_isReachable {v : Nat} (hv : (compute g start).isReachable v = true) :
    g.Reaches start v :=
  (compute_eq_and_confined (.refl g start)).2 v hv

/-- **Nor do they show in the dominance frontiers.** -/
theorem frontiers_eq :
    (compute g start).frontiers g = (compute g start).frontiers h := by
  have hpassed : ∀ join, (compute g start).passed g join = (compute g start).passed h join := by
    intro join
    unfold passed
    rcases hjoin : (compute g start).isReachable join with - | -
    · rfl
    · rw [hgh.filter_predecessors_eq join (reaches_of_isReachable hjoin) _
        fun p hp ↦ reaches_of_isReachable hp]
  unfold frontiers
  simp only [hpassed, hgh.size_eq]

end Dominators

end FlowGauge
