import FlowGauge.Proofs.Graph.StackSearch
import FlowGauge.Proofs.Graph.Sweep
import Mathlib.Order.Lattice.Nat

/-!
# Traversals visit what is reached, in their orders

All traversals list the nodes that the start reaches, each once. What sets them apart is the order:

* a breadth-first sweep lists the nodes by their distance from the start. Its invariant, `Layered`,
  says that no seen node is more than one step farther away than any pending node; a node that has
  not been seen is then farther away than the next pending one (`Layered.lt_of_not_mem`);
* reverse postorder puts the source of an edge before its target unless the target leads back to
  the source (`rank_lt_of_not_reaches`). That is what an edge which does not raise the rank means.

The loops behind the traversals run without a bound. Postorder comes from the search with tasks, and
for the sweeps `takePending` is the loop; `sweep_computes` says that it ends by itself with the
nodes that the bounded sweep visits.

## Distances

A distance is the least number of edges on a path. A breadth-first sweep is sorted by it but not
determined by it: nodes of one distance are listed in the order in which they were met. Reverse
postorder is not sorted by it at all.
-/

namespace FlowGauge

namespace Graph

variable {g : Graph} {start : Nat}

/-! ### Sweeps as machines -/

/-- The state of a sweep. -/
structure SweepState where
  /-- The visited nodes, in the order of visiting them. -/
  visited : List Nat := []
  /-- The pending nodes, the next one first. -/
  pending : List Nat
  /-- The nodes that have become pending. -/
  seen : List Nat
deriving DecidableEq

/-- A sweep starts with the start pending. -/
def SweepState.initial (start : Nat) : SweepState :=
  { pending := [start], seen := [start] }

/-- Visit the next pending node. -/
def takePending (g : Graph) (neighbours : Nat → List Nat)
    (join : List Nat → List Nat → List Nat) (s : SweepState) : Option SweepState :=
  match s.pending with
  | [] => none
  | v :: rest =>
    let fresh := g.unseen s.seen (neighbours v)
    some ⟨s.visited ++ [v], join fresh rest, s.seen ++ fresh⟩

section Sweep

variable {neighbours : Nat → List Nat} {join : List Nat → List Nat → List Nat}

/-- The loop ends with what a sweep with a sufficient bound visits. -/
theorem endsIn_sweep (hjoin : ∀ fresh pending, (join fresh pending).Perm (fresh ++ pending))
    (bound : Nat) : ∀ visited pending seen : List Nat, g.Suffices bound pending seen →
      ∃ seen', EndsIn (g.takePending neighbours join) ⟨visited, pending, seen⟩
        ⟨visited ++ g.sweep neighbours join bound pending seen, [], seen'⟩ := by
  have hnil : ∀ visited seen : List Nat, EndsIn (g.takePending neighbours join)
      ⟨visited, [], seen⟩ ⟨visited ++ [], [], seen⟩ := by
    intro visited seen
    rw [List.append_nil]
    exact ⟨.refl, rfl⟩
  induction bound with
  | zero =>
    intro visited pending seen hbound
    obtain rfl := hbound.pending_eq_nil
    exact ⟨seen, hnil visited seen⟩
  | succ bound ih =>
    intro visited pending seen hbound
    rcases pending with - | ⟨v, pending⟩
    · exact ⟨seen, hnil visited seen⟩
    · obtain ⟨seen', hrun, hend⟩ := ih (visited ++ [v]) _ _ (hbound.visit neighbours hjoin)
      rw [List.append_assoc, List.singleton_append] at hrun hend
      exact ⟨seen', .head rfl hrun, hend⟩

/-- **The loop of a sweep ends by itself**, with the nodes that the bounded sweep visits. -/
theorem sweep_computes (hstart : start < g.size) (neighbours : Nat → List Nat)
    (hjoin : ∀ fresh pending, (join fresh pending).Perm (fresh ++ pending)) :
    Computes (g.takePending neighbours join) (.initial start) SweepState.visited
      (g.sweep neighbours join g.size [start] [start]) := by
  obtain ⟨seen, hend⟩ := endsIn_sweep hjoin g.size [] [start] [start] (suffices_start hstart)
  exact hend.computes SweepState.visited

end Sweep

/-- The loop of the depth-first sweep. -/
def takeNewest (g : Graph) : SweepState → Option SweepState :=
  g.takePending (fun v ↦ (g.successors v).reverse) fun fresh pending ↦ fresh.reverse ++ pending

/-- The loop of the breadth-first sweep. -/
def takeOldest (g : Graph) : SweepState → Option SweepState :=
  g.takePending g.successors fun fresh pending ↦ pending ++ fresh

theorem depthSweep_computes (hstart : start < g.size) :
    Computes g.takeNewest (.initial start) SweepState.visited (g.depthSweep start) := by
  rw [depthSweep, if_pos hstart]
  exact sweep_computes hstart _ fun fresh pending ↦ (List.reverse_perm fresh).append_right pending

theorem breadthSweep_computes (hstart : start < g.size) :
    Computes g.takeOldest (.initial start) SweepState.visited (g.breadthSweep start) := by
  rw [breadthSweep, if_pos hstart]
  exact sweep_computes hstart _ fun _ _ ↦ List.perm_append_comm

/-! ### Distances -/

/-- The number of edges of a shortest path. -/
noncomputable def distance (g : Graph) (u v : Nat) : Nat :=
  sInf {n | ∃ π, g.Path u v π ∧ π.length = n + 1}

section Distance

variable {u v w : Nat}

theorem distance_lt_length {π : List Nat} (h : g.Path u v π) : g.distance u v < π.length := by
  have hlength : π.length = (π.length - 1) + 1 := (Nat.sub_add_cancel h.length_pos).symm
  have hle : g.distance u v ≤ π.length - 1 := Nat.sInf_le ⟨π, h, hlength⟩
  exact Nat.lt_of_le_sub_one h.length_pos hle

/-- A reached node has a shortest path. -/
theorem exists_shortest (h : g.Reaches u v) :
    ∃ π, g.Path u v π ∧ π.length = g.distance u v + 1 := by
  obtain ⟨π, hπ⟩ := reaches_iff_exists_path.1 h
  exact Nat.sInf_mem (s := {n | ∃ π, g.Path u v π ∧ π.length = n + 1})
    ⟨π.length - 1, π, hπ, (Nat.sub_add_cancel hπ.length_pos).symm⟩

/-- An edge leads at most one step farther away. -/
theorem distance_le_succ (h : g.Reaches u v) (hedge : g.Edge v w) :
    g.distance u w ≤ g.distance u v + 1 := by
  obtain ⟨π, hπ, hlength⟩ := exists_shortest h
  have hlt := distance_lt_length (hπ.snoc hedge)
  rw [List.length_append, List.length_singleton] at hlt
  omega

/-- **A node other than the start has an edge from a nearer node**, the one before it on a shortest
path. -/
theorem exists_nearer (h : g.Reaches u v) (hne : v ≠ u) :
    ∃ w, g.Reaches u w ∧ g.Edge w v ∧ g.distance u w < g.distance u v := by
  obtain ⟨π, hπ, hlength⟩ := exists_shortest h
  cases hπ with
  | single _ => exact absurd rfl hne
  | @snoc w _ ρ hρ hedge =>
    refine ⟨w, hρ.reaches, hedge, Nat.lt_of_lt_of_eq (distance_lt_length hρ) ?_⟩
    rw [List.length_append, List.length_singleton] at hlength
    exact Nat.succ.inj hlength

end Distance

/-! ### The breadth-first order -/

/-- What holds between two visits of a breadth-first sweep. -/
structure Layered (g : Graph) (start : Nat) (visited pending seen : List Nat) : Prop where
  /-- Nodes are visited in the order in which they are seen. -/
  seen_eq : seen = visited ++ pending
  start_mem : start ∈ seen
  reached : ∀ v ∈ seen, g.Reaches start v
  /-- The successors of a visited node have been seen. -/
  closed : ∀ v ∈ visited, ∀ w, g.Edge v w → w ∈ seen
  sorted : seen.Pairwise fun v w ↦ g.distance start v ≤ g.distance start w
  /-- No seen node is more than one step farther away than a pending node. -/
  narrow : ∀ v ∈ pending, ∀ w ∈ seen, g.distance start w ≤ g.distance start v + 1

namespace Layered

variable {visited pending seen rest : List Nat} {v w : Nat}

theorem initial (hstart : start < g.size) : g.Layered start [] [start] [start] where
  seen_eq := rfl
  start_mem := List.mem_singleton_self start
  reached v hv := by
    rw [List.mem_singleton.1 hv]
    exact .refl hstart
  closed _ hv := absurd hv List.not_mem_nil
  sorted := List.pairwise_singleton _ start
  narrow v hv w hw := by
    rw [List.mem_singleton.1 hv, List.mem_singleton.1 hw]
    exact Nat.le_succ _

theorem visited_sorted (h : g.Layered start visited pending seen) :
    visited.Pairwise fun v w ↦ g.distance start v ≤ g.distance start w :=
  (List.pairwise_append.1 (h.seen_eq ▸ h.sorted)).1

theorem mem_seen (h : g.Layered start visited pending seen) (hv : v ∈ pending) : v ∈ seen :=
  h.seen_eq ▸ List.mem_append_right visited hv

/-- The next pending node is a nearest one. -/
theorem le_of_mem_pending (h : g.Layered start visited (v :: rest) seen) (hw : w ∈ v :: rest) :
    g.distance start v ≤ g.distance start w := by
  have hsorted := (List.pairwise_append.1 (h.seen_eq ▸ h.sorted)).2.1
  rcases List.mem_cons.1 hw with rfl | hw
  · exact Nat.le_refl _
  · exact (List.pairwise_cons.1 hsorted).1 w hw

/-- **A node that has not been seen is farther away than the next pending node.** On a shortest path
to it some pending node comes before it, because the successors of visited nodes have been seen. -/
theorem lt_of_not_mem (h : g.Layered start visited (v :: rest) seen) (hw : g.Reaches start w)
    (hseen : w ∉ seen) : g.distance start v < g.distance start w := by
  induction hn : g.distance start w using Nat.strongRecOn generalizing w with
  | ind n ih =>
    have hne : w ≠ start := fun heq ↦ hseen (heq ▸ h.start_mem)
    obtain ⟨u, hu, hedge, hlt⟩ := exists_nearer hw hne
    rw [hn] at hlt
    by_cases hmem : u ∈ seen
    · rcases List.mem_append.1 (h.seen_eq ▸ hmem) with hvisited | hpending
      · exact absurd (h.closed u hvisited w hedge) hseen
      · exact Nat.lt_of_le_of_lt (h.le_of_mem_pending hpending) hlt
    · exact Nat.lt_trans (ih _ hlt hu hmem rfl) hlt

/-- The fresh successors of the next pending node are one step farther away. -/
theorem distance_eq_of_fresh (h : g.Layered start visited (v :: rest) seen)
    (hw : w ∈ g.unseen seen (g.successors v)) :
    g.Reaches start w ∧ g.distance start w = g.distance start v + 1 := by
  obtain ⟨hmem, hlt, hseen⟩ := mem_unseen_iff.1 hw
  have hv : g.Reaches start v := h.reached v (h.mem_seen List.mem_cons_self)
  have hedge : g.Edge v w := ⟨hv.lt_size, hlt, hmem⟩
  have hfar := h.lt_of_not_mem (hv.step hedge) hseen
  have hnear := distance_le_succ hv hedge
  exact ⟨hv.step hedge, by omega⟩

/-- **A visit keeps the layers.** -/
theorem visit (h : g.Layered start visited (v :: rest) seen) :
    g.Layered start (visited ++ [v]) (rest ++ g.unseen seen (g.successors v))
      (seen ++ g.unseen seen (g.successors v)) := by
  generalize hfresh : g.unseen seen (g.successors v) = fresh
  have hnew : ∀ w ∈ fresh, g.Reaches start w ∧
      g.distance start w = g.distance start v + 1 := fun w hw ↦
    h.distance_eq_of_fresh (hfresh ▸ hw)
  have hnarrow := h.narrow v List.mem_cons_self
  constructor
  case seen_eq => simp [h.seen_eq]
  case start_mem => exact List.mem_append_left _ h.start_mem
  case reached =>
    intro w hw
    exact (List.mem_append.1 hw).elim (h.reached w) fun hw ↦ (hnew w hw).1
  case closed =>
    intro u hu w hedge
    rcases List.mem_append.1 hu with hu | hu
    · exact List.mem_append_left _ (h.closed u hu w hedge)
    · rw [List.mem_singleton.1 hu] at hedge
      by_cases hseen : w ∈ seen
      · exact List.mem_append_left _ hseen
      · exact List.mem_append_right _
          (hfresh ▸ mem_unseen_iff.2 ⟨hedge.2.2, hedge.2.1, hseen⟩)
  case sorted =>
    refine List.pairwise_append.2 ⟨h.sorted, ?_, fun u hu w hw ↦ ?_⟩
    · exact List.pairwise_of_forall_mem_list fun u hu w hw ↦
        Nat.le_of_eq ((hnew u hu).2.trans (hnew w hw).2.symm)
    · exact Nat.le_trans (hnarrow u hu) (Nat.le_of_eq (hnew w hw).2.symm)
  case narrow =>
    intro u hu w hw
    have hu' : g.distance start v ≤ g.distance start u := by
      rcases List.mem_append.1 hu with hu | hu
      · exact h.le_of_mem_pending (List.mem_cons_of_mem v hu)
      · exact Nat.le_trans (Nat.le_succ _) (Nat.le_of_eq (hnew u hu).2.symm)
    have hw' : g.distance start w ≤ g.distance start v + 1 :=
      (List.mem_append.1 hw).elim (hnarrow w) fun hw ↦ Nat.le_of_eq (hnew w hw).2
    exact Nat.le_trans hw' (Nat.succ_le_succ hu')

/-- A sweep from a layered state visits the nodes by their distances. -/
theorem sweep_sorted (bound : Nat) : ∀ visited pending seen : List Nat,
    g.Layered start visited pending seen → (visited ++ g.sweep g.successors
      (fun fresh pending ↦ pending ++ fresh) bound pending seen).Pairwise
        fun v w ↦ g.distance start v ≤ g.distance start w := by
  induction bound with
  | zero =>
    intro visited pending seen h
    rw [sweep, List.append_nil]
    exact h.visited_sorted
  | succ bound ih =>
    intro visited pending seen h
    rcases pending with - | ⟨v, rest⟩
    · rw [sweep, List.append_nil]
      exact h.visited_sorted
    · have hvisit := ih _ _ _ h.visit
      rwa [List.append_assoc, List.singleton_append] at hvisit

end Layered

/-- **A breadth-first sweep visits the nodes by their distance from the start.** -/
theorem breadthSweep_sorted (g : Graph) (start : Nat) : (g.breadthSweep start).Pairwise
    fun v w ↦ g.distance start v ≤ g.distance start w := by
  unfold breadthSweep
  split
  · next hstart => exact Layered.sweep_sorted g.size [] [start] [start] (.initial hstart)
  · exact List.Pairwise.nil

/-! ### Reverse postorder -/

theorem postorder_lists (g : Graph) (start : Nat) : g.Lists start (g.postorder start) :=
  ⟨g.postorder_nodup start, fun _ ↦ mem_postorder_iff⟩

theorem reversePostorder_lists (g : Graph) (start : Nat) :
    g.Lists start (g.reversePostorder start) :=
  ⟨g.reversePostorder_nodup start, fun _ ↦ mem_reversePostorder_iff⟩

theorem reaches_of_advances {u v : Nat} (hv : v < g.size)
    (h : Relation.ReflTransGen (g.Advances start) v u) : g.Reaches v u := by
  induction h with
  | refl => exact .refl hv
  | tail _ hstep ih => exact ih.step hstep.2.1

/-- **The source of an edge comes first unless the target leads back to it.** -/
theorem rank_lt_of_not_reaches {u v : Nat} (hu : g.Reaches start u) (hedge : g.Edge u v)
    (hback : ¬g.Reaches v u) : g.rank start u < g.rank start v := by
  by_contra hle
  have hcycle := advances_of_rank_le hu hedge (Nat.le_of_not_lt hle)
  exact hback (reaches_of_advances hedge.2.1 hcycle)

theorem numbering_getElem?_eq_some_iff {v : Nat} {position : Option Nat} :
    (g.numbering start)[v]? = some position ↔
      v < g.size ∧ (g.reversePostorder start).idxOf? v = position := by
  rw [numbering, List.getElem?_map]
  rcases Nat.lt_or_ge v g.size with hlt | hge
  · rw [List.getElem?_range hlt, Option.map_some, Option.some.injEq, and_iff_right hlt]
  · have hnone : (List.range g.size)[v]? = none := List.getElem?_eq_none (by simpa using hge)
    rw [hnone]
    exact ⟨fun h ↦ absurd h (by simp), fun h ↦ absurd h.1 (Nat.not_lt.2 hge)⟩

/-- **Positions and nodes are inverse to each other.** -/
theorem numbering_eq_some_iff {v position : Nat} :
    (g.numbering start)[v]? = some (some position) ↔
      (g.reversePostorder start)[position]? = some v := by
  rw [numbering_getElem?_eq_some_iff]
  constructor
  · rintro ⟨-, hposition⟩
    obtain ⟨hlt, hget, -⟩ := List.idxOf?_eq_some_iff.1 hposition
    exact List.getElem?_eq_some_iff.2 ⟨hlt, hget⟩
  · intro hget
    have hv := mem_reversePostorder_iff.1 (List.mem_of_getElem? hget)
    refine ⟨hv.lt_size, (idxOf?_reversePostorder hv).trans (congrArg some ?_)⟩
    obtain ⟨hlt, rfl⟩ := List.getElem?_eq_some_iff.1 hget
    exact (g.reversePostorder_nodup start).idxOf_getElem position hlt

/-- The nodes without a position are those that are not reached. -/
theorem numbering_eq_none_iff {v : Nat} :
    (g.numbering start)[v]? = some none ↔ v < g.size ∧ ¬g.Reaches start v := by
  rw [numbering_getElem?_eq_some_iff, List.idxOf?_eq_none_iff, mem_reversePostorder_iff]

/-! ### All traversals -/

/-- The traversals of a graph from a start visit what is reached, in their orders. -/
structure Traverses (g : Graph) (start : Nat) : Prop where
  depth_lists : g.Lists start (g.depthSweep start)
  breadth_lists : g.Lists start (g.breadthSweep start)
  postorder_lists : g.Lists start (g.postorder start)
  breadth_sorted : (g.breadthSweep start).Pairwise fun v w ↦
    g.distance start v ≤ g.distance start w
  reverse_lists : g.Lists start (g.reversePostorder start)
  /-- Reverse postorder begins with the start. -/
  reverse_head : start < g.size → (g.reversePostorder start).head? = some start
  /-- An edge that nothing leads back along goes forward. -/
  reverse_forward : ∀ u v, g.Reaches start u → g.Edge u v → ¬g.Reaches v u →
    (g.reversePostorder start).idxOf u < (g.reversePostorder start).idxOf v
  numbering_length : (g.numbering start).length = g.size
  numbering_inverse : ∀ v position : Nat, (g.numbering start)[v]? = some (some position) ↔
    (g.reversePostorder start)[position]? = some v
  numbering_none : ∀ v : Nat, (g.numbering start)[v]? = some none ↔ v < g.size ∧ ¬g.Reaches start v
  /-- A start that does not exist yields nothing. -/
  outside : g.size ≤ start → g.depthSweep start = [] ∧ g.breadthSweep start = [] ∧
    g.postorder start = [] ∧ g.reversePostorder start = [] ∧
      g.numbering start = List.replicate g.size none
  /-- The loops end by themselves with these lists. -/
  loops : start < g.size →
    Computes g.takeNewest (.initial start) SweepState.visited (g.depthSweep start) ∧
    Computes g.takeOldest (.initial start) SweepState.visited (g.breadthSweep start) ∧
    Computes g.takeTask (.initial start) TaskState.finished (g.postorder start)

theorem Lists.eq_nil {order : List Nat} (h : g.Lists start order) (hstart : g.size ≤ start) :
    order = [] :=
  List.eq_nil_iff_forall_not_mem.2 fun v hv ↦
    Nat.not_lt.2 hstart ((h.mem_iff v).1 hv).start_lt_size

/-- **The traversals cover exactly the reached nodes, in the promised orders**, for every graph and
every start. -/
theorem traversals_exact (g : Graph) (start : Nat) : g.Traverses start := by
  refine
    { depth_lists := g.depthSweep_lists start
      breadth_lists := g.breadthSweep_lists start
      postorder_lists := g.postorder_lists start
      breadth_sorted := g.breadthSweep_sorted start
      reverse_lists := g.reversePostorder_lists start
      reverse_head := fun hstart ↦ ?head
      reverse_forward := fun _ _ ↦ rank_lt_of_not_reaches
      numbering_length := ?length
      numbering_inverse := fun _ _ ↦ numbering_eq_some_iff
      numbering_none := fun _ ↦ numbering_eq_none_iff
      outside := fun hstart ↦ ?outside
      loops := fun hstart ↦ ?loops }
  case head =>
    obtain ⟨rest, hrest⟩ := reversePostorder_eq_cons hstart
    rw [hrest, List.head?_cons]
  case length => rw [numbering, List.length_map, List.length_range]
  case outside =>
    have hnil := (g.reversePostorder_lists start).eq_nil hstart
    refine ⟨(g.depthSweep_lists start).eq_nil hstart, (g.breadthSweep_lists start).eq_nil hstart,
      (g.postorder_lists start).eq_nil hstart, hnil, ?_⟩
    rw [numbering, hnil, List.eq_replicate_iff]
    exact ⟨by simp, by simp⟩
  case loops =>
    exact ⟨depthSweep_computes hstart, breadthSweep_computes hstart, tasks_compute hstart⟩

end Graph

end FlowGauge
