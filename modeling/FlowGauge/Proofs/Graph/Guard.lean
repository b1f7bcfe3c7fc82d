import FlowGauge.Proofs.Graph.DominatorTable

/-!
# Guards

Passes over the nodes of a graph read the entries of the listed predecessors. The graph of what they
read, `Schedule.feeding`, may have nothing in common with the successor lists that decide in which
order the nodes are recomputed and numbered. What the passes converge to is described on this graph:
`w` guards `v` when whatever feeds `v` from a position before `w` passes `w` (`Schedule.Guards`).
Guarding is antisymmetric, positions fall along it, and what guards a node from outside guards all
that feeds it (`Guards.of_edge`).

## Guards and dominators

On a graph whose two lists mirror each other, and with positions in reverse postorder, the guards of
a node are its dominators: what feeds a node are the edges, and every path starts at the entry,
which has position zero. Without mirrored lists the two part. Then a node may be fed along paths
that the numbering does not know, the meeting point of two walks is found by numbers that have
nothing to do with these paths, and domination is the wrong notion. The restriction to paths that
start before `w` is what makes guarding describe the meeting points on any graph.

The order of recomputation is data of its own (`Schedule`), with what the proofs need of it: the
entry is not recomputed, and positions tell the nodes apart. Reverse postorder is one such order
(`Graph.schedule`).
-/

namespace FlowGauge

open DominatorTable

/-! ### What feeds what -/

/-- An order in which passes over a graph recompute its nodes, and the numbering by which they find
meeting points. -/
structure Schedule where
  graph : Graph
  entry : Nat
  numbering : Array (Option Nat)
  order : List Nat
  entry_lt_size : entry < graph.size
  lt_size : ∀ v ∈ order, v < graph.size
  entry_not_mem : entry ∉ order
  position_entry : position numbering entry = 0
  position_inj : ∀ v w, v ∈ entry :: order → w ∈ entry :: order →
    position numbering v = position numbering w → v = w

namespace Schedule

variable {s : Schedule} {p v w x : Nat}

/-- The position of a node. -/
def rank (s : Schedule) (v : Nat) : Nat :=
  position s.numbering v

/-- The graph of what a pass reads: an edge leads from each predecessor of a node that is recomputed
to that node. -/
def feeding (s : Schedule) : Graph where
  size := s.graph.size
  successors p := s.order.filter fun v ↦ p ∈ s.graph.predecessors v
  predecessors v := if v ∈ s.order then s.graph.predecessors v else []

/-- A node gets an entry sooner or later. -/
def Fed (s : Schedule) (v : Nat) : Prop :=
  s.feeding.Reaches s.entry v

/-- An edge of what a pass reads is a listed predecessor of a node that the pass recomputes. The
successor lists of the graph play no part. -/
theorem edge_iff : s.feeding.Edge p v ↔
    p < s.graph.size ∧ v ∈ s.order ∧ p ∈ s.graph.predecessors v := by
  have hmem : v ∈ s.feeding.successors p ↔ v ∈ s.order ∧ p ∈ s.graph.predecessors v := by
    simp [feeding]
  rw [Graph.Edge, hmem]
  exact ⟨fun h ↦ ⟨h.1, h.2.2⟩, fun h ↦ ⟨h.1, s.lt_size v h.2.1, h.2⟩⟩

/-- What is ever fed has a position: it is the entry or one of the nodes that are recomputed. -/
theorem Fed.mem (h : s.Fed v) : v ∈ s.entry :: s.order := by
  cases h with
  | refl _ => exact List.mem_cons_self ..
  | step _ hedge => exact List.mem_cons_of_mem _ (edge_iff.1 hedge).2.1

/-- The entry has its own entry in the table from the start. -/
theorem fed_entry (s : Schedule) : s.Fed s.entry :=
  .refl s.entry_lt_size

/-- Positions tell fed nodes apart. Nodes without a number share one position, and none of them is
ever fed. -/
theorem Fed.rank_inj (hv : s.Fed v) (hw : s.Fed w) (h : s.rank v = s.rank w) : v = w :=
  s.position_inj v w hv.mem hw.mem h

/-- `w` guards `v`: whatever feeds `v` from a position before `w` passes `w`. -/
structure Guards (s : Schedule) (w v : Nat) : Prop where
  fed_left : s.Fed w
  fed_right : s.Fed v
  mem_path : ∀ x π, s.Fed x → s.rank x < s.rank w → s.feeding.Path x v π → w ∈ π

namespace Guards

/-- A guard never stands behind what it guards: the path of length zero from a node to itself would
have to pass it. -/
theorem rank_le (h : s.Guards w v) : s.rank w ≤ s.rank v := by
  by_contra hlt
  have hmem := h.mem_path v [v] h.fed_right (Nat.lt_of_not_le hlt) (.single h.fed_right.lt_size)
  exact hlt (Nat.le_of_eq (congrArg s.rank (List.mem_singleton.1 hmem)))

/-- Two nodes that guard each other are the same. -/
theorem antisymm (h : s.Guards w v) (h' : s.Guards v w) : w = v :=
  h.fed_left.rank_inj h.fed_right (Nat.le_antisymm h.rank_le h'.rank_le)

/-- A guard from outside stands strictly before. Walks up a table of guards therefore end. -/
theorem rank_lt (h : s.Guards w v) (hne : w ≠ v) : s.rank w < s.rank v :=
  Nat.lt_of_le_of_ne h.rank_le fun heq ↦ hne (h.fed_left.rank_inj h.fed_right heq)

/-- What guards a node from outside guards all that feeds it. -/
theorem of_edge (h : s.Guards w v) (hne : w ≠ v) (hp : s.Fed p) (hedge : s.feeding.Edge p v) :
    s.Guards w p := by
  refine ⟨h.fed_left, hp, fun x π hx hlt hπ ↦ ?_⟩
  rcases List.mem_append.1 (h.mem_path x _ hx hlt (hπ.snoc hedge)) with hw | hw
  · exact hw
  · exact absurd (List.mem_singleton.1 hw) hne

/-- Only the entry guards the entry. -/
theorem eq_entry (h : s.Guards w s.entry) : w = s.entry := by
  refine h.fed_left.rank_inj h.fed_right (Nat.le_antisymm h.rank_le ?_)
  rw [rank, s.position_entry]
  exact Nat.zero_le _

end Guards

end Schedule

namespace Graph

variable {g : Graph} {entry : Nat}

/-- The passes over the reached nodes of a graph, in reverse postorder. -/
def schedule (g : Graph) {entry : Nat} (he : entry < g.size) : Schedule where
  graph := g
  entry
  numbering := (g.numbering entry).toArray
  order := (g.reversePostorder entry).drop 1
  entry_lt_size := he
  lt_size v hv := (mem_reversePostorder_iff.1 (List.mem_of_mem_drop hv)).lt_size
  entry_not_mem := by
    have hnodup := g.reversePostorder_nodup entry
    rw [reversePostorder_eq_cons_drop he] at hnodup
    exact (List.nodup_cons.1 hnodup).1
  position_entry := by rw [position_numbering (.refl he), rank_entry he]
  position_inj v w hv hw heq := by
    rw [← reversePostorder_eq_cons_drop he, mem_reversePostorder_iff] at hv hw
    rw [position_numbering hv, position_numbering hw] at heq
    exact rank_inj hv heq

end Graph

end FlowGauge
