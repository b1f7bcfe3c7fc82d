import Mathlib.Logic.Relation
import FlowGauge.Flow.Dominance
import FlowGauge.Proofs.Flow.Construction
import FlowGauge.Proofs.Graph.Dominators

/-!
# The dominance record of a flow graph is exact

`Dominance.compute` writes a table of immediate dominators out as maps over the reached blocks. Each
map is read off the table (`idom_getElem?`, `parent_getElem?`, `depth_getElem?`), and a walk along
the recorded immediate dominators is a walk in the table (`chain_eq`): its bound, the number of
recorded blocks, exceeds every rank. What `Exact` asks for therefore follows from the theory of the
table.

## What is exact

`Dominance.Exact` relates the record to `Graph.Dominates`, which speaks of paths and knows no table:
a block dominates another when every path from the entry to it passes the block. All maps, the tree
with its depths, the chains and the test of a pair are described this way, for every number and not
only for those of blocks, so that what the record says of blocks that are not reached is fixed, too:
they are in no map, and they dominate nothing.

The entry may be any block of the graph, not only the first one. `twoDoors` is a graph with another
entry and with a cycle that can be entered at both of its blocks.
-/

namespace FlowGauge

namespace Dominance

/-- A record that tells the dominance of a graph from an entry. -/
structure Exact (g : Graph) (entry : Nat) (d : Dominance) : Prop where
  entry_eq : d.entry = some entry
  mem_idom_iff : ∀ b, b ∈ d.idom ↔ g.Reaches entry b
  mem_depth_iff : ∀ b, b ∈ d.depth ↔ g.Reaches entry b
  mem_children_iff : ∀ b, b ∈ d.children ↔ g.Reaches entry b
  mem_frontiers_iff : ∀ b, b ∈ d.frontiers ↔ g.Reaches entry b
  dominates_iff : ∀ a b, d.dominates a b = true ↔ g.Dominates entry a b
  /-- The entry is its own immediate dominator. -/
  idom_entry : d.idom[entry]? = some entry
  /-- The immediate dominator of any other reached block is the strict dominator that every strict
  dominator dominates. -/
  idom_iff : ∀ b p, g.Reaches entry b → b ≠ entry → (d.idom[b]? = some p ↔
    p ≠ b ∧ g.Dominates entry p b ∧ ∀ a, a ≠ b → g.Dominates entry a b → g.Dominates entry a p)
  parent_entry : d.parent[entry]? = none
  parent_eq : ∀ b, b ≠ entry → d.parent[b]? = d.idom[b]?
  parent_iff : ∀ b p, d.parent[b]? = some p ↔ ∃ cs : BlockSet, d.children[p]? = some cs ∧ b ∈ cs
  /-- Every reached block descends from the entry. -/
  descends : ∀ b, g.Reaches entry b →
    Relation.ReflTransGen (fun c p ↦ d.parent[c]? = some p) b entry
  depth_entry : d.depth[entry]? = some 0
  depth_eq : ∀ b p : Nat, d.parent[b]? = some p →
    ∃ n, d.depth[p]? = some n ∧ d.depth[b]? = some (n + 1)
  head_chain : ∀ b, g.Reaches entry b → (d.chain b).head? = some b
  getLast_chain : ∀ b, g.Reaches entry b → (d.chain b).getLast? = some entry
  nodup_chain : ∀ b, (d.chain b).Nodup
  mem_chain_iff : ∀ a b, a ∈ d.chain b ↔ g.Dominates entry a b

/-! ### The record of a table -/

/-- The blocks that have an entry in a table, in ascending order. -/
def nodes (g : FlowGraph) (t : Dominators) : List Nat :=
  (List.range g.size).filter t.isReachable

/-- A table of immediate dominators written out as a record. -/
def ofTable (g : FlowGraph) (t : Dominators) : Dominance where
  entry := some t.entry
  idom := tabulate (nodes g t) fun v ↦ (t.idom? v).getD t.entry
  parent := tabulate ((nodes g t).filter (· ≠ t.entry)) fun v ↦ (t.idom? v).getD t.entry
  children := tabulate (nodes g t) fun v ↦ .ofList (t.children v)
  depth := tabulate (nodes g t) fun v ↦ (t.depth? v).getD 0
  frontiers := tabulate (nodes g t) fun v ↦ .ofList ((t.frontiers g.toGraph).toArray[v]?.getD [])

/-- A graph with an entry has the record of its dominator table. -/
theorem compute_eq_ofTable {g : FlowGraph} {entry : Nat} (hentry : g.entry = some entry) :
    compute g = ofTable g (Dominators.compute g.toGraph entry) := by
  simp only [compute, hentry, ofTable, nodes, Dominators.compute_entry]

section Table

variable {g : FlowGraph} {t : Dominators}

theorem nodes_nodup (g : FlowGraph) (t : Dominators) : (nodes g t).Nodup :=
  List.nodup_range.filter _

variable (h : t.table.Exact g.toGraph t.entry)

include h

/-- Exactly the reached blocks are recorded. -/
theorem mem_nodes_iff {b : Nat} : b ∈ nodes g t ↔ g.toGraph.Reaches t.entry b := by
  rw [nodes, List.mem_filter, List.mem_range, Dominators.isReachable_iff h]
  exact ⟨And.right, fun hb ↦ ⟨hb.lt_size, hb⟩⟩

/-- The bound of a walk along the record is the number of reached blocks. -/
theorem nodes_length : (nodes g t).length = (g.toGraph.reversePostorder t.entry).length := by
  have hperm : (nodes g t).Perm (g.toGraph.reversePostorder t.entry) := by
    refine (List.perm_ext_iff_of_nodup (nodes_nodup g t)
      (g.toGraph.reversePostorder_nodup t.entry)).2 fun b ↦ ?_
    rw [mem_nodes_iff h, Graph.mem_reversePostorder_iff]
  exact hperm.length_eq

/-- Blocks that are not reached have no entry in the table. -/
theorem at?_eq_none {b : Nat} (hb : ¬g.toGraph.Reaches t.entry b) : t.table.at? b = none :=
  Option.not_isSome_iff_eq_none.1 fun hs ↦ hb ((Dominators.isReachable_iff h).1 hs)

/-- The recorded immediate dominators are those of the table. -/
theorem idom_getElem? (b : Nat) : (ofTable g t).idom[b]? = t.table.at? b := by
  show (tabulate _ _)[b]? = _
  rw [getElem?_tabulate]
  split
  · next hb =>
    by_cases hne : b = t.entry
    · rw [hne, h.root, Dominators.idom?, if_pos rfl, Option.getD_none]
    · obtain ⟨u, hu, hat, -⟩ := Dominators.idom?_eq_some h ((mem_nodes_iff h).1 hb) hne
      rw [hu, hat, Option.getD_some]
  · next hb => exact (at?_eq_none h fun hr ↦ hb ((mem_nodes_iff h).2 hr)).symm

/-- The recorded parents are the immediate dominators of the blocks other than the entry. -/
theorem parent_getElem? (b : Nat) : (ofTable g t).parent[b]? = t.idom? b := by
  show (tabulate _ _)[b]? = _
  have hmem : b ∈ (nodes g t).filter (· ≠ t.entry) ↔ g.toGraph.Reaches t.entry b ∧ b ≠ t.entry := by
    rw [List.mem_filter, mem_nodes_iff h, decide_eq_true_iff]
  rw [getElem?_tabulate]
  split
  · next hb =>
    obtain ⟨u, hu, -⟩ := Dominators.idom?_eq_some h (hmem.1 hb).1 (hmem.1 hb).2
    rw [hu, Option.getD_some]
  · next hb =>
    rw [Dominators.idom?]
    split
    · rfl
    · next hne => exact (at?_eq_none h fun hr ↦ hb (hmem.2 ⟨hr, hne⟩)).symm

/-- Depths are read off the table. -/
theorem depth_getElem? (b : Nat) : (ofTable g t).depth[b]? = t.depth? b := by
  show (tabulate _ _)[b]? = _
  have hmem := (mem_nodes_iff h (b := b)).trans (Dominators.isReachable_iff h).symm
  rw [getElem?_tabulate, Dominators.depth?]
  by_cases hb : t.isReachable b = true
  · rw [if_pos (hmem.2 hb), if_pos hb, Option.getD_some]
  · rw [if_neg fun hn ↦ hb (hmem.1 hn), if_neg hb]

/-- The recorded children of a block are the blocks it is the immediate dominator of. -/
theorem mem_children_getElem?_iff {b p : Nat} :
    (∃ cs : BlockSet, (ofTable g t).children[p]? = some cs ∧ b ∈ cs) ↔ t.idom? b = some p := by
  have hchild : b ∈ t.children p ↔ t.idom? b = some p := by
    rw [Dominators.children, List.mem_filter, List.mem_range, Dominators.idom?]
    by_cases hne : b = t.entry
    · simp [hne]
    · rw [if_neg hne]
      refine ⟨fun hb ↦ by simpa [hne] using hb.2, fun hat ↦ ⟨?_, by simp [hne, hat]⟩⟩
      have hb := h.reached (DominatorTable.filled_of_at? hat)
      exact h.size_eq ▸ hb.lt_size
  have hget : (ofTable g t).children[p]? =
      if p ∈ nodes g t then some (.ofList (t.children p)) else none := getElem?_tabulate
  rw [hget]
  split
  · simp [Std.ExtTreeSet.mem_ofList, hchild]
  · next hp =>
    constructor
    · rintro ⟨cs, hcs, -⟩
      exact absurd hcs (by simp)
    · intro hb
      -- A block with an immediate dominator is reached through it.
      rw [Dominators.idom?] at hb
      split at hb
      · exact absurd hb (by simp)
      · next hne =>
        have hreach := (h.falls b p hb hne).1
        exact absurd ((mem_nodes_iff h).2 (h.reached hreach)) hp

/-! ### Walks along recorded immediate dominators -/

/-- A walk along the record is a walk in the table, step by step. -/
theorem climb_eq_climb (bound : Nat) : ∀ b, g.toGraph.Reaches t.entry b →
    (ofTable g t).climb bound b = t.climb bound b := by
  induction bound with
  | zero => exact fun _ _ ↦ rfl
  | succ bound ih =>
    intro b hb
    rw [climb, Dominators.climb, idom_getElem? h]
    by_cases hne : b = t.entry
    · rw [hne, h.root, Dominators.idom?, if_pos rfl]
      simp only [if_true]
    · obtain ⟨u, hu, hat, hreach⟩ := Dominators.idom?_eq_some h hb hne
      rw [hat, hu]
      simp only [if_neg (h.at?_spec b u hat hne).1, ih u hreach]

/-- **The recorded chains are the chains of the table.** -/
theorem chain_eq (b : Nat) : (ofTable g t).chain b = t.chain b := by
  by_cases hb : g.toGraph.Reaches t.entry b
  · have hsize : (ofTable g t).idom.size = (g.toGraph.reversePostorder t.entry).length := by
      rw [← nodes_length h]
      exact size_tabulate (nodes_nodup g t)
    have hrank := Graph.rank_lt_length hb
    have hlt : g.toGraph.rank t.entry b < t.table.size :=
      h.size_eq ▸ Graph.rank_lt_size hb
    rw [chain, climb_eq_climb h _ b hb, Dominators.chain,
      if_pos ((Dominators.isReachable_iff h).2 hb), hsize]
    exact Dominators.climb_eq h.rooted _ _ b ((h.filled_iff_reaches b).2 hb) (by omega) hlt
  · rw [chain, climb, idom_getElem? h, at?_eq_none h hb, Dominators.chain,
      if_neg fun hr ↦ hb ((Dominators.isReachable_iff h).1 hr)]

/-- The record and the table give one answer to whether a block dominates another, for all pairs of
numbers. -/
theorem dominates_eq (a b : Nat) : (ofTable g t).dominates a b = t.dominates a b := by
  rw [dominates, chain_eq h, Dominators.dominates]

/-! ### Exactness -/

/-- **The recorded immediate dominator is the lowest strict dominator.** -/
theorem idom_getElem?_iff {b p : Nat} (hb : g.toGraph.Reaches t.entry b) (hne : b ≠ t.entry) :
    (ofTable g t).idom[b]? = some p ↔ p ≠ b ∧ g.toGraph.Dominates t.entry p b ∧
      ∀ a, a ≠ b → g.toGraph.Dominates t.entry a b → g.toGraph.Dominates t.entry a p := by
  rw [idom_getElem? h]
  refine ⟨fun hat ↦ h.at?_spec b p hat hne, fun ⟨hpb, hdom, hlow⟩ ↦ ?_⟩
  -- Two strict dominators that dominate each other are the same.
  obtain ⟨u, -, hat, -⟩ := Dominators.idom?_eq_some h hb hne
  obtain ⟨hub, hdom', hlow'⟩ := h.at?_spec b u hat hne
  rw [hat, (hlow u hub hdom').antisymm (hlow' p hpb hdom)]

/-- One step from a block to its parent goes one level up. -/
theorem depth_parent {b p : Nat} (hbp : t.idom? b = some p) :
    ∃ n, t.depth? p = some n ∧ t.depth? b = some (n + 1) := by
  obtain ⟨hne, hat⟩ : b ≠ t.entry ∧ t.table.at? b = some p := by
    rw [Dominators.idom?] at hbp
    split at hbp
    · exact absurd hbp (by simp)
    · next hne => exact ⟨hne, hbp⟩
  have hb : g.toGraph.Reaches t.entry b := h.reached (DominatorTable.filled_of_at? hat)
  have hp : g.toGraph.Reaches t.entry p := h.reached (h.falls b p hat hne).1
  have hpos : 0 < (t.chain p).length :=
    List.length_pos_of_mem ((Dominators.mem_chain_iff h).2 (.refl hp))
  refine ⟨(t.chain p).length - 1, ?_, ?_⟩
  · rw [Dominators.depth?, if_pos ((Dominators.isReachable_iff h).2 hp)]
  · rw [Dominators.depth?, if_pos ((Dominators.isReachable_iff h).2 hb),
      Dominators.chain_cons h.rooted hat hne, List.length_cons]
    congr 1
    omega

/-- **The record of an exact table is exact.** -/
theorem ofTable_exact : (ofTable g t).Exact g.toGraph t.entry := by
  have hmem : ∀ b, b ∈ nodes g t ↔ g.toGraph.Reaches t.entry b := fun b ↦ mem_nodes_iff h
  have hchain : ∀ a b, a ∈ (ofTable g t).chain b ↔ g.toGraph.Dominates t.entry a b := by
    intro a b
    rw [chain_eq h, Dominators.mem_chain_iff h]
  have hroot : g.toGraph.Reaches t.entry t.entry := .refl h.entry_lt_size
  refine
    { entry_eq := rfl
      mem_idom_iff := fun b ↦ mem_tabulate.trans (hmem b)
      mem_depth_iff := fun b ↦ mem_tabulate.trans (hmem b)
      mem_children_iff := fun b ↦ mem_tabulate.trans (hmem b)
      mem_frontiers_iff := fun b ↦ mem_tabulate.trans (hmem b)
      dominates_iff := ?dominates
      idom_entry := (idom_getElem? h _).trans h.root
      idom_iff := fun b p hb hne ↦ idom_getElem?_iff h hb hne
      parent_entry := ?parentEntry
      parent_eq := ?parent
      parent_iff := ?children
      descends := ?descends
      depth_entry := ?depthEntry
      depth_eq := ?depth
      head_chain := ?head
      getLast_chain := ?last
      nodup_chain := ?nodup
      mem_chain_iff := hchain }
  case dominates =>
    intro a b
    rw [dominates, decide_eq_true_iff]
    exact hchain a b
  case parentEntry => rw [parent_getElem? h, Dominators.idom?, if_pos rfl]
  case parent =>
    intro b hne
    rw [parent_getElem? h, idom_getElem? h, Dominators.idom?, if_neg hne]
  case children =>
    intro b p
    rw [parent_getElem? h, mem_children_getElem?_iff h]
  case descends =>
    intro b hb
    refine Dominators.chain_induction h.rooted (motive := fun b ↦
      Relation.ReflTransGen (fun c p ↦ (ofTable g t).parent[c]? = some p) b t.entry) .refl ?_
      ((h.filled_iff_reaches b).2 hb)
    intro v u hat hne ih
    refine .head ?_ ih
    rw [parent_getElem? h, Dominators.idom?, if_neg hne, hat]
  case depthEntry =>
    rw [depth_getElem? h, Dominators.depth?, if_pos ((Dominators.isReachable_iff h).2 hroot),
      Dominators.chain_entry h.rooted]
    rfl
  case depth =>
    intro b p hbp
    rw [depth_getElem? h, depth_getElem? h]
    exact depth_parent h ((parent_getElem? h b).symm.trans hbp)
  case head =>
    intro b hb
    rw [chain_eq h]
    exact (Dominators.chain_shape h.rooted ((h.filled_iff_reaches b).2 hb)).2.1
  case last =>
    intro b hb
    rw [chain_eq h]
    exact (Dominators.chain_shape h.rooted ((h.filled_iff_reaches b).2 hb)).2.2.1
  case nodup =>
    intro b
    rw [chain_eq h]
    exact Dominators.chain_nodup h.rooted b

end Table

/-! ### The computed record -/

theorem compute_eq_and_exact {g : FlowGraph} {entry : Nat} (hco : g.toGraph.Coherent)
    (hentry : g.entry = some entry) (he : entry < g.size) :
    compute g = ofTable g (Dominators.compute g.toGraph entry) ∧
      (Dominators.compute g.toGraph entry).table.Exact g.toGraph
        (Dominators.compute g.toGraph entry).entry := by
  rw [Dominators.compute_entry]
  exact ⟨compute_eq_ofTable hentry, Dominators.compute_exact hco he⟩

/-- **The record of a coherent graph is exact.** -/
theorem compute_exact {g : FlowGraph} {entry : Nat} (hco : g.toGraph.Coherent)
    (hentry : g.entry = some entry) (he : entry < g.size) : (compute g).Exact g.toGraph entry := by
  obtain ⟨heq, htable⟩ := compute_eq_and_exact hco hentry he
  have hexact := ofTable_exact htable
  rw [Dominators.compute_entry] at hexact
  rw [heq]
  exact hexact

/-- **Dominance is exact.** On every graph whose predecessors mirror its successors, such as the
graph of any routine, the record computed for an entry in range tells the dominance of the graph,
and the table of immediate dominators gives the same answers as the record. -/
theorem dominance_exact : (∀ r, (FlowGraph.ofRoutine r).toGraph.Coherent) ∧
    ∀ (g : FlowGraph) (entry : Nat), g.toGraph.Coherent → g.entry = some entry → entry < g.size →
      (compute g).Exact g.toGraph entry ∧ ∀ a b,
        (Dominators.compute g.toGraph entry).dominates a b = (compute g).dominates a b := by
  refine ⟨FlowGraph.ofRoutine_coherent, fun g entry hco hentry he ↦ ?_⟩
  obtain ⟨heq, htable⟩ := compute_eq_and_exact hco hentry he
  refine ⟨compute_exact hco hentry he, fun a b ↦ ?_⟩
  rw [heq, dominates_eq htable]

/-- A cycle of two blocks that the entry enters at both, and a dead block that jumps into it. -/
def twoDoors : FlowGraph where
  routineName := "doors"
  blocks := [{ id := 0, start := 0, stop := 0, code := [], successors := .ofList [3] },
    { id := 1, start := 0, stop := 0, code := [], successors := .ofList [2, 3] },
    { id := 2, start := 0, stop := 0, code := [], predecessors := .ofList [1, 3],
      successors := .ofList [3] },
    { id := 3, start := 0, stop := 0, code := [], predecessors := .ofList [0, 1, 2],
      successors := .ofList [2] }]
  edges := []
  entry := some 1
  exits := ∅

/-- Its sets mirror each other. -/
theorem twoDoors_coherent : twoDoors.toGraph.Coherent := by
  have hall : ∀ u < 4, ∀ v < 4,
      (v ∈ twoDoors.successors u ↔ u ∈ twoDoors.predecessors v) := by decide +kernel
  exact fun u v hu hv ↦ hall u hu v hv

theorem dominance_exact_twoDoors : twoDoors.toGraph.Coherent ∧ twoDoors.entry = some 1 ∧
    1 < twoDoors.size ∧ (compute twoDoors).Exact twoDoors.toGraph 1 ∧ ∀ a b,
      (Dominators.compute twoDoors.toGraph 1).dominates a b = (compute twoDoors).dominates a b :=
  ⟨twoDoors_coherent, rfl, by decide,
    dominance_exact.2 twoDoors 1 twoDoors_coherent rfl (by decide)⟩

end Dominance

end FlowGauge
