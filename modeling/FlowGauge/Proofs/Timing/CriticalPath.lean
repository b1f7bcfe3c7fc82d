import FlowGauge.Proofs.Timing.Context
import FlowGauge.Proofs.Trust
import FlowGauge.Timing.Constraints
import Mathlib.Order.Bounds.Basic

/-!
# The critical path

The critical path is found in one pass over the blocks in reverse postorder, along the edges that
raise the rank. When a block is passed, everything of smaller rank has been passed before, so its
entry is final; that is the invariant of the pass (`Stage`), and it makes the result the greatest
sum over all *forward* paths to an exit (`criticalPathOf_isGreatest`).

A forward path visits no block twice, so the result is never too great. The converse needs more: a
path that visits no block twice may take an edge that does not raise the rank. It cannot where all
such edges lead to dominators of their source, for the dominator has been visited already
(`Graph.Path.forward`). For reducible graphs the critical path therefore is the worst acyclic path.
For others it need not be: in a cycle with two entries, the way from the one to the other against
the order of the search is left out.

## Costs

Costs are any numbers per block. They are added along paths without a bound; that the sums fit a
word is a condition on running the section, not on what the section means. A block that costs
nothing is still a step of a path, and two paths with the same sum are not told apart, as only the
greatest sum is kept.

An exit is a block without successors. When no exit is reached there is no path to compare, and the
greatest sum to any block takes the place of the greatest sum to an exit.
-/

namespace FlowGauge

/-! ### Forward paths -/

namespace Graph

variable {g : Graph} {start v : Nat} {π : List Nat}

/-- There is a path from the start to a node that visits the listed nodes and raises the rank with
every step. -/
inductive Forward (g : Graph) (start : Nat) : Nat → List Nat → Prop
  | single : start < g.size → g.Forward start start [start]
  | snoc {v w : Nat} {π : List Nat} : g.Forward start v π → g.Edge v w →
      g.rank start v < g.rank start w → g.Forward start w (π ++ [w])

namespace Forward

/-- A forward path is a path. -/
theorem path (h : g.Forward start v π) : g.Path start v π := by
  induction h with
  | single hstart => exact .single hstart
  | snoc _ hedge _ ih => exact ih.snoc hedge

/-- No node of a forward path has a greater rank than its end. -/
theorem rank_le (h : g.Forward start v π) : ∀ x ∈ π, g.rank start x ≤ g.rank start v := by
  induction h with
  | single _ => exact fun x hx ↦ by rw [List.mem_singleton.1 hx]
  | snoc _ _ hlt ih =>
    intro x hx
    rcases List.mem_append.1 hx with hx | hx
    · exact (ih x hx).trans (Nat.le_of_lt hlt)
    · rw [List.mem_singleton.1 hx]

/-- A forward path visits no node twice. -/
theorem nodup (h : g.Forward start v π) : π.Nodup := by
  induction h with
  | single _ => exact List.nodup_singleton start
  | snoc hπ _ hlt ih =>
    refine ih.append (List.nodup_singleton _) (List.disjoint_singleton.2 fun hmem ↦ ?_)
    exact Nat.not_le.2 hlt (hπ.rank_le _ hmem)

end Forward

/-- **Every reached node has a forward path to it.** -/
theorem exists_forward (hv : g.Reaches start v) : ∃ π, g.Forward start v π := by
  induction hn : g.rank start v using Nat.strong_induction_on generalizing v with
  | h n ih =>
    by_cases hne : v = start
    · subst hne
      exact ⟨[v], .single hv.lt_size⟩
    · obtain ⟨u, hu, hedge, hlt⟩ := exists_parent hv hne
      obtain ⟨π, hπ⟩ := ih _ (hn ▸ hlt) hu rfl
      exact ⟨π ++ [v], hπ.snoc hedge hlt⟩

/-- **In a reducible graph a path without repetition is a forward path.** An edge that does not
raise the rank leads to a dominator of its source, and that has been visited. -/
theorem Path.forward (hreducible : g.Reducible start) (h : g.Path start v π) (hnodup : π.Nodup) :
    g.Forward start v π := by
  induction h with
  | single hstart => exact .single hstart
  | @snoc v w π hπ hedge ih =>
    obtain ⟨hfirst, -, hdisjoint⟩ := List.nodup_append.1 hnodup
    refine (ih hfirst).snoc hedge (Nat.not_le.1 fun hle ↦ ?_)
    have hback := mem_backEdges_iff.2 ⟨hπ.reaches, hedge, hle⟩
    have hdom := reducible_iff.1 hreducible v w hback
    exact hdisjoint w (hdom.2 π hπ) w (List.mem_singleton_self w) rfl

/-! ### Sums along forward paths -/

/-- The sums of costs on the forward paths to a node. -/
def forwardSums (g : Graph) (start : Nat) (cost : Nat → Nat) (v : Nat) : Set Nat :=
  {n | ∃ π, g.Forward start v π ∧ n = total (π.map cost)}

/-- The sums of costs on the forward paths to a node that end with the edge from `u`. -/
def sumsThrough (g : Graph) (start : Nat) (cost : Nat → Nat) (u v : Nat) : Set Nat :=
  {n | (g.Edge u v ∧ g.rank start u < g.rank start v) ∧
    ∃ m ∈ g.forwardSums start cost u, n = m + cost v}

/-- The sums of costs on the forward paths to a node that come from a rank below `k`. -/
def sumsBelow (g : Graph) (start : Nat) (cost : Nat → Nat) (k v : Nat) : Set Nat :=
  {n | v = start ∧ start < g.size ∧ n = cost start ∨
    ∃ u, g.rank start u < k ∧ n ∈ g.sumsThrough start cost u v}

variable {cost : Nat → Nat} {k n : Nat}

/-- Every reached node has a forward path, along which the search has come. -/
theorem forwardSums_nonempty (hv : g.Reaches start v) : (g.forwardSums start cost v).Nonempty :=
  (exists_forward hv).elim fun π hπ ↦ ⟨_, π, hπ, rfl⟩

theorem reaches_of_mem_forwardSums (h : n ∈ g.forwardSums start cost v) : g.Reaches start v :=
  h.elim fun _ hπ ↦ hπ.1.path.reaches

/-- **Up to the rank of a node all paths to it are known.** -/
theorem sumsBelow_eq (hk : g.rank start v ≤ k) :
    g.sumsBelow start cost k v = g.forwardSums start cost v := by
  ext n
  constructor
  · rintro (⟨rfl, hstart, rfl⟩ | ⟨u, -, ⟨hedge, hlt⟩, -, ⟨π, hπ, rfl⟩, rfl⟩)
    · exact ⟨[v], .single hstart, rfl⟩
    · exact ⟨π ++ [v], hπ.snoc hedge hlt, by simp⟩
  · rintro ⟨π, hπ, rfl⟩
    cases hπ with
    | single hstart => exact Or.inl ⟨rfl, hstart, rfl⟩
    | @snoc u _ π hπ hedge hlt =>
      exact Or.inr ⟨u, Nat.lt_of_lt_of_le hlt hk, ⟨hedge, hlt⟩, _, ⟨π, hπ, rfl⟩, by simp⟩

/-- **One more rank adds the paths that come from the node of that rank.** -/
theorem sumsBelow_succ {b : Nat} (hb : g.Reaches start b) (hrank : g.rank start b = k) :
    g.sumsBelow start cost (k + 1) v =
      g.sumsBelow start cost k v ∪ g.sumsThrough start cost b v := by
  ext n
  constructor
  · rintro (hfirst | ⟨u, hu, hsum⟩)
    · exact Or.inl (Or.inl hfirst)
    · rcases Nat.lt_succ_iff_lt_or_eq.1 hu with hu | hu
      · exact Or.inl (Or.inr ⟨u, hu, hsum⟩)
      · obtain rfl : b = u := rank_inj hb (hrank.trans hu.symm)
        exact Or.inr hsum
  · rintro ((hfirst | ⟨u, hu, hsum⟩) | hsum)
    · exact Or.inl hfirst
    · exact Or.inr ⟨u, Nat.lt_succ_of_lt hu, hsum⟩
    · exact Or.inr ⟨b, hrank ▸ Nat.lt_succ_self k, hsum⟩

/-- The greatest sum through a node extends the greatest sum to it. -/
theorem isGreatest_sumsThrough {u here : Nat} (hedge : g.Edge u v)
    (hlt : g.rank start u < g.rank start v) (h : IsGreatest (g.forwardSums start cost u) here) :
    IsGreatest (g.sumsThrough start cost u v) (here + cost v) := by
  refine ⟨⟨⟨hedge, hlt⟩, here, h.1, rfl⟩, fun n hn ↦ ?_⟩
  obtain ⟨-, m, hm, rfl⟩ := hn
  exact Nat.add_le_add_right (h.2 hm) _

end Graph

/-! ### The pass over the blocks -/

namespace CycleTiming

variable {g : FlowGraph} {start : Nat} {cost : Nat → Nat} {k v : Nat} {longest : PathCosts}

/-- The greatest element of a set of numbers, if it has one, and `none` for the empty set. -/
def Greatest? (sums : Set Nat) : Option Nat → Prop
  | some n => IsGreatest sums n
  | none => sums = ∅

/-- Where there is a sum there is a greatest one. -/
theorem Greatest?.exists_eq_some {sums : Set Nat} {greatest : Option Nat}
    (h : Greatest? sums greatest) (hne : sums.Nonempty) :
    ∃ n, greatest = some n ∧ IsGreatest sums n := by
  cases greatest with
  | none => exact absurd h hne.ne_empty
  | some n => exact ⟨n, rfl, h⟩

/-- The first `k` blocks in reverse postorder have been passed. -/
def Stage (g : FlowGraph) (start : Nat) (cost : Nat → Nat) (k : Nat) (longest : PathCosts) : Prop :=
  ∀ v : Nat, Greatest? (g.toGraph.sumsBelow start cost k v) longest[v]?

theorem foldl_insert_getElem? (targets : List Nat) (here : Nat) : ∀ longest : PathCosts,
    (targets.foldl (fun longest s ↦
      longest.insert s (max ((longest[s]?).getD 0) (here + cost s))) longest)[v]? =
        if v ∈ targets then some (max (longest[v]?.getD 0) (here + cost v)) else longest[v]? := by
  induction targets with
  | nil => exact fun _ ↦ by simp
  | cons s targets ih =>
    intro longest
    rw [List.foldl_cons, ih, Std.ExtTreeMap.getElem?_insert]
    by_cases hs : s = v
    · subst hs
      simp
    · simp [hs, Ne.symm hs]

/-- Before the first block only the start is known. -/
theorem stage_zero (hstart : start < g.size) :
    Stage g start cost 0 ((∅ : PathCosts).insert start (cost start)) := by
  intro v
  rw [Std.ExtTreeMap.getElem?_insert, Std.ExtTreeMap.getElem?_empty]
  by_cases hv : start = v
  · subst hv
    rw [if_pos (Nat.compare_eq_eq.2 rfl)]
    refine ⟨Or.inl ⟨rfl, hstart, rfl⟩, fun n hn ↦ ?_⟩
    rcases hn with ⟨-, -, rfl⟩ | ⟨u, hu, -⟩
    · exact Nat.le_refl _
    · exact absurd hu (Nat.not_lt_zero _)
  · rw [if_neg (mt Nat.compare_eq_eq.1 hv)]
    refine Set.eq_empty_iff_forall_notMem.2 fun n hn ↦ ?_
    rcases hn with ⟨heq, -⟩ | ⟨u, hu, -⟩
    · exact hv heq.symm
    · exact Nat.not_lt_zero _ hu

/-- **Passing a block takes the pass one stage further.** The entry of the block is final, since all
ranks below its own have been passed. -/
theorem Stage.relax {b : Nat} (h : Stage g start cost k longest)
    (hb : (g.toGraph.reversePostorder start)[k]? = some b) :
    Stage g start cost (k + 1)
      (relax g (g.toGraph.reversePostorder start).idxOf? cost longest b) := by
  have hreach : g.toGraph.Reaches start b :=
    Graph.mem_reversePostorder_iff.1 (List.mem_of_getElem? hb)
  have hrank : g.toGraph.rank start b = k := by
    obtain ⟨hlt, rfl⟩ := List.getElem?_eq_some_iff.1 hb
    exact (g.toGraph.reversePostorder_nodup start).idxOf_getElem k hlt
  obtain ⟨here, hentry, hhere⟩ : ∃ here, longest[b]? = some here ∧
      IsGreatest (g.toGraph.forwardSums start cost b) here := by
    have hfinal := h b
    rw [Graph.sumsBelow_eq (Nat.le_of_eq hrank)] at hfinal
    exact hfinal.exists_eq_some (Graph.forwardSums_nonempty hreach)
  have htargets : ∀ s, s ∈ (g.successors b).filter (fun s ↦
      ((g.toGraph.reversePostorder start).idxOf? s).any (g.toGraph.rank start b < ·)) ↔
        g.toGraph.Edge b s ∧ g.toGraph.rank start b < g.toGraph.rank start s := by
    intro s
    rw [List.mem_filter, ← FlowGraph.edge_iff_mem_successors]
    refine and_congr_right fun hedge ↦ ?_
    rw [Graph.idxOf?_reversePostorder (hreach.step hedge), Option.any_some, decide_eq_true_iff]
  intro v
  rw [CycleTiming.relax, hentry, Graph.idxOf?_reversePostorder hreach]
  show Greatest? _ (List.foldl _ longest _)[v]?
  rw [foldl_insert_getElem?, Graph.sumsBelow_succ hreach hrank]
  split
  · next hv =>
    obtain ⟨hedge, hlt⟩ := (htargets v).1 hv
    have hadded := Graph.isGreatest_sumsThrough hedge hlt hhere
    have hknown := h v
    rcases hv : longest[v]? with - | n
    · rw [hv] at hknown
      rw [show g.toGraph.sumsBelow start cost k v = ∅ from hknown, Set.empty_union,
        Option.getD_none, Nat.zero_max]
      exact hadded
    · rw [hv] at hknown
      exact IsGreatest.union hknown hadded
  · next hv =>
    have hnone : g.toGraph.sumsThrough start cost b v = ∅ :=
      Set.eq_empty_iff_forall_notMem.2 fun n hn ↦ hv ((htargets v).2 hn.1)
    rw [hnone, Set.union_empty]
    exact h v

/-- **Passing the pending blocks one after the other takes the pass to its end.** -/
theorem Stage.foldl_relax (pending : List Nat) : ∀ (passed : List Nat) (longest : PathCosts),
    g.toGraph.reversePostorder start = passed ++ pending →
      Stage g start cost passed.length longest →
        Stage g start cost (g.toGraph.reversePostorder start).length
          (pending.foldl (CycleTiming.relax g (g.toGraph.reversePostorder start).idxOf? cost)
            longest) := by
  induction pending with
  | nil =>
    intro passed longest horder hstage
    rw [horder, List.append_nil]
    exact hstage
  | cons b pending ih =>
    intro passed longest horder hstage
    have hb : (g.toGraph.reversePostorder start)[passed.length]? = some b := by simp [horder]
    refine ih (passed ++ [b]) _ (by rw [horder, List.append_assoc]; rfl) ?_
    rw [List.length_append]
    exact hstage.relax hb

/-- **After the pass every block has the greatest sum over its forward paths.** -/
theorem pathCosts_greatest (hstart : start < g.size) (v : Nat) :
    Greatest? (g.toGraph.forwardSums start cost v) (pathCosts g start cost)[v]? := by
  have hend : Stage g start cost (g.toGraph.reversePostorder start).length
      (pathCosts g start cost) :=
    Stage.foldl_relax _ [] _ rfl (stage_zero hstart)
  have hv := hend v
  rwa [Graph.sumsBelow_eq List.idxOf_le_length] at hv

/-- **The critical path is the greatest sum over the forward paths to an exit.** -/
theorem criticalPathOf_isGreatest (hentry : g.entry = some start)
    (hexit : ∃ v ∈ g.exits, g.toGraph.Reaches start v) :
    IsGreatest {n | ∃ v ∈ g.exits, n ∈ g.toGraph.forwardSums start cost v}
      (criticalPathOf g cost) := by
  obtain ⟨v, hv, hreach⟩ := hexit
  have hgreatest : ∀ v, g.toGraph.Reaches start v → ∃ n, (pathCosts g start cost)[v]? = some n ∧
      IsGreatest (g.toGraph.forwardSums start cost v) n := fun v hv ↦
    (pathCosts_greatest hv.start_lt_size v).exists_eq_some (Graph.forwardSums_nonempty hv)
  have hmem : ∀ n, n ∈ g.exits.toList.filterMap (fun b ↦ (pathCosts g start cost)[b]?) ↔
      ∃ v ∈ g.exits, (pathCosts g start cost)[v]? = some n := by
    intro n
    simp only [List.mem_filterMap, Std.ExtTreeSet.mem_toList]
  have hmax : (g.exits.toList.filterMap fun b ↦ (pathCosts g start cost)[b]?).max? =
      some (criticalPathOf g cost) := by
    obtain ⟨n, hn, -⟩ := hgreatest v hreach
    rw [criticalPathOf, hentry]
    dsimp only
    split
    · next hnil => exact absurd ((hmem n).2 ⟨v, hv, hn⟩) (hnil ▸ List.not_mem_nil)
    · next first rest hcons => rw [hcons, List.max?_cons']
  obtain ⟨hin, hle⟩ := List.max?_eq_some_iff.1 hmax
  constructor
  · obtain ⟨w, hw, hsome⟩ := (hmem _).1 hin
    have hfinal : Greatest? (g.toGraph.forwardSums start cost w) (pathCosts g start cost)[w]? :=
      pathCosts_greatest hreach.start_lt_size w
    rw [hsome] at hfinal
    exact ⟨w, hw, hfinal.1⟩
  · rintro n ⟨w, hw, hn⟩
    obtain ⟨m, hm, -, hupper⟩ := hgreatest w (Graph.reaches_of_mem_forwardSums hn)
    exact (hupper hn).trans (hle m ((hmem m).2 ⟨w, hw, hm⟩))

end CycleTiming

/-! ### The critical path of a routine -/

namespace Routine

variable {r : Routine} {variant : Variant}

/-- The cycles of the instructions of a block. -/
def blockCycles (r : Routine) (variant : Variant) (k : Nat) : Nat :=
  ((FlowGraph.ofRoutine r).block? k).elim 0 fun b ↦ total (b.code.map (·.cycles variant))

/-- A block without successors. -/
def IsExit (r : Routine) (k : Nat) : Prop :=
  k < (FlowGraph.ofRoutine r).size ∧ ∀ v, ¬(FlowGraph.ofRoutine r).toGraph.Edge k v

/-- The cycles on the paths from the entry to an exit that visit no block twice. -/
def acyclicSums (r : Routine) (variant : Variant) : Set Nat :=
  {n | ∃ v π, r.IsExit v ∧ (FlowGraph.ofRoutine r).toGraph.Path 0 v π ∧ π.Nodup ∧
    n = total (π.map (r.blockCycles variant))}

/-- The cycles on the paths from the entry to an exit on which every block comes later in reverse
postorder than the one before. -/
def forwardSums (r : Routine) (variant : Variant) : Set Nat :=
  {n | ∃ v π, r.IsExit v ∧ (FlowGraph.ofRoutine r).toGraph.Forward 0 v π ∧
    n = total (π.map (r.blockCycles variant))}

/-- **A forward path visits no block twice**, so its sum is one of an acyclic path. -/
theorem forwardSums_subset (r : Routine) (variant : Variant) :
    r.forwardSums variant ⊆ r.acyclicSums variant := by
  rintro n ⟨v, π, hexit, hπ, hn⟩
  exact ⟨v, π, hexit, hπ.path, hπ.nodup, hn⟩

theorem entry_eq_some (h : 0 < (FlowGraph.ofRoutine r).size) :
    (FlowGraph.ofRoutine r).entry = some 0 := by
  rw [FlowGraph.ofRoutine_entry, if_neg (Nat.ne_of_gt h)]

/-- **In a reducible routine every acyclic path is a forward path.** -/
theorem forwardSums_eq (h : (FlowGraph.ofRoutine r).Reducible) :
    r.forwardSums variant = r.acyclicSums variant := by
  refine Set.Subset.antisymm (r.forwardSums_subset variant) ?_
  rintro n ⟨v, π, hexit, hπ, hnodup, hn⟩
  have hentry := entry_eq_some (Nat.zero_lt_of_lt hexit.1)
  exact ⟨v, π, hexit, hπ.forward (h 0 hentry) hnodup, hn⟩

/-- Exits are the blocks without successors. -/
theorem mem_exits_iff {k : Nat} : k ∈ (FlowGraph.ofRoutine r).exits ↔ r.IsExit k := by
  show k ∈ (.ofList (((FlowGraph.ofRoutine r).blocks.filter (·.successors.isEmpty)).map
    Block.id) : BlockSet) ↔ _
  have hsuccessors : ∀ {b : Block}, (FlowGraph.ofRoutine r).blocks[k]? = some b →
      (b.successors.isEmpty = true ↔ ∀ v, ¬(FlowGraph.ofRoutine r).toGraph.Edge k v) := by
    intro b hb
    rw [Std.ExtTreeSet.isEmpty_iff, Std.ExtTreeSet.eq_empty_iff_forall_not_mem]
    refine forall_congr' fun v ↦ not_congr ?_
    rw [(FlowGraph.cut_of_getElem? hb).mem_successors, FlowGraph.toGraph_edge_iff]
  simp only [Std.ExtTreeSet.mem_ofList, List.contains_iff_mem, List.mem_map, List.mem_filter]
  constructor
  · rintro ⟨b, ⟨hb, hempty⟩, rfl⟩
    obtain ⟨k, hk⟩ := List.mem_iff_getElem?.1 hb
    obtain rfl := (FlowGraph.cut_of_getElem? hk).id_eq
    exact ⟨(List.getElem?_eq_some_iff.1 hk).1, (hsuccessors hk).1 hempty⟩
  · rintro ⟨hlt, hnone⟩
    have hk := List.getElem?_eq_getElem hlt
    exact ⟨_, ⟨List.mem_of_getElem? hk, (hsuccessors hk).2 hnone⟩,
      (FlowGraph.cut_of_getElem? hk).id_eq⟩

end Routine

namespace TimingContext

/-- The cycles of the indices a block spans are those of its instructions. -/
theorem blockCycles_fitting {r : Routine} {a : Analysis} (h : a.graph.Pictures r)
    (hardware : Hardware) :
    (fitting r a hardware).blockCycles = r.blockCycles hardware.variant := by
  funext k
  have hcovers := covers_fitting (fun b hb ↦ (h.span_le b hb).2) hardware
  rw [hcovers.blockCycles_eq, Routine.blockCycles]
  show (a.graph.blocks[k]?).elim 0 _ = ((FlowGraph.ofRoutine r).blocks[k]?).elim 0 _
  rcases h.block_cases k with ⟨hb, hc⟩ | ⟨b, c, hb, hc, -, -, hcode⟩
  · rw [hb, hc]
    rfl
  · rw [hb, hc, Option.elim_some, Option.elim_some, ← hcode, (h.cut k b hb).code_eq, List.map_take,
      List.map_drop]
    rfl

end TimingContext

namespace Constraints

/-- What the section on constraints does with the critical path. -/
structure HoldsAgainst (r : Routine) (worst interruptBudget : Nat) (frameBudget : Option Nat)
    (found : Constraints × List Issue) : Prop where
  worst_eq : found.1.worstCaseCycles = worst
  interrupt_iff : (∃ i ∈ found.2, i.kind = .interruptBudgetExceeded) ↔
    r.isInterruptHandler = true ∧ interruptBudget < worst
  frame_iff : (∃ i ∈ found.2, i.kind = .frameBudgetExceeded) ↔
    ∃ budget, frameBudget = some budget ∧ budget < worst

variable {r : Routine} {kind : IssueKind}

/-- Issues with the stack are told apart from those with cycles by their kind. -/
theorem stackIssue?_kind {used limit : Nat} {utilization : Float} {i : Issue}
    (h : stackIssue? r.name used limit utilization = some i) :
    i.kind = .stackOverflow ∨ i.kind = .stackPressure := by
  unfold stackIssue? at h
  split at h
  · exact Or.inl (Option.some.inj h ▸ rfl)
  · split at h
    · exact Or.inr (Option.some.inj h ▸ rfl)
    · exact absurd h (by simp)

theorem exists_guarded_iff {p : Prop} [Decidable p] {issue : Issue} :
    (∃ i, (if p then some issue else none) = some i ∧ i.kind = kind) ↔ p ∧ issue.kind = kind := by
  split <;> simp [*]

/-- A handler is reported when its worst path breaks the budget for interrupts. -/
theorem exists_interruptIssue?_iff {worst budget : Nat} :
    (∃ i, interruptIssue? r worst budget = some i ∧ i.kind = kind) ↔
      (r.isInterruptHandler = true ∧ budget < worst) ∧ .interruptBudgetExceeded = kind := by
  rw [interruptIssue?, exists_guarded_iff, Bool.and_eq_true, decide_eq_true_iff]
  rfl

/-- A routine is reported when its worst path breaks the budget for a frame, if there is one. -/
theorem exists_frameIssue?_iff {worst : Nat} {budget : Option Nat} :
    (∃ i, frameIssue? r worst budget = some i ∧ i.kind = kind) ↔
      (∃ limit, budget = some limit ∧ limit < worst) ∧ .frameBudgetExceeded = kind := by
  cases budget with
  | none => simp [frameIssue?]
  | some limit =>
    rw [frameIssue?, Option.bind_eq_bind, Option.bind_some, exists_guarded_iff]
    simp [Issue.warning]

/-- **Both budgets are held against the critical path**, whenever the locals on the stack can be
summed up. -/
theorem analyze_holdsAgainst {c : TimingContext} {stackLocals : Nat}
    (h : stackLocalBytes c.routine = .ok stackLocals) (interruptBudget : Nat)
    (frameBudget : Option Nat) : ∃ found, analyze c interruptBudget frameBudget = .ok found ∧
      HoldsAgainst c.routine (CycleTiming.worstPath c) interruptBudget frameBudget found := by
  obtain ⟨found, stack, hfound, hstack, hworst, hissues⟩ : ∃ (found : Constraints × List Issue)
      (stack : Option Issue), analyze c interruptBudget frameBudget = .ok found ∧
        (∀ i, stack = some i → i.kind = .stackOverflow ∨ i.kind = .stackPressure) ∧
          found.1.worstCaseCycles = CycleTiming.worstPath c ∧ found.2 = stack.toList ++
            (interruptIssue? c.routine (CycleTiming.worstPath c) interruptBudget).toList ++
              (frameIssue? c.routine (CycleTiming.worstPath c) frameBudget).toList := by
    unfold analyze
    dsimp only
    rw [h]
    exact ⟨_, _, rfl, fun i hi ↦ stackIssue?_kind hi, rfl, rfl⟩
  have hkind : ∀ kind : IssueKind, (∃ i ∈ found.2, i.kind = kind) ↔
      (∃ i, stack = some i ∧ i.kind = kind) ∨
        (∃ i, interruptIssue? c.routine (CycleTiming.worstPath c) interruptBudget = some i ∧
          i.kind = kind) ∨
        ∃ i, frameIssue? c.routine (CycleTiming.worstPath c) frameBudget = some i ∧
          i.kind = kind := by
    intro kind
    rw [hissues]
    simp only [List.mem_append, Option.mem_toList, or_and_right, exists_or, or_assoc]
  have hnone : ∀ {kind : IssueKind}, kind ≠ .stackOverflow → kind ≠ .stackPressure →
      ¬∃ i, stack = some i ∧ i.kind = kind := by
    rintro kind hoverflow hpressure ⟨i, hi, rfl⟩
    exact (hstack i hi).elim hoverflow hpressure
  refine ⟨found, hfound, hworst, ?_, ?_⟩
  · rw [hkind, or_iff_right (hnone (by decide) (by decide)), exists_interruptIssue?_iff,
      exists_frameIssue?_iff]
    simp
  · rw [hkind, or_iff_right (hnone (by decide) (by decide)), exists_interruptIssue?_iff,
      exists_frameIssue?_iff]
    simp

end Constraints

namespace CycleTiming

open TimingContext

/-- **The critical path of a routine is the worst path that goes forward.** -/
theorem criticalPath_isGreatest {r : Routine} {a : Analysis} (h : a.graph.Pictures r)
    (hardware : Hardware)
    (hexit : ∃ v, r.IsExit v ∧ (FlowGraph.ofRoutine r).toGraph.Reaches 0 v) :
    IsGreatest (r.forwardSums hardware.variant)
      (analyze (fitting r a hardware)).criticalPath := by
  obtain ⟨v, hv, hreach⟩ := hexit
  have hentry : a.graph.entry = some 0 :=
    h.entry_eq.trans (Routine.entry_eq_some (Nat.zero_lt_of_lt hv.1))
  have hreached : ∃ v ∈ a.graph.exits, a.graph.toGraph.Reaches 0 v :=
    ⟨v, h.exits_eq ▸ Routine.mem_exits_iff.2 hv, h.toGraph_eq ▸ hreach⟩
  have hsums : {n | ∃ v ∈ a.graph.exits,
      n ∈ a.graph.toGraph.forwardSums 0 (r.blockCycles hardware.variant) v} =
        r.forwardSums hardware.variant := by
    ext n
    simp only [h.exits_eq, h.toGraph_eq, Routine.mem_exits_iff]
    constructor
    · rintro ⟨v, hexit, π, hπ, hn⟩
      exact ⟨v, π, hexit, hπ, hn⟩
    · rintro ⟨v, π, hexit, hπ, hn⟩
      exact ⟨v, hexit, π, hπ, hn⟩
  show IsGreatest _ (criticalPathOf a.graph (fitting r a hardware).blockCycles)
  rw [blockCycles_fitting h, ← hsums]
  exact criticalPathOf_isGreatest hentry hreached

/-- **The critical path is the worst path that goes forward, and for reducible routines the worst
acyclic path.** For every accepted analysis of a routine with an exit that is reached, on every
hardware, there is a timing context. Its critical path is the greatest sum of cycles over the paths
from the entry to an exit along which the rank rises. These visit no block twice, and in a reducible
graph they are all paths that visit no block twice. The same number is reported as the worst case
and held against both budgets, unless the sizes of the locals on the stack overflow their sum. -/
theorem criticalPath_exact (r : Routine) (o : AnalysisOptions) (a : Analysis) (hardware : Hardware)
    (ha : Analysis.ofRoutine o r = .ok a)
    (hexit : ∃ v, r.IsExit v ∧ (FlowGraph.ofRoutine r).toGraph.Reaches 0 v) :
    ∃ c, TimingContext.of r a hardware = .ok c ∧
      IsGreatest (r.forwardSums hardware.variant) (analyze c).criticalPath ∧
      (analyze c).criticalPath ∈ r.acyclicSums hardware.variant ∧
      ((FlowGraph.ofRoutine r).Reducible →
        IsGreatest (r.acyclicSums hardware.variant) (analyze c).criticalPath) ∧
      ∀ interruptBudget frameBudget bytes, Constraints.stackLocalBytes r = .ok bytes →
        ∃ found, Constraints.analyze c interruptBudget frameBudget = .ok found ∧
          Constraints.HoldsAgainst r (analyze c).criticalPath interruptBudget frameBudget
            found := by
  obtain ⟨rfl, -⟩ := Analysis.eq_run_of_ofRoutine ha
  have hpictures := Analysis.run_pictures o r
  have hforward := criticalPath_isGreatest hpictures hardware hexit
  refine ⟨fitting r _ hardware, of_eq_ok rfl hpictures, hforward,
    r.forwardSums_subset _ hforward.1, fun hreducible ↦ ?_,
    fun interruptBudget frameBudget _ hbytes ↦
      Constraints.analyze_holdsAgainst hbytes interruptBudget frameBudget⟩
  rwa [← Routine.forwardSums_eq hreducible]

theorem criticalPath_exact_loopInLoop : ∃ a c, Analysis.ofRoutine {} loopInLoop = .ok a ∧
    TimingContext.of loopInLoop a (.ofVariant .mos6502) = .ok c ∧
      (FlowGraph.ofRoutine loopInLoop).Reducible ∧
        IsGreatest (loopInLoop.acyclicSums .mos6502) (analyze c).criticalPath ∧
          ∃ found, Constraints.analyze c 5 (some 9) = .ok found ∧
            Constraints.HoldsAgainst loopInLoop (analyze c).criticalPath 5 (some 9) found := by
  have hexit : loopInLoop.IsExit 3 := Routine.mem_exits_iff.1 (by decide +kernel)
  have hreach : (FlowGraph.ofRoutine loopInLoop).toGraph.Reaches 0 3 :=
    Graph.mem_reversePostorder_iff.1 (by decide +kernel)
  have hreducible : (FlowGraph.ofRoutine loopInLoop).Reducible :=
    ((FlowGraph.ofRoutine_wellFormed loopInLoop).irreducibleEdges_eq_nil_iff
      (FlowGraph.ofRoutine_coherent loopInLoop)).1 (by decide +kernel)
  obtain ⟨c, hc, -, -, hworst, hbudgets⟩ :=
    criticalPath_exact loopInLoop {} _ (.ofVariant .mos6502) rfl ⟨3, hexit, hreach⟩
  exact ⟨_, c, rfl, hc, hreducible, hworst hreducible, hbudgets 5 (some 9) 0 rfl⟩

/-- A cycle that is entered at two places. The costly way through it takes the edge that does not
raise the rank. -/
def detour : Routine where
  name := "side"
  instructions := [⟨0, .branchIfTrue, [.temp 0, .label "b"], none, none, none⟩,
    ⟨1, .label, [.label "a"], none, none, none⟩,
    ⟨2, .branchIfTrue, [.temp 1, .label "out"], none, none, none⟩,
    ⟨3, .label, [.label "b"], none, none, none⟩,
    ⟨4, .mul, [.temp 2, .temp 2, .ofByte 3], none, none, none⟩,
    ⟨5, .branch, [.label "a"], none, none, none⟩,
    ⟨6, .label, [.label "out"], none, none, none⟩, ⟨7, .ret, [], none, none, none⟩]

/-- **The critical path misses the worst acyclic path of a routine that is not reducible.** -/
theorem criticalPath_misses_detour : ∃ a c, Analysis.ofRoutine {} detour = .ok a ∧
    TimingContext.of detour a (.ofVariant .mos6510) = .ok c ∧
      (∃ v, detour.IsExit v ∧ (FlowGraph.ofRoutine detour).toGraph.Reaches 0 v) ∧
        (analyze c).criticalPath = 18 ∧ 69 ∈ detour.acyclicSums .mos6510 := by
  have hedges : ∀ e ∈ [(0, 2), (2, 1), (1, 3)],
      e.2 ∈ (FlowGraph.ofRoutine detour).successors e.1 := by decide +kernel
  have hedge : ∀ e ∈ [(0, 2), (2, 1), (1, 3)],
      (FlowGraph.ofRoutine detour).toGraph.Edge e.1 e.2 := fun e he ↦
    FlowGraph.edge_iff_mem_successors.2 (hedges e he)
  have hexit : detour.IsExit 3 := Routine.mem_exits_iff.1 (by decide +kernel)
  have hpath : (FlowGraph.ofRoutine detour).toGraph.Path 0 3 [0, 2, 1, 3] :=
    (((Graph.Path.single (by decide +kernel)).snoc (hedge (0, 2) (by decide))).snoc
      (hedge (2, 1) (by decide))).snoc (hedge (1, 3) (by decide))
  exact ⟨_, _, rfl, of_eq_ok rfl (Analysis.run_pictures {} detour), ⟨3, hexit, hpath.reaches⟩,
    by decide +kernel, 3, [0, 2, 1, 3], hexit, hpath, by decide, by decide +kernel⟩

end CycleTiming

end FlowGauge
