import FlowGauge.Proofs.Graph.Settling

/-!
# Immediate dominators of coherent graphs

When the predecessor lists of a graph mirror its successor lists, the passes in reverse postorder
carry entries along the edges of the graph, and a node guards another one exactly when it dominates
it (`Graph.guards_iff_dominates`): a node of smaller rank can be reached from the entry without
passing the guard. The settled table therefore holds the immediate dominators (`Settled.exact`), the
rank falls along its chains, and the chain of a node lists its dominators
(`Dominators.mem_chain_iff`).

What is asked of a table here is `Exact`: an entry for each reached node and no other, and the entry
is the lowest strict dominator. It mentions neither the passes nor the numbering, and everything
that is computed from a table later rests on it alone: chains, depths, the test of a pair, and
frontiers.
-/

namespace FlowGauge

variable {g : Graph} {entry : Nat}

/-! ### Guarding is dominating -/

namespace Graph

section Coherent

variable (hco : g.Coherent) (he : entry < g.size)

include hco

/-- With mirrored lists, what feeds a node are its edges from reached nodes. The entry is not fed.
-/
theorem schedule_edge_iff {p v : Nat} : (g.schedule he).feeding.Edge p v ↔
    g.Edge p v ∧ g.Reaches entry v ∧ v ≠ entry := by
  have horder := reversePostorder_eq_cons_drop he
  have hmem : v ∈ (g.schedule he).order ↔ g.Reaches entry v ∧ v ≠ entry := by
    rw [← mem_reversePostorder_iff, horder, List.mem_cons]
    refine ⟨fun hv ↦ ⟨Or.inr hv, ?_⟩, fun hv ↦ hv.1.resolve_left hv.2⟩
    rintro rfl
    exact (g.schedule he).entry_not_mem hv
  rw [Schedule.edge_iff, hmem]
  constructor
  · rintro ⟨hp, hv, hpred⟩
    exact ⟨⟨hp, hv.1.lt_size, (hco p v hp hv.1.lt_size).2 hpred⟩, hv⟩
  · exact fun ⟨hedge, hv⟩ ↦ ⟨hedge.1, hv, (hco p v hedge.1 hedge.2.1).1 hedge.2.2⟩

/-- A path along which entries are carried is a path of the graph. -/
theorem path_of_feeding {x v : Nat} {π : List Nat} (h : (g.schedule he).feeding.Path x v π) :
    g.Path x v π := by
  induction h with
  | single hx => exact .single hx
  | snoc _ hedge ih => exact ih.snoc ((schedule_edge_iff hco he).1 hedge).1

/-- A path that comes back to the entry can be started there. -/
theorem exists_feeding_path {v : Nat} {π : List Nat} (h : g.Path entry v π) :
    ∃ ρ, (g.schedule he).feeding.Path entry v ρ ∧ ρ ⊆ π := by
  induction h with
  | single _ => exact ⟨[entry], .single he, List.Subset.refl _⟩
  | @snoc v w π hπ hedge ih =>
    obtain ⟨ρ, hρ, hsub⟩ := ih
    by_cases hw : w = entry
    · rw [hw]
      exact ⟨[entry], .single he, List.cons_subset.2
        ⟨List.mem_append_left _ hπ.source_mem, List.nil_subset _⟩⟩
    · exact ⟨ρ ++ [w],
        hρ.snoc ((schedule_edge_iff hco he).2 ⟨hedge, hπ.reaches.step hedge, hw⟩),
        List.append_subset.2 ⟨List.Subset.trans hsub (List.subset_append_left _ _),
          List.subset_append_right _ _⟩⟩

/-- With mirrored lists, fed means reached. -/
theorem fed_iff_reaches {v : Nat} : (g.schedule he).Fed v ↔ g.Reaches entry v := by
  rw [Schedule.Fed, reaches_iff_exists_path, reaches_iff_exists_path]
  constructor
  · rintro ⟨π, hπ⟩
    exact ⟨π, path_of_feeding hco he hπ⟩
  · rintro ⟨π, hπ⟩
    obtain ⟨ρ, hρ, -⟩ := exists_feeding_path hco he hπ
    exact ⟨ρ, hρ⟩

/-- **A node guards another one exactly when it dominates it.** A node at a smaller rank is reached
without passing the guard. -/
theorem guards_iff_dominates {w v : Nat} :
    (g.schedule he).Guards w v ↔ g.Dominates entry w v := by
  have hrank : ∀ {x : Nat}, (g.schedule he).Fed x →
      (g.schedule he).rank x = g.rank entry x := fun hx ↦
    DominatorTable.position_numbering ((fed_iff_reaches hco he).1 hx)
  constructor
  · intro h
    refine ⟨(fed_iff_reaches hco he).1 h.fed_right, fun π hπ ↦ ?_⟩
    obtain ⟨ρ, hρ, hsub⟩ := exists_feeding_path hco he hπ
    by_cases hw : w = entry
    · exact hw ▸ hπ.source_mem
    · have hentry := (g.schedule he).fed_entry
      refine hsub (h.mem_path entry ρ hentry (Nat.lt_of_le_of_ne ?_ fun heq ↦ ?_) hρ)
      · show DominatorTable.position _ (g.schedule he).entry ≤ _
        rw [(g.schedule he).position_entry]
        exact Nat.zero_le _
      · exact hw (hentry.rank_inj h.fed_left heq).symm
  · intro h
    have hw := (fed_iff_reaches hco he).2 h.reaches_left
    refine ⟨hw, (fed_iff_reaches hco he).2 h.1, fun x π hx hlt hπ ↦ ?_⟩
    rw [hrank hx, hrank hw] at hlt
    obtain ⟨σ, hσ, hle⟩ := exists_path_rank_le ((fed_iff_reaches hco he).1 hx)
    obtain ⟨ρ, hρ, hmem⟩ := hσ.exists_append (path_of_feeding hco he hπ)
    refine (hmem w (h.2 ρ hρ)).resolve_left fun hwσ ↦ ?_
    exact absurd (hle w hwσ) (Nat.not_le_of_lt hlt)

end Coherent

end Graph

/-! ### Exact tables -/

namespace DominatorTable

variable {table : DominatorTable}

/-- The entries of the table are the immediate dominators of the reached nodes. -/
structure Exact (g : Graph) (entry : Nat) (table : DominatorTable) : Prop where
  size_eq : table.size = g.size
  root : table.at? entry = some entry
  filled_iff_reaches : ∀ v, table.Filled v ↔ g.Reaches entry v
  falls : ∀ v u, table.at? v = some u → v ≠ entry →
    table.Filled u ∧ g.rank entry u < g.rank entry v
  /-- An entry is the strict dominator that every other strict dominator dominates. -/
  at?_spec : ∀ v u, table.at? v = some u → v ≠ entry → u ≠ v ∧ g.Dominates entry u v ∧
    ∀ d, d ≠ v → g.Dominates entry d v → g.Dominates entry d u

namespace Exact

/-- Only reached nodes have an entry. -/
theorem reached (h : table.Exact g entry) {v : Nat} (hv : table.Filled v) : g.Reaches entry v :=
  (h.filled_iff_reaches v).1 hv

theorem entry_lt_size (h : table.Exact g entry) : entry < g.size :=
  (h.reached (filled_of_at? h.root)).lt_size

/-- The rank falls along every chain. -/
theorem rooted (h : table.Exact g entry) :
    table.Rooted (g.numbering entry).toArray entry (g.rank entry) where
  root := h.root
  position_root := by
    rw [position_numbering (.refl h.entry_lt_size), Graph.rank_entry h.entry_lt_size]
  position_inj v w hv hw heq := by
    rw [position_numbering (h.reached hv), position_numbering (h.reached hw)] at heq
    exact Graph.rank_inj (h.reached hv) heq
  falls := h.falls
  height_lt v hv := h.size_eq ▸ Graph.rank_lt_size (h.reached hv)

end Exact

/-- **On a coherent graph the settled table holds the immediate dominators.** -/
theorem Settled.exact (hco : g.Coherent) {he : entry < g.size}
    (h : table.Settled (g.schedule he)) : table.Exact g entry := by
  obtain ⟨filled, hsettling⟩ := h.settling
  have hfilled : ∀ v, table.Filled v ↔ g.Reaches entry v := fun v ↦
    h.filled_iff.trans (Graph.fed_iff_reaches hco he)
  -- The node above another one dominates all its reached predecessors, and is the lowest to do so.
  have hspec : ∀ v u, table.at? v = some u → v ≠ entry →
      (∀ p, g.Reaches entry p → g.Edge p v → g.Dominates entry u p) ∧
        ∀ d, (∀ p, g.Reaches entry p → g.Edge p v → g.Dominates entry d p) →
          g.Dominates entry d u := by
    intro v u hat hne
    have hv := (hfilled v).1 (filled_of_at? hat)
    have hiff : ∀ d, (∀ p, (g.schedule he).Fed p → (g.schedule he).feeding.Edge p v →
        (g.schedule he).Guards d p) ↔
          ∀ p, g.Reaches entry p → g.Edge p v → g.Dominates entry d p := by
      intro d
      simp only [Graph.fed_iff_reaches hco he, Graph.schedule_edge_iff hco he,
        Graph.guards_iff_dominates hco he, hv, true_and]
      exact ⟨fun hd p hp hedge ↦ hd p hp ⟨hedge, hne⟩, fun hd p hp hedge ↦ hd p hp hedge.1⟩
    obtain ⟨hguards, hlow⟩ := h.at?_spec hat hne
    exact ⟨(hiff u).1 hguards, fun d hd ↦
      (Graph.guards_iff_dominates hco he).1 (hlow d ((hiff d).2 hd))⟩
  have hfalls : ∀ v u, table.at? v = some u → v ≠ entry →
      table.Filled u ∧ g.rank entry u < g.rank entry v := by
    intro v u hat hne
    obtain ⟨p, hp, hedge, hlt⟩ := Graph.exists_parent ((hfilled v).1 (filled_of_at? hat)) hne
    have hdom := (hspec v u hat hne).1 p hp hedge
    exact ⟨(hsettling.falls v u hat hne).1, Nat.lt_of_le_of_lt hdom.rank_le hlt⟩
  refine ⟨hsettling.size_eq, hsettling.root, hfilled, hfalls, fun v u hat hne ↦ ?_⟩
  obtain ⟨hdom, hlow⟩ := hspec v u hat hne
  have huv : u ≠ v := by
    rintro rfl
    exact Nat.lt_irrefl _ (hfalls u u hat hne).2
  refine ⟨huv, ⟨(hfilled v).1 (filled_of_at? hat), fun π hπ ↦ ?_⟩, fun d hdv hd ↦
    hlow d fun p hp hedge ↦ hd.of_edge hdv hp hedge⟩
  cases hπ with
  | single _ => exact absurd rfl hne
  | snoc hπ hedge => exact List.mem_append_left _ ((hdom _ hπ.reaches hedge).2 _ hπ)

end DominatorTable

namespace Dominators

variable {d : Dominators}

/-- **The computed table holds the immediate dominators.** -/
theorem compute_exact (hco : g.Coherent) (he : entry < g.size) :
    (compute g entry).table.Exact g entry :=
  (compute_settled he).exact hco

/-! ### Chains of dominators -/

/-- The test for reachability asks for an entry in the table. -/
theorem isReachable_iff (h : d.table.Exact g d.entry) {v : Nat} :
    d.isReachable v = true ↔ g.Reaches d.entry v :=
  h.filled_iff_reaches v

/-- Every reached node but the entry has an immediate dominator, which is reached, too. -/
theorem idom?_eq_some (h : d.table.Exact g d.entry) {v : Nat} (hv : g.Reaches d.entry v)
    (hne : v ≠ d.entry) :
    ∃ u, d.idom? v = some u ∧ d.table.at? v = some u ∧ g.Reaches d.entry u := by
  obtain ⟨u, hat, -, hu, -⟩ := h.rooted.exists_up ((h.filled_iff_reaches v).2 hv) hne
  exact ⟨u, (idom?_of_ne hne).trans hat, hat, h.reached hu⟩

/-- **The chain of a node lists its dominators.** -/
theorem mem_chain_iff (h : d.table.Exact g d.entry) {v x : Nat} :
    x ∈ d.chain v ↔ g.Dominates d.entry x v := by
  by_cases hv : d.table.Filled v
  · refine chain_induction h.rooted (motive := fun v ↦ x ∈ d.chain v ↔ g.Dominates d.entry x v)
      ?_ ?_ hv
    · rw [chain_entry h.rooted, List.mem_singleton]
      constructor
      · rintro rfl
        exact .refl (.refl h.entry_lt_size)
      · exact fun hx ↦ hx.eq_entry
    · intro v u hat hne ih
      obtain ⟨-, hdom, hlow⟩ := h.at?_spec v u hat hne
      rw [chain_cons h.rooted hat hne, List.mem_cons, ih]
      constructor
      · rintro (rfl | hx)
        · exact .refl (h.reached (DominatorTable.filled_of_at? hat))
        · exact hx.trans hdom
      · intro hx
        by_cases heq : x = v
        · exact Or.inl heq
        · exact Or.inr (hlow x heq hx)
  · rw [chain_of_not_filled hv]
    exact ⟨fun hx ↦ absurd hx List.not_mem_nil, fun hx ↦
      absurd ((h.filled_iff_reaches v).2 hx.1) hv⟩

end Dominators

end FlowGauge
