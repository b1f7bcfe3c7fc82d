import FlowGauge.Proofs.Graph.Settling

/-!
# The dominator computation ends on every graph

The definitions bound each of their loops: the passes, the climb to a meeting point, the climb to
the entry. Here it is said that no bound ever cuts a loop short, for any predecessor lists. Passes
go on until one changes nothing; whenever a meeting point is asked for, both chains are climbed up
to it; and following immediate dominators, to the entry or to the node where a frontier computation
stops, ends by itself. The loops without a bound are the relations `Walks`, `Ascends` and `Runs`.

A bound that is generous hides a loop that does not end, since the result is then whatever was there
when the bound ran out. So each loop is described once more as a relation that has no bound, which
holds only of runs that end by themselves, and the bounded function is shown to give what the
relation gives. The sharpest case is a graph whose predecessor lists have nothing to do with its
successor lists (`unmirrored`): a node is then fed by one that comes later in the numbering, and the
positions along a chain go up and down.
-/

namespace FlowGauge

namespace Dominators

open DominatorTable

variable {g : Graph} {entry : Nat}

/-! ### Loops without a bound -/

section Loops

variable {d : Dominators} {v u : Nat} {visited visited' : List Nat}

/-- The climb of a frontier computation visits the listed nodes and then ends, at a given node or
behind the last one. -/
inductive Runs (d : Dominators) (top : Option Nat) : Nat → List Nat → Prop
  | top {v : Nat} : some v = top → d.Runs top v []
  | last {v : Nat} : some v ≠ top → d.idom? v = none → d.Runs top v [v]
  | up {v u : Nat} {visited : List Nat} : some v ≠ top → d.idom? v = some u →
      d.Runs top u visited → d.Runs top v (v :: visited)

/-- A climb of a frontier computation is the first part of a climb to the entry. -/
theorem Ascends.runs (h : d.Ascends v visited) (top : Option Nat) :
    d.Runs top v (visited.takeWhile fun c ↦ some c ≠ top) := by
  induction h with
  | @last v hnone =>
    by_cases htop : some v = top
    · rw [List.takeWhile_cons_of_neg (by simpa using htop)]
      exact .top htop
    · rw [List.takeWhile_cons_of_pos (by simpa using htop)]
      exact .last htop hnone
  | @up v u visited hup _ ih =>
    by_cases htop : some v = top
    · rw [List.takeWhile_cons_of_neg (by simpa using htop)]
      exact .top htop
    · rw [List.takeWhile_cons_of_pos (by simpa using htop)]
      exact .up htop hup ih

/-- A walk has one course. -/
theorem Runs.unique {top : Option Nat} (h : d.Runs top v visited) (h' : d.Runs top v visited') :
    visited = visited' := by
  induction h generalizing visited' with
  | top htop =>
    cases h' with
    | top _ => rfl
    | last hne _ => exact absurd htop hne
    | up hne _ _ => exact absurd htop hne
  | last hne hnone =>
    cases h' with
    | top htop => exact absurd htop hne
    | last _ _ => rfl
    | up _ hup _ => exact absurd (hnone.symm.trans hup) (by simp)
  | up hne hup _ ih =>
    cases h' with
    | top htop => exact absurd htop hne
    | last _ hnone => exact absurd (hnone.symm.trans hup) (by simp)
    | up _ hup' hrest =>
      obtain rfl := Option.some.inj (hup.symm.trans hup')
      rw [ih hrest]

end Loops

/-! ### Every graph -/

/-- During some pass, when the predecessors of a node are looked at, the meeting point of `p` and
the node found so far is asked for. -/
def Meeting (g : Graph) (entry : Nat) (table : DominatorTable) (p found : Nat) : Prop :=
  ∃ (k : Nat) (done : List Nat) (v : Nat) (rest before after : List Nat),
    (g.reversePostorder entry).drop 1 = done ++ v :: rest ∧
      table = (passes g entry k).pass g (g.numbering entry).toArray done ∧
      g.predecessors v = before ++ p :: after ∧ table.Filled p ∧
      table.meetAll (g.numbering entry).toArray before = some found

/-- The computation of immediate dominators ends, and so do all loops over its result. -/
structure Ends (g : Graph) (entry : Nat) : Prop where
  /-- Some pass changes nothing, and the result is the table it leaves as it is. -/
  settles : ∃ k, passes g entry (k + 1) = passes g entry k ∧
    (compute g entry).table = passes g entry k
  /-- Wherever a meeting point is asked for, both chains are climbed up to it. -/
  meets : ∀ table p found, Meeting g entry table p found → ∃ m,
    table.meet (g.numbering entry).toArray (table.size * table.size + 1) p found = m ∧
      table.Walks (g.numbering entry).toArray p found m ∧ table.Climbs p m ∧ table.Climbs found m
  /-- Following immediate dominators ends at the entry and repeats no node. -/
  ascends : ∀ v, (compute g entry).isReachable v = true → ∃ visited,
    (compute g entry).Ascends v visited ∧ visited.getLast? = some entry ∧ visited.Nodup ∧
      (compute g entry).chain v = visited ∧
      (compute g entry).depth? v = some (visited.length - 1) ∧
      ∀ a, (compute g entry).dominates a v = true ↔ a ∈ visited
  /-- A node that is not reached has no chain. -/
  chain_eq_nil : ∀ v, (compute g entry).isReachable v = false → (compute g entry).chain v = []
  /-- All climbs of the frontier computation end. -/
  runs : ∀ top p, (compute g entry).isReachable p = true →
    ∃ visited, (compute g entry).Runs top p visited
  /-- The frontier of a node is read off these climbs. -/
  frontiers : ∀ v < g.size, ∃ frontier, ((compute g entry).frontiers g)[v]? = some frontier ∧
    ∀ join, join ∈ frontier ↔ join < g.size ∧ (compute g entry).isReachable join = true ∧
      2 ≤ ((g.predecessors join).filter (compute g entry).isReachable).length ∧
      ∃ p ∈ g.predecessors join, (compute g entry).isReachable p = true ∧ ∃ visited,
        (compute g entry).Runs ((compute g entry).idom? join) p visited ∧ v ∈ visited

/-- The chains end in every table on the way. -/
theorem passes_rooted (he : entry < g.size) (k : Nat) {done : List Nat}
    (hsub : done ⊆ (g.reversePostorder entry).drop 1) : ∃ height : Nat → Nat,
      Rooted ((passes g entry k).pass g (g.numbering entry).toArray done)
        (g.numbering entry).toArray entry height := by
  obtain ⟨⟨filled, h⟩, -⟩ := (g.schedule he).tables_filled k
  obtain ⟨filled', h', -, -⟩ := h.pass (t := 0) done hsub (fun _ ↦ Nat.zero_le _)
    fun h ↦ absurd h (by omega)
  exact ⟨_, h'.rooted⟩

/-- The frontier of a node is built from the chains of the predecessors of joins, each cut off where
the join is dominated. -/
theorem mem_passed_iff (d : Dominators) (g : Graph) (join v : Nat) : v ∈ d.passed g join ↔
    d.isReachable join = true ∧ 2 ≤ ((g.predecessors join).filter d.isReachable).length ∧
      ∃ p ∈ g.predecessors join, d.isReachable p = true ∧
        v ∈ (d.chain p).takeWhile fun c ↦ some c ≠ d.idom? join := by
  simp only [passed]
  split
  · next hjoin =>
    simp only [Bool.and_eq_true, decide_eq_true_eq] at hjoin
    simp only [List.mem_flatMap, List.mem_filter, hjoin, true_and, and_assoc]
  · next hjoin =>
    simp only [Bool.and_eq_true, decide_eq_true_eq] at hjoin
    refine ⟨fun hv ↦ absurd hv List.not_mem_nil, fun ⟨h₁, h₂, _⟩ ↦ absurd ⟨h₁, h₂⟩ hjoin⟩

/-- **The computation of immediate dominators ends on every graph**, whatever its predecessor lists
say, and so do the loops over its result. -/
theorem compute_ends (g : Graph) (entry : Nat) (he : entry < g.size) : Ends g entry := by
  obtain ⟨height, hrooted⟩ := compute_rooted he
  have hentry := compute_entry g entry
  refine
    { settles := ?settles
      meets := ?meets
      ascends := ?ascends
      chain_eq_nil := ?chain
      runs := ?runs
      frontiers := ?frontiers }
  case settles =>
    obtain ⟨k, heq, hk⟩ := exists_compute_eq_passes he
    have hfixed := (compute_settled he).pass_eq
    rw [heq] at hfixed
    exact ⟨k, (Function.iterate_succ_apply' ..).trans hfixed, heq⟩
  case meets =>
    rintro _ p found ⟨k, done, v, rest, before, after, horder, rfl, -, hp, hfound⟩
    obtain ⟨height, h⟩ := passes_rooted he k (horder ▸ List.subset_append_left done (v :: rest))
    have hwalk := h.walks_of_meetAll hfound hp
    exact ⟨_, rfl, hwalk, hwalk.records.1.climbs, hwalk.records.2.1.climbs⟩
  case ascends =>
    intro v hv
    obtain ⟨hascends, -, hlast, hnodup⟩ := chain_shape hrooted hv
    refine ⟨_, hascends, hlast.trans (congrArg some hentry), hnodup, rfl, if_pos hv, fun a ↦ ?_⟩
    rw [dominates, decide_eq_true_iff]
  case chain =>
    exact fun v hv ↦ if_neg (by simp [hv])
  case runs =>
    exact fun top p hp ↦ ⟨_, (chain_shape hrooted hp).1.runs top⟩
  case frontiers =>
    intro v hv
    refine ⟨(compute g entry).frontier g v, ?_, fun join ↦ ?_⟩
    · rw [frontiers_eq_map_frontier, List.getElem?_map, List.getElem?_range hv]
      rfl
    · rw [frontier, List.mem_filter, List.mem_range, decide_eq_true_iff, mem_passed_iff]
      refine and_congr_right fun _ ↦ and_congr_right fun _ ↦ and_congr_right fun _ ↦ ?_
      refine exists_congr fun p ↦ and_congr_right fun _ ↦ and_congr_right fun hp ↦ ?_
      have hruns := (chain_shape hrooted hp).1.runs ((compute g entry).idom? join)
      constructor
      · exact fun hmem ↦ ⟨_, hruns, hmem⟩
      · rintro ⟨visited, hruns', hmem⟩
        exact hruns.unique hruns' ▸ hmem

/-- Node 1 is listed behind node 3 and before node 2, which is the only node that feeds it. -/
def unmirrored : Graph where
  size := 4
  successors
    | 0 => [2, 1, 3]
    | _ => []
  predecessors
    | 1 => [2]
    | 2 => [0, 3]
    | 3 => [0, 1]
    | _ => []

theorem compute_ends_unmirrored : ¬unmirrored.Coherent ∧ 0 < unmirrored.size ∧
    Ends unmirrored 0 := by
  have hno : ¬unmirrored.Coherent := fun hco ↦
    absurd ((hco 0 1 (by decide) (by decide)).1 (by decide)) (by decide)
  exact ⟨hno, by decide, compute_ends unmirrored 0 (by decide)⟩

end Dominators

end FlowGauge
