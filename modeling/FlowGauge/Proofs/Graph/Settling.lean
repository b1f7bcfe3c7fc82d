import FlowGauge.Proofs.Graph.Guard
import Mathlib.Logic.Function.Iterate

/-!
# The dominator fixed point settles on every graph

The predecessor lists of a graph need not mirror its successor lists. Passes then carry entries
along the listed predecessors (`Schedule.feeding`), while meeting points are found by positions in
an order that has nothing to do with them. An entry can move up and later down again, so there is no
progress from one table to the next, and the proof compares every table with the limit instead.

In the limit, the records of the chain of `v` are the nodes that *guard* it: whatever feeds `v` from
a smaller position passes them (`Schedule.Guards`). The invariant `DominatorTable.Settling` is
local, it speaks of one entry `v ↦ u` at a time.

* `falls` and `feeder`: the order in which nodes were first filled falls along every chain, because
  a node is filled after one of its predecessors and the node above it is on the chain of that one.
  Hence chains end (`Settling.rooted`), although positions need not fall along them.
* `below`: what guards all predecessors of `v` guards `u`. Hence the guards of a node are records of
  its chain (`Settling.records_of_guards`).
* `onPaths`: `u` is on all paths from smaller positions to the predecessors of `v`, as long as they
  visit at most `level v` nodes. Hence records are on all short paths (`Settling.mem_of_records`).

After as many passes as there are nodes the table is full (`Schedule.tables_full`), and from then on
every pass raises the level by one (`Schedule.tables_level`). A path that repeats no node is short,
so after as many passes again the entries are determined by the guards alone
(`Settled.at?_spec`), and a further pass finds them as they are (`Settled.pass_eq`).
-/

namespace FlowGauge

open DominatorTable

/-! ### The order of filling -/

/-- The list with one more node at its end, unless it is in it. -/
def fill (filled : List Nat) (v : Nat) : List Nat :=
  if v ∈ filled then filled else filled ++ [v]

section Fill

variable {filled : List Nat} {p v w : Nat}

/-- A node that is filled again keeps its place. -/
theorem mem_fill_iff : w ∈ fill filled v ↔ w = v ∨ w ∈ filled := by
  unfold fill
  split
  · next hv => exact ⟨Or.inr, fun h ↦ h.elim (fun heq ↦ heq ▸ hv) id⟩
  · simp [or_comm]

theorem fill_nodup (h : filled.Nodup) : (fill filled v).Nodup := by
  unfold fill
  split
  · exact h
  · next hv => exact h.append (List.nodup_singleton v) (List.disjoint_singleton.2 hv)

/-- Filling a node does not move those that were filled before. -/
theorem idxOf_fill (hw : w ∈ filled) : (fill filled v).idxOf w = filled.idxOf w := by
  unfold fill
  split
  · rfl
  · exact List.idxOf_append_of_mem hw

/-- A node is filled after a predecessor that it was filled from. -/
theorem idxOf_fill_lt (hp : p ∈ filled)
    (h : v ∈ filled → filled.idxOf p < filled.idxOf v) :
    (fill filled v).idxOf p < (fill filled v).idxOf v := by
  unfold fill
  split
  · next hv => exact h hv
  · next hv => exact (idxOf_snoc_lt_iff hv).2 hp

end Fill

namespace DominatorTable

variable {s : Schedule} {filled : List Nat} {level : Nat → Nat} {table : DominatorTable}

/-! ### The invariant -/

/-- What holds of a table between any two steps of the passes. The nodes with an entry are listed in
the order in which they got their first one. -/
structure Settling (s : Schedule) (filled : List Nat) (level : Nat → Nat)
    (table : DominatorTable) : Prop where
  size_eq : table.size = s.graph.size
  root : table.at? s.entry = some s.entry
  nodup : filled.Nodup
  mem_filled_iff : ∀ v, v ∈ filled ↔ table.Filled v
  fed : ∀ v, table.Filled v → s.Fed v
  /-- A node was filled after the node above it. -/
  falls : ∀ v u, table.at? v = some u → v ≠ s.entry →
    table.Filled u ∧ filled.idxOf u < filled.idxOf v
  /-- A node was filled after one of its predecessors. -/
  feeder : ∀ v, table.Filled v → v ≠ s.entry →
    ∃ p, s.feeding.Edge p v ∧ table.Filled p ∧ filled.idxOf p < filled.idxOf v
  /-- What guards all predecessors of a node guards the node above it. -/
  below : ∀ v u, table.at? v = some u → v ≠ s.entry → ∀ d,
    (∀ p, s.Fed p → s.feeding.Edge p v → s.Guards d p) → s.Guards d u
  /-- The node above another one is on all short paths to the predecessors of that one. -/
  onPaths : ∀ v u, table.at? v = some u → v ≠ s.entry → ∀ x p π, s.Fed x → s.rank x < s.rank u →
    s.feeding.Path x p π → s.feeding.Edge p v → π.length ≤ level v → u ∈ π

/-- All nodes that ever get an entry have one. -/
def Full (s : Schedule) (table : DominatorTable) : Prop :=
  ∀ v, s.Fed v → table.Filled v

namespace Settling

/-- **Chains end in every table of a run.** The order in which nodes were first filled falls along
them. -/
theorem rooted (h : table.Settling s filled level) :
    table.Rooted s.numbering s.entry filled.idxOf where
  root := h.root
  position_root := s.position_entry
  position_inj v w hv hw heq := (h.fed v hv).rank_inj (h.fed w hw) heq
  falls := h.falls
  height_lt v hv := by
    have hlt : ∀ w ∈ filled, w < s.graph.size := fun w hw ↦
      (h.fed w ((h.mem_filled_iff w).1 hw)).lt_size
    have hlen := length_le_of_nodup h.nodup hlt
    rw [h.size_eq]
    exact Nat.lt_of_lt_of_le (List.idxOf_lt_length_iff.2 ((h.mem_filled_iff v).2 hv)) hlen

/-- What is known of longer paths holds of shorter ones. -/
theorem of_level (h : table.Settling s filled level) {level' : Nat → Nat}
    (hle : ∀ v, table.Filled v → v ≠ s.entry → level' v ≤ level v) :
    table.Settling s filled level' :=
  { h with
    onPaths := fun v u hat hne x p π hx hlt hπ hedge hlen ↦ h.onPaths v u hat hne x p π hx hlt hπ
      hedge (Nat.le_trans hlen (hle v (filled_of_at? hat) hne)) }

/-- **What guards a node is a record of its chain**, by induction on the chain. -/
theorem records_of_guards (h : table.Settling s filled level) {v d : Nat} (hv : table.Filled v)
    (hd : s.Guards d v) : table.Records s.numbering v d := by
  -- Positions may rise on the way up, but every node was filled after the one above it.
  induction hn : filled.idxOf v using Nat.strongRecOn generalizing v with
  | ind n ih =>
    by_cases hdv : d = v
    · rw [hdv]
      exact .refl hv
    · have hne : v ≠ s.entry := by
        rintro rfl
        exact hdv hd.eq_entry
      obtain ⟨u, hat, huv, hu, hlt⟩ := h.rooted.exists_up hv hne
      have hdu : s.Guards d u := h.below v u hat hne d fun p hp hedge ↦ hd.of_edge hdv hp hedge
      exact .up hat huv (hd.rank_lt hdv) (ih _ (hn ▸ hlt) hu hdu rfl)

/-- **A record of the chain of a node is on all short paths to the node.** -/
theorem mem_of_records (h : table.Settling s filled level) {k : Nat} (hk : ∀ w, k ≤ level w)
    {v x : Nat} (hx : table.Records s.numbering v x) :
    ∀ y π, s.Fed y → s.rank y < s.rank x → s.feeding.Path y v π → π.length ≤ k + 1 → x ∈ π := by
  induction hx with
  | refl _ => exact fun y π _ _ hπ _ ↦ hπ.target_mem
  | @up v u x hat huv hxv hux ih =>
    intro y π hy hyx hπ hlen
    cases hπ with
    | single _ => exact absurd hyx (Nat.lt_asymm hxv)
    | @snoc p _ π hπ hedge =>
      rw [List.length_append, List.length_singleton] at hlen
      have hne : v ≠ s.entry := h.rooted.ne_entry_of_at? hat huv
      have hyu : s.rank y < s.rank u := Nat.lt_of_lt_of_le hyx hux.position_le
      -- The path passes `u`, and up to there it is a short path to `u`.
      have hu : u ∈ π := h.onPaths v u hat hne y p π hy hyu hπ hedge
        (Nat.le_trans (Nat.le_of_succ_le_succ hlen) (hk v))
      obtain ⟨ρ, hρ, hpre⟩ := hπ.exists_upTo hu
      have hρlen := hpre.length_le
      exact List.mem_append_left _ (hpre.subset (ih y ρ hy hyx hρ (by omega)))

/-- What guards a node and is a record further up guards the records between the two. -/
theorem guards_of_records (h : table.Settling s filled level) {v m d : Nat}
    (hm : table.Records s.numbering v m) (hd : s.Guards d v)
    (hmd : table.Records s.numbering m d) : s.Guards d m := by
  induction hm with
  | refl _ => exact hd
  | @up v u m hat huv hmv _ ih =>
    have hdv : d ≠ v := by
      rintro rfl
      exact absurd hmd.position_le (Nat.not_le_of_lt hmv)
    have hne : v ≠ s.entry := h.rooted.ne_entry_of_at? hat huv
    exact ih (h.below v u hat hne d fun p hp hedge ↦ hd.of_edge hdv hp hedge) hmd

/-! ### One node -/

/-- The predecessors from which a node can be recomputed. -/
theorem edge_of_mem (h : table.Settling s filled level) {p v : Nat} (hv : v ∈ s.order)
    (hp : p ∈ s.graph.predecessors v) (hfilled : table.Filled p) : s.feeding.Edge p v :=
  Schedule.edge_iff.2 ⟨(h.fed p hfilled).lt_size, hv, hp⟩

/-- Some predecessor of a recomputed node was filled before it. -/
theorem exists_feeder (h : table.Settling s filled level) {v : Nat} (hv : v ∈ s.order)
    (hex : ∃ p ∈ s.graph.predecessors v, table.Filled p) :
    ∃ p, s.feeding.Edge p v ∧ table.Filled p ∧
      (fill filled v).idxOf p < (fill filled v).idxOf v := by
  by_cases hmem : v ∈ filled
  · have hne : v ≠ s.entry := fun heq ↦ s.entry_not_mem (heq ▸ hv)
    obtain ⟨p, hedge, hp, hlt⟩ := h.feeder v ((h.mem_filled_iff v).1 hmem) hne
    exact ⟨p, hedge, hp, idxOf_fill_lt ((h.mem_filled_iff p).2 hp) fun _ ↦ hlt⟩
  · obtain ⟨p, hmem', hp⟩ := hex
    exact ⟨p, h.edge_of_mem hv hmem' hp, hp,
      idxOf_fill_lt ((h.mem_filled_iff p).2 hp) fun hv' ↦ absurd hv' hmem⟩

/-- **A node gets the lowest common record of its filled predecessors.** Only the entry of that node
has to be looked at. -/
theorem set (h : table.Settling s filled level) {v m t : Nat} (hv : v ∈ s.order)
    (hmeet : table.IsMeet s.numbering (s.graph.predecessors v) m)
    (ht : ∀ w, t ≤ level w + 1) (hfull : 1 ≤ t → table.Full s) :
    Settling s (fill filled v) (fun w ↦ if w = v then t else level w)
      (table.setIfInBounds v (some m)) := by
  obtain ⟨p, hpv, hp, hfall⟩ := h.exists_feeder hv hmeet.exists_filled
  have hmem : ∀ {q : Nat}, s.feeding.Edge q v → q ∈ s.graph.predecessors v := fun hq ↦
    (Schedule.edge_iff.1 hq).2.2
  have hpm : table.Records s.numbering p m := hmeet.common (hmem hpv) hp
  have hne : v ≠ s.entry := fun heq ↦ s.entry_not_mem (heq ▸ hv)
  have hat := at?_setIfInBounds table (h.size_eq.symm ▸ s.lt_size v hv) m
  have hfilled : ∀ w, Filled (table.setIfInBounds v (some m)) w ↔ w = v ∨ table.Filled w := by
    intro w
    rw [Filled, hat w]
    by_cases hw : w = v <;> simp [hw, Filled]
  have hidx : ∀ {w : Nat}, table.Filled w → (fill filled v).idxOf w = filled.idxOf w := fun hw ↦
    idxOf_fill ((h.mem_filled_iff _).2 hw)
  refine
    { size_eq := Array.size_setIfInBounds.trans h.size_eq
      root := by rw [hat, if_neg (Ne.symm hne), h.root]
      nodup := fill_nodup h.nodup
      mem_filled_iff := fun w ↦ by rw [mem_fill_iff, hfilled, h.mem_filled_iff]
      fed := ?fed
      falls := ?falls
      feeder := ?feeder
      below := ?below
      onPaths := ?onPaths }
  case fed =>
    intro w hw
    rcases (hfilled w).1 hw with rfl | hw
    · exact (h.fed p hp).step hpv
    · exact h.fed w hw
  case falls =>
    intro w u hwu hw
    rw [hat] at hwu
    split at hwu
    · next heq =>
      obtain rfl := Option.some.inj hwu
      have hle := h.rooted.height_le_of_climbs hpm.climbs
      refine ⟨(hfilled m).2 (Or.inr hmeet.filled), ?_⟩
      rw [heq]
      rw [hidx hp] at hfall
      rw [hidx hmeet.filled]
      exact Nat.lt_of_le_of_lt hle hfall
    · obtain ⟨hu, hlt⟩ := h.falls w u hwu hw
      refine ⟨(hfilled u).2 (Or.inr hu), ?_⟩
      rwa [hidx hu, hidx (filled_of_at? hwu)]
  case feeder =>
    intro w hw hwne
    by_cases hwv : w = v
    · rw [hwv]
      exact ⟨p, hpv, (hfilled p).2 (Or.inr hp), hfall⟩
    · have hw' := ((hfilled w).1 hw).resolve_left hwv
      obtain ⟨q, hedge, hq, hlt⟩ := h.feeder w hw' hwne
      exact ⟨q, hedge, (hfilled q).2 (Or.inr hq), by rwa [hidx hq, hidx hw']⟩
  case below =>
    intro w u hwu hw d hd
    rw [hat] at hwu
    split at hwu
    · next heq =>
      obtain rfl := Option.some.inj hwu
      rw [heq] at hd
      -- A guard of all predecessors is a record of their chains, so it is a record above `m`.
      refine h.guards_of_records hpm (hd p (h.fed p hp) hpv) ((hmeet.records_iff d).2 ?_)
      exact fun q hq hq' ↦ h.records_of_guards hq' (hd q (h.fed q hq') (h.edge_of_mem hv hq hq'))
    · exact h.below w u hwu hw d hd
  case onPaths =>
    intro w u hwu hw x q π hx hlt hπ hedge hlen
    rw [hat] at hwu
    split at hwu
    · next heq =>
      obtain rfl := Option.some.inj hwu
      subst heq
      rw [if_pos rfl] at hlen
      have hpos := hπ.length_pos
      have hq : table.Filled q := hfull (by omega) q (hx.trans hπ.reaches)
      refine h.mem_of_records (k := t - 1) (fun w ↦ ?_) (hmeet.common (hmem hedge) hq) x π hx hlt
        hπ (by omega)
      have := ht w
      omega
    · next hwv =>
      rw [if_neg hwv] at hlen
      exact h.onPaths w u hwu hw x q π hx hlt hπ hedge hlen

/-- **Recomputing one node keeps the invariant**, fills the node as soon as a predecessor is filled,
and may raise its level above that of the other nodes. -/
theorem refine (h : table.Settling s filled level) {v t : Nat} (hv : v ∈ s.order)
    (ht : ∀ w, t ≤ level w + 1) (hfull : 1 ≤ t → table.Full s) :
    ∃ filled', Settling s filled' (fun w ↦ if w = v then t else level w)
        (DominatorTable.refine s.graph s.numbering table v) ∧
      (∀ w, table.Filled w → Filled (DominatorTable.refine s.graph s.numbering table v) w) ∧
      ∀ p, s.feeding.Edge p v → table.Filled p →
        Filled (DominatorTable.refine s.graph s.numbering table v) v := by
  have hmeets := h.rooted.meets_meetAll (s.graph.predecessors v)
  unfold DominatorTable.refine
  generalize table.meetAll s.numbering (s.graph.predecessors v) = found at hmeets ⊢
  rcases found with - | m
  · -- No predecessor is filled, so the node is not filled either.
    have hnot : ∀ p, s.feeding.Edge p v → ¬table.Filled p := fun p hp ↦
      hmeets p (Schedule.edge_iff.1 hp).2.2
    refine ⟨filled, h.of_level fun w hw hne ↦ ?_, fun w hw ↦ hw, fun p hp hp' ↦
      absurd hp' (hnot p hp)⟩
    split
    · next heq =>
      obtain ⟨p, hedge, hp, -⟩ := h.feeder w hw hne
      exact absurd hp (hnot p (heq ▸ hedge))
    · exact Nat.le_refl _
  · have hset := h.set hv hmeets ht hfull
    have hmono : ∀ w, w = v ∨ table.Filled w → Filled (table.setIfInBounds v (some m)) w := by
      intro w hw
      rw [← hset.mem_filled_iff, mem_fill_iff, h.mem_filled_iff]
      exact hw
    exact ⟨_, hset, fun w hw ↦ hmono w (Or.inr hw), fun _ _ _ ↦ hmono v (Or.inl rfl)⟩

/-! ### One pass -/

/-- **Recomputing some nodes one after the other keeps the invariant**, by induction on their list.
-/
theorem pass {t : Nat} (nodes : List Nat) :
    ∀ {filled : List Nat} {level : Nat → Nat} {table : DominatorTable},
      table.Settling s filled level → nodes ⊆ s.order → (∀ w, t ≤ level w + 1) →
      (1 ≤ t → table.Full s) →
      ∃ filled', Settling s filled' (fun w ↦ if w ∈ nodes then t else level w)
          (table.pass s.graph s.numbering nodes) ∧
        (∀ w, table.Filled w → Filled (table.pass s.graph s.numbering nodes) w) ∧
        ∀ v ∈ nodes, ∀ p, s.feeding.Edge p v → table.Filled p →
          Filled (table.pass s.graph s.numbering nodes) v := by
  induction nodes with
  | nil =>
    intro filled level table h _ _ _
    exact ⟨filled, h.of_level fun _ _ _ ↦ Nat.le_refl _, fun w hw ↦ hw,
      fun v hv ↦ absurd hv List.not_mem_nil⟩
  | cons v nodes ih =>
    intro filled level table h hsub ht hfull
    obtain ⟨hv, hsub⟩ := List.cons_subset.1 hsub
    obtain ⟨filled₁, h₁, hmono, hfill⟩ := h.refine hv ht hfull
    obtain ⟨filled₂, h₂, hmono', hfill'⟩ := ih h₁ hsub (fun w ↦ by have := ht w; split <;> omega)
      fun hpos w hw ↦ hmono w (hfull hpos w hw)
    have hlevel : (fun w ↦ if w ∈ nodes then t else if w = v then t else level w) =
        fun w ↦ if w ∈ v :: nodes then t else level w := by
      funext w
      by_cases hw : w = v <;> simp [hw]
    refine ⟨filled₂, hlevel ▸ h₂, fun w hw ↦ hmono' w (hmono w hw), fun w hw p hedge hp ↦ ?_⟩
    rcases List.mem_cons.1 hw with rfl | hw
    · exact hmono' w (hfill p hedge hp)
    · exact hfill' w hw p hedge (hmono p hp)

/-- **A pass raises all levels by one**, as soon as the table is full. -/
theorem pass_order (h : table.Settling s filled level) {t : Nat} (ht : ∀ w, t ≤ level w + 1)
    (hfull : 1 ≤ t → table.Full s) : ∃ filled', Settling s filled' (fun _ ↦ t)
        (table.pass s.graph s.numbering s.order) := by
  obtain ⟨filled', h', -, -⟩ := h.pass s.order (List.Subset.refl _) ht hfull
  refine ⟨filled', h'.of_level fun w hw hne ↦ ?_⟩
  rw [if_pos ((List.mem_cons.1 (h'.fed w hw).mem).resolve_left hne)]

end Settling

/-! ### Settled tables -/

/-- A table that further passes do not change. -/
structure Settled (s : Schedule) (table : DominatorTable) : Prop where
  settling : ∃ filled, table.Settling s filled fun _ ↦ s.graph.size
  full : table.Full s

namespace Settled

/-- **The node above another one is the lowest of the nodes that guard all predecessors.** Cycles
can be left out of a path, and then it is short. -/
theorem at?_spec (h : table.Settled s) {v u : Nat} (hat : table.at? v = some u)
    (hne : v ≠ s.entry) : (∀ p, s.Fed p → s.feeding.Edge p v → s.Guards u p) ∧
      ∀ d, (∀ p, s.Fed p → s.feeding.Edge p v → s.Guards d p) → s.Guards d u := by
  obtain ⟨filled, hsettling⟩ := h.settling
  refine ⟨fun p hp hedge ↦ ?_, hsettling.below v u hat hne⟩
  refine ⟨hsettling.fed u (hsettling.falls v u hat hne).1, hp, fun x π hx hlt hπ ↦ ?_⟩
  obtain ⟨ρ, hρ, hnodup, hsub⟩ := hπ.exists_nodup
  exact hsub (hsettling.onPaths v u hat hne x p ρ hx hlt hρ hedge (hρ.length_le_size hnodup))

/-- In the limit exactly the fed nodes have an entry. -/
theorem filled_iff (h : table.Settled s) {v : Nat} : table.Filled v ↔ s.Fed v := by
  obtain ⟨filled, hsettling⟩ := h.settling
  exact ⟨hsettling.fed v, h.full v⟩

/-- **There is one limit.** Two settled tables have the same entries. -/
theorem at?_eq (h : table.Settled s) {table' : DominatorTable} (h' : table'.Settled s) (v : Nat) :
    table.at? v = table'.at? v := by
  by_cases hv : s.Fed v
  · obtain ⟨u, hu⟩ := (h.full v hv).exists_at?
    obtain ⟨u', hu'⟩ := (h'.full v hv).exists_at?
    by_cases hne : v = s.entry
    · obtain ⟨_, hsettling⟩ := h.settling
      obtain ⟨_, hsettling'⟩ := h'.settling
      rw [hne, hsettling.root, hsettling'.root]
    · obtain ⟨hguards, hlow⟩ := h.at?_spec hu hne
      obtain ⟨hguards', hlow'⟩ := h'.at?_spec hu' hne
      rw [hu, hu', (hlow' u hguards).antisymm (hlow u' hguards')]
  · have hnone : ∀ {t : DominatorTable}, t.Settled s → t.at? v = none := fun ht ↦
      Option.not_isSome_iff_eq_none.1 fun hs ↦ hv (ht.filled_iff.1 hs)
    rw [hnone h, hnone h']

/-- There is only one settled table. -/
theorem eq (h : table.Settled s) {table' : DominatorTable} (h' : table'.Settled s) :
    table = table' := by
  obtain ⟨_, hsettling⟩ := h.settling
  obtain ⟨_, hsettling'⟩ := h'.settling
  refine Array.ext (hsettling.size_eq.trans hsettling'.size_eq.symm) fun v hv hv' ↦ ?_
  have := h.at?_eq h' v
  rw [at?, at?, Array.getElem?_eq_getElem hv, Array.getElem?_eq_getElem hv'] at this
  simpa using this

/-- **A pass does not change a settled table.** -/
theorem pass_eq (h : table.Settled s) : table.pass s.graph s.numbering s.order = table := by
  obtain ⟨filled, hsettling⟩ := h.settling
  have hstep : ∀ w : Nat, s.graph.size ≤ s.graph.size + 1 := fun _ ↦ Nat.le_succ _
  obtain ⟨_, -, hmono, -⟩ := hsettling.pass s.order (List.Subset.refl _) hstep fun _ ↦ h.full
  exact Settled.eq ⟨hsettling.pass_order hstep fun _ ↦ h.full, fun v hv ↦ hmono v (h.full v hv)⟩ h

end Settled

/-- The table that repeated passes end with, and whether a pass changes it. -/
theorem exists_settle_eq (g : Graph) (numbering : Array (Option Nat)) (order : List Nat)
    (bound : Nat) : ∀ table : DominatorTable, ∃ k ≤ bound,
      settle g numbering order bound table = (DominatorTable.pass g numbering order)^[k] table ∧
        (k < bound → DominatorTable.pass g numbering order
          ((DominatorTable.pass g numbering order)^[k] table) =
            (DominatorTable.pass g numbering order)^[k] table) := by
  induction bound with
  | zero => exact fun table ↦ ⟨0, Nat.le_refl 0, rfl, fun h ↦ absurd h (Nat.lt_irrefl 0)⟩
  | succ bound ih =>
    intro table
    rw [settle]
    split
    · next heq => exact ⟨0, Nat.zero_le _, rfl, fun _ ↦ heq⟩
    · obtain ⟨k, hk, heq, hfixed⟩ := ih (table.pass g numbering order)
      exact ⟨k + 1, Nat.succ_le_succ hk, heq, fun hlt ↦ hfixed (Nat.lt_of_succ_lt_succ hlt)⟩

end DominatorTable

namespace Schedule

variable {s : Schedule}

/-! ### All passes -/

/-- The table before the first pass: only the entry has an entry. -/
def initial (s : Schedule) : DominatorTable :=
  (Array.replicate s.graph.size none).setIfInBounds s.entry (some s.entry)

/-- The table after some passes. -/
def tables (s : Schedule) (k : Nat) : DominatorTable :=
  (DominatorTable.pass s.graph s.numbering s.order)^[k] s.initial

theorem tables_succ (s : Schedule) (k : Nat) :
    s.tables (k + 1) = (s.tables k).pass s.graph s.numbering s.order :=
  Function.iterate_succ_apply' ..

/-- The first table settles: it holds the entry alone. -/
theorem initial_settling (s : Schedule) :
    Settling s [s.entry] (fun _ ↦ 0) s.initial := by
  have hat : ∀ w, s.initial.at? w = if w = s.entry then some s.entry else none := by
    intro w
    rw [initial, at?_setIfInBounds _ (by simpa using s.entry_lt_size)]
    by_cases hw : w = s.entry
    · rw [if_pos hw, if_pos hw]
    · rw [if_neg hw, if_neg hw, DominatorTable.at?, Array.getElem?_replicate]
      split <;> rfl
  have hfilled : ∀ w, s.initial.Filled w ↔ w = s.entry := by
    intro w
    rw [Filled, hat]
    split <;> simp_all
  have hnone : ∀ {v u : Nat} {P : Prop}, s.initial.at? v = some u → v ≠ s.entry → P :=
    fun hvu hne ↦ absurd ((hfilled _).1 (filled_of_at? hvu)) hne
  exact
    { size_eq := by simp [initial]
      root := by rw [hat, if_pos rfl]
      nodup := List.nodup_singleton _
      mem_filled_iff := fun v ↦ by rw [List.mem_singleton, hfilled]
      fed := fun v hv ↦ (hfilled v).1 hv ▸ s.fed_entry
      falls := fun v u hvu hne ↦ hnone hvu hne
      feeder := fun v hv hne ↦ absurd ((hfilled v).1 hv) hne
      below := fun v u hvu hne ↦ hnone hvu hne
      onPaths := fun v u hvu hne ↦ hnone hvu hne }

/-- **Every pass fills the nodes one step further away from the entry.** -/
theorem tables_filled (s : Schedule) (k : Nat) :
    (∃ filled, Settling s filled (fun _ ↦ 0) (s.tables k)) ∧
      ∀ v π, s.feeding.Path s.entry v π → π.length ≤ k + 1 → (s.tables k).Filled v := by
  induction k with
  | zero =>
    refine ⟨⟨_, s.initial_settling⟩, fun v π hπ hlen ↦ ?_⟩
    cases hπ with
    | single _ => exact filled_of_at? s.initial_settling.root
    | snoc hπ _ =>
      have := hπ.length_pos
      simp only [List.length_append, List.length_singleton] at hlen
      omega
  | succ k ih =>
    obtain ⟨⟨filled, h⟩, hfilled⟩ := ih
    have ht : ∀ w : Nat, 0 ≤ 0 + 1 := fun _ ↦ Nat.zero_le _
    obtain ⟨filled', h', hmono, hfill⟩ := h.pass s.order (List.Subset.refl _) ht
      fun h ↦ absurd h (by omega)
    rw [tables_succ]
    refine ⟨⟨filled', h'.of_level fun _ _ _ ↦ Nat.zero_le _⟩, fun v π hπ hlen ↦ ?_⟩
    cases hπ with
    | single _ => exact filled_of_at? h'.root
    | snoc hπ hedge =>
      rw [List.length_append, List.length_singleton] at hlen
      exact hfill v (edge_iff.1 hedge).2.1 _ hedge (hfilled _ _ hπ (by omega))

/-- After as many passes as there are nodes every fed node has an entry. -/
theorem tables_full (s : Schedule) : (s.tables s.graph.size).Full s := by
  intro v hv
  obtain ⟨π, hπ⟩ := Graph.reaches_iff_exists_path.1 hv
  obtain ⟨ρ, hρ, hnodup, -⟩ := hπ.exists_nodup
  exact (s.tables_filled s.graph.size).2 v ρ hρ (Nat.le_succ_of_le (hρ.length_le_size hnodup))

/-- **Once the table is full, every pass raises the levels by one.** -/
theorem tables_level (s : Schedule) (k : Nat) :
    (∃ filled, Settling s filled (fun _ ↦ k) (s.tables (s.graph.size + k))) ∧
      (s.tables (s.graph.size + k)).Full s := by
  induction k with
  | zero => exact ⟨(s.tables_filled _).1, s.tables_full⟩
  | succ k ih =>
    obtain ⟨⟨filled, h⟩, hfull⟩ := ih
    have ht : ∀ w : Nat, k + 1 ≤ k + 1 := fun _ ↦ Nat.le_refl _
    obtain ⟨_, -, hmono, -⟩ := h.pass s.order (List.Subset.refl _) ht fun _ ↦ hfull
    rw [← Nat.add_assoc, tables_succ]
    exact ⟨h.pass_order ht fun _ ↦ hfull, fun v hv ↦ hmono v (hfull v hv)⟩

/-- **The passes have settled when there were twice as many as nodes.** -/
theorem tables_settled (s : Schedule) : (s.tables (s.graph.size + s.graph.size)).Settled s :=
  ⟨(s.tables_level s.graph.size).1, (s.tables_level s.graph.size).2⟩

theorem tables_add (s : Schedule) (k n : Nat) : s.tables (k + n) =
    (DominatorTable.pass s.graph s.numbering s.order)^[n] (s.tables k) := by
  rw [tables, tables, Nat.add_comm, Function.iterate_add_apply]

/-- Passes that go on until one changes nothing end at the settled table. -/
theorem tables_eq_of_fixed {k : Nat} (h : s.graph.size + s.graph.size ≤ k ∨
    (s.tables k).pass s.graph s.numbering s.order = s.tables k) :
    s.tables k = s.tables (s.graph.size + s.graph.size) := by
  rcases Nat.le_total (s.graph.size + s.graph.size) k with hle | hle
  · obtain ⟨n, rfl⟩ := Nat.exists_eq_add_of_le hle
    rw [tables_add, Function.iterate_fixed s.tables_settled.pass_eq]
  · obtain ⟨n, hn⟩ := Nat.exists_eq_add_of_le hle
    rcases h with hge | hfixed
    · rw [Nat.le_antisymm hle hge]
    · -- A table that a pass leaves as it is stays until the passes have settled.
      rw [hn, tables_add, Function.iterate_fixed hfixed]

end Schedule

namespace Dominators

variable {g : Graph} {entry : Nat}

/-! ### The computed table -/

/-- The table of immediate dominators after some passes. -/
def passes (g : Graph) (entry k : Nat) : DominatorTable :=
  (DominatorTable.pass g (g.numbering entry).toArray ((g.reversePostorder entry).drop 1))^[k]
    ((Array.replicate g.size none).setIfInBounds entry (some entry))

/-- The bound of the loop leaves room for two rounds of as many passes as there are nodes. -/
theorem two_mul_le_pow {n : Nat} (hn : 0 < n) : n + n ≤ Nat.pow (n + 1) n := by
  rcases Nat.lt_or_ge n 2 with hlt | hge
  · obtain rfl : n = 1 := by omega
    decide
  · calc n + n ≤ (n + 1) ^ 2 := by nlinarith
      _ ≤ (n + 1) ^ n := Nat.pow_le_pow_right (by omega) hge

/-- **The computation ends with a pass that changes nothing.** -/
theorem exists_compute_eq_passes (he : entry < g.size) : ∃ k,
    (compute g entry).table = passes g entry k ∧
      passes g entry k = passes g entry (g.size + g.size) := by
  obtain ⟨k, hk, heq, hfixed⟩ := exists_settle_eq g (g.numbering entry).toArray
    ((g.reversePostorder entry).drop 1) (Nat.pow (g.size + 1) g.size)
    ((Array.replicate g.size none).setIfInBounds entry (some entry))
  have hbound : g.size + g.size ≤ Nat.pow (g.size + 1) g.size := two_mul_le_pow (by omega)
  refine ⟨k, by rw [compute, if_pos he, heq, passes], ?_⟩
  refine (g.schedule he).tables_eq_of_fixed ?_
  -- Either some pass changed nothing, or there were as many passes as the bound allows.
  rcases Nat.lt_or_ge k (Nat.pow (g.size + 1) g.size) with hlt | hge
  · exact Or.inr (hfixed hlt)
  · exact Or.inl (Nat.le_trans hbound hge)

/-- **The loop ends with the limit**, on every graph. -/
theorem compute_settled (he : entry < g.size) :
    (compute g entry).table.Settled (g.schedule he) := by
  obtain ⟨k, heq, hsettled⟩ := exists_compute_eq_passes he
  rw [heq, hsettled]
  exact (g.schedule he).tables_settled

theorem compute_entry (g : Graph) (entry : Nat) : (compute g entry).entry = entry := by
  unfold compute
  split <;> rfl

theorem compute_rooted (he : entry < g.size) : ∃ height : Nat → Nat,
    (compute g entry).table.Rooted (g.numbering entry).toArray (compute g entry).entry height := by
  obtain ⟨filled, hsettling⟩ := (compute_settled he).settling
  rw [compute_entry]
  exact ⟨_, hsettling.rooted⟩

end Dominators

end FlowGauge
