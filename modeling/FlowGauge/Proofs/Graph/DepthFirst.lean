import FlowGauge.Graph.Traversal
import FlowGauge.Proofs.Graph.Path
import Mathlib.Logic.Relation

/-!
# The depth-first search

What `Graph.explore` records, said without the search. The nodes it finishes are exactly those that
the start reaches, each once, and everything else is a statement about the order of finishing:

* every node but the start has an edge from a node that is finished later (`exists_parent`);
* an edge is recorded as a back edge exactly when it does not lead to a node finished earlier
  (`mem_backEdges_iff`), and then its target reaches its source without going back to a dominator
  (`advances_of_rank_le`).

The order is read off through `Graph.rank`, the position in reverse postorder.

The search is a recursion inside a loop, so there are two invariants. `Trail.Sound` holds of the
trail between any two steps. `Trail.Visiting` holds while the successors of one node are followed;
its main point is that a recursive search leaves the set of open nodes as it was, so that a
successor seen open stays open until the node itself is finished.

## Depth as a bound

The recursion of `Graph.explore` is on a depth. It never runs out: below a node that has just been
entered at most as many nodes can be entered one inside the other as have not been entered at all.
The bound therefore is part of the induction (`Explores`), and no theorem about the whole search
mentions it.

Reducibility is stated without a search, as the absence of cycles among the edges that do not lead
to a dominator of their source. `reducible_iff` finds it in the back edges of one search, so that it
does not matter in which order the search takes the successors.
-/

namespace FlowGauge

/-! ### Positions in a growing list -/

/-- The relative order of two entries does not change when the list grows at its end, as soon as one
of them is in it. -/
theorem idxOf_append_lt_iff {l : List Nat} (tail : List Nat) {v w : Nat} (h : v ∈ l ∨ w ∈ l) :
    (l ++ tail).idxOf v < (l ++ tail).idxOf w ↔ l.idxOf v < l.idxOf w := by
  have hlt : ∀ x ∈ l, l.idxOf x < l.length := fun x hx ↦ List.idxOf_lt_length_iff.2 hx
  have hge : ∀ x, x ∉ l → l.idxOf x = l.length := fun x hx ↦ List.idxOf_eq_length hx
  rw [List.idxOf_append, List.idxOf_append]
  by_cases hv : v ∈ l <;> by_cases hw : w ∈ l <;> simp only [hv, hw, if_true, if_false]
  · have := hlt v hv
    have := hge w hw
    omega
  · have := hlt w hw
    have := hge v hv
    omega
  · exact absurd h (by simp [hv, hw])

/-- What is before the new last entry is what was in the list. -/
theorem idxOf_snoc_lt_iff {l : List Nat} {v w : Nat} (hw : w ∉ l) :
    (l ++ [w]).idxOf v < (l ++ [w]).idxOf w ↔ v ∈ l := by
  rw [List.idxOf_append, List.idxOf_append, if_neg hw, List.idxOf_cons_self, Nat.zero_add]
  by_cases hv : v ∈ l
  · simp [hv, List.idxOf_lt_length_iff.2 hv]
  · simp [hv]

/-- Positions in the reverse of a list without repetition are counted from the other end. -/
theorem idxOf_reverse_add_idxOf {l : List Nat} (hl : l.Nodup) {v : Nat} (hv : v ∈ l) :
    l.reverse.idxOf v + l.idxOf v + 1 = l.length := by
  induction l with
  | nil => exact absurd hv List.not_mem_nil
  | cons a l ih =>
    obtain ⟨ha, hl⟩ := List.nodup_cons.1 hl
    rw [List.reverse_cons, List.idxOf_append, List.length_cons]
    rcases List.mem_cons.1 hv with rfl | hv
    · simp [ha]
    · have hne : a ≠ v := fun h ↦ ha (h ▸ hv)
      have := ih hl hv
      rw [if_pos (List.mem_reverse.2 hv), List.idxOf_cons_ne l hne]
      omega

/-! ### The invariant of the trail -/

namespace Trail

/-- A node is open while it is entered and not yet finished. -/
def Open (t : Trail) (v : Nat) : Prop :=
  v ∈ t.entered ∧ v ∉ t.finished

/-- `v` is finished, and `w` is finished later or not yet. -/
def Before (t : Trail) (v w : Nat) : Prop :=
  t.finished.idxOf v < t.finished.idxOf w

/-- What holds of a trail between any two steps of the search from `start`. -/
structure Sound (g : Graph) (start : Nat) (t : Trail) : Prop where
  /-- No node is entered twice. -/
  entered_nodup : t.entered.Nodup
  /-- No node is finished twice. -/
  finished_nodup : t.finished.Nodup
  /-- Only entered nodes are finished. -/
  finished_subset : t.finished ⊆ t.entered
  /-- An entered node is reached through entered nodes. -/
  path : ∀ v ∈ t.entered, ∃ π, g.Path start v π ∧ π ⊆ t.entered
  /-- The successors of a finished node are entered. -/
  closed : ∀ w ∈ t.finished, ∀ v, g.Edge w v → v ∈ t.entered
  /-- The back edges of a finished node are its edges to nodes that were not finished before it. -/
  recorded : ∀ w ∈ t.finished, ∀ v, g.Edge w v → ((w, v) ∈ t.backEdges ↔ ¬t.Before v w)
  /-- A finished node other than the start was entered from a node that is finished later. -/
  parent : ∀ v ∈ t.finished, v ≠ start → ∃ u ∈ t.entered, g.Edge u v ∧ t.Before v u
  /-- A back edge is an edge from an entered node to a node from which the search came to it. -/
  back : ∀ u v, (u, v) ∈ t.backEdges → u ∈ t.entered ∧ g.Edge u v ∧
    Relation.ReflTransGen (g.Advances start) v u

/-- How a search below `u` changes the trail: it only adds, it closes all nodes that it opens, and
its back edges start at `u` or at a node that it opens. -/
structure Grows (u : Nat) (t t' : Trail) : Prop where
  entered : t.entered <+: t'.entered
  finished : t.finished <+: t'.finished
  kept : ∀ e ∈ t.backEdges, e ∈ t'.backEdges
  added : ∀ v w, (v, w) ∈ t'.backEdges → (v, w) ∈ t.backEdges ∨ v = u ∨ v ∉ t.entered
  open_iff : ∀ v, t'.Open v ↔ t.Open v

/-- What holds while the successors of `u` are followed, from the trail `t₀` in which `u` has just
been entered: those of `done` are entered, and the open ones among them are the targets of the back
edges of `u`. -/
structure Visiting (g : Graph) (start u : Nat) (t₀ : Trail) (done : List Nat) (t : Trail) :
    Prop where
  sound : t.Sound g start
  grows : t₀.Grows u t
  seen : ∀ v ∈ done, g.Edge u v → v ∈ t.entered ∧ (v ∉ t.finished → (u, v) ∈ t.backEdges)
  back_open : ∀ v, (u, v) ∈ t.backEdges → t.Open v

theorem Sound.reached {g : Graph} {start : Nat} {t : Trail} (h : t.Sound g start) (v : Nat)
    (hv : v ∈ t.entered) : g.Reaches start v := by
  obtain ⟨π, hπ, -⟩ := h.path v hv
  exact hπ.reaches

/-- An edge to a fresh node advances: the source is reached through entered nodes. -/
theorem Sound.advances {g : Graph} {start u v : Nat} {t : Trail} (h : t.Sound g start)
    (hu : u ∈ t.entered) (hedge : g.Edge u v) (hfresh : v ∉ t.entered) :
    g.Advances start u v := by
  obtain ⟨π, hπ, hsub⟩ := h.path u hu
  exact ⟨hπ.reaches, hedge, fun hdom ↦ hfresh (hsub (hdom.2 π hπ))⟩

theorem Sound.entered_length_lt {g : Graph} {start u : Nat} {t : Trail} (h : t.Sound g start)
    (hu : u < g.size) (hfresh : u ∉ t.entered) : t.entered.length < g.size := by
  have hnodup : (u :: t.entered).Nodup := List.nodup_cons.2 ⟨hfresh, h.entered_nodup⟩
  refine length_le_of_nodup hnodup fun v hv ↦ ?_
  rcases List.mem_cons.1 hv with rfl | hv
  · exact hu
  · exact (h.reached v hv).lt_size

theorem Grows.refl (u : Nat) (t : Trail) : t.Grows u t where
  entered := List.prefix_refl _
  finished := List.prefix_refl _
  kept _ he := he
  added _ _ h := Or.inl h
  open_iff _ := Iff.rfl

/-- Entering a node keeps the invariant. -/
theorem Sound.enter {g : Graph} {start u : Nat} {t : Trail} (h : t.Sound g start)
    (hu : ∃ π, g.Path start u π ∧ π ⊆ t.entered ++ [u]) (hfresh : u ∉ t.entered) :
    Sound g start { t with entered := t.entered ++ [u] } where
  entered_nodup :=
    h.entered_nodup.append (List.nodup_singleton u) (List.disjoint_singleton.2 hfresh)
  finished_nodup := h.finished_nodup
  finished_subset := List.Subset.trans h.finished_subset (List.subset_append_left _ _)
  path v hv := by
    rcases List.mem_append.1 hv with hv | hv
    · obtain ⟨π, hπ, hsub⟩ := h.path v hv
      exact ⟨π, hπ, List.Subset.trans hsub (List.subset_append_left _ _)⟩
    · rw [List.mem_singleton.1 hv]
      exact hu
  closed w hw v hedge := List.mem_append_left _ (h.closed w hw v hedge)
  recorded := h.recorded
  parent v hv hne := by
    obtain ⟨p, hp, hedge, hbefore⟩ := h.parent v hv hne
    exact ⟨p, List.mem_append_left _ hp, hedge, hbefore⟩
  back v w hvw := by
    obtain ⟨hv, hedge, hreach⟩ := h.back v w hvw
    exact ⟨List.mem_append_left _ hv, hedge, hreach⟩

/-- Right after a node is entered none of its successors has been followed. -/
theorem Visiting.init {g : Graph} {start u : Nat} {t : Trail} (h : t.Sound g start)
    (hu : ∃ π, g.Path start u π ∧ π ⊆ t.entered ++ [u]) (hfresh : u ∉ t.entered) :
    Visiting g start u { t with entered := t.entered ++ [u] } []
      { t with entered := t.entered ++ [u] } where
  sound := h.enter hu hfresh
  grows := .refl _ _
  seen _ hv := absurd hv List.not_mem_nil
  back_open v hv := absurd (h.back u v hv).1 hfresh

/-- Following a successor that does not change the trail: it does not exist or is finished. -/
theorem Visiting.skip {g : Graph} {start u v : Nat} {t₀ t : Trail} {done : List Nat}
    (h : Visiting g start u t₀ done t) (hv : g.Edge u v → v ∈ t.entered ∧ v ∈ t.finished) :
    Visiting g start u t₀ (done ++ [v]) t where
  sound := h.sound
  grows := h.grows
  seen w hw hedge := by
    rcases List.mem_append.1 hw with hw | hw
    · exact h.seen w hw hedge
    · rw [List.mem_singleton.1 hw] at hedge ⊢
      exact ⟨(hv hedge).1, fun hn ↦ absurd (hv hedge).2 hn⟩
  back_open := h.back_open

/-- Following a successor that is open: the edge is recorded. -/
theorem Visiting.record {g : Graph} {start u v : Nat} {t₀ t : Trail} {done : List Nat}
    (h : Visiting g start u t₀ done t) (hu : t.Open u) (hedge : g.Edge u v) (hv : t.Open v)
    (hreach : Relation.ReflTransGen (g.Advances start) v u) :
    Visiting g start u t₀ (done ++ [v]) { t with backEdges := t.backEdges ++ [(u, v)] } where
  sound :=
    { entered_nodup := h.sound.entered_nodup
      finished_nodup := h.sound.finished_nodup
      finished_subset := h.sound.finished_subset
      path := h.sound.path
      closed := h.sound.closed
      recorded := by
        intro w hw x hwx
        have hne : ¬(w, x) = (u, v) := fun heq ↦ hu.2 ((Prod.mk.inj heq).1 ▸ hw)
        have hmem : (w, x) ∈ t.backEdges ++ [(u, v)] ↔ (w, x) ∈ t.backEdges := by simp [hne]
        exact hmem.trans (h.sound.recorded w hw x hwx)
      parent := h.sound.parent
      back := by
        intro w x hwx
        rcases List.mem_append.1 hwx with hwx | hwx
        · exact h.sound.back w x hwx
        · obtain ⟨rfl, rfl⟩ := Prod.mk.inj (List.mem_singleton.1 hwx)
          exact ⟨hu.1, hedge, hreach⟩ }
  grows :=
    { entered := h.grows.entered
      finished := h.grows.finished
      kept := fun e he ↦ List.mem_append_left _ (h.grows.kept e he)
      added := by
        intro w x hwx
        rcases List.mem_append.1 hwx with hwx | hwx
        · exact h.grows.added w x hwx
        · exact Or.inr (Or.inl (Prod.mk.inj (List.mem_singleton.1 hwx)).1)
      open_iff := h.grows.open_iff }
  seen w hw hedge := by
    rcases List.mem_append.1 hw with hw | hw
    · exact (h.seen w hw hedge).imp_right fun hback hn ↦ List.mem_append_left _ (hback hn)
    · rw [List.mem_singleton.1 hw]
      exact ⟨hv.1, fun _ ↦ List.mem_append_right _ (List.mem_singleton_self _)⟩
  back_open w hw := by
    rcases List.mem_append.1 hw with hw | hw
    · exact h.back_open w hw
    · rw [(Prod.mk.inj (List.mem_singleton.1 hw)).2]
      exact hv

/-- Following a fresh successor: the search below it leaves the open nodes as they were. -/
theorem Visiting.descend {g : Graph} {start u v : Nat} {t₀ t t' : Trail} {done : List Nat}
    (h : Visiting g start u t₀ done t) (hu : t.Open u) (hfresh : v ∉ t.entered)
    (hsound : t'.Sound g start) (hgrows : t.Grows v t') (hv : v ∈ t'.finished) :
    Visiting g start u t₀ (done ++ [v]) t' := by
  -- The new back edges start at nodes that were not entered, so none of them starts at `u`.
  have hnew : ∀ x y, (x, y) ∈ t'.backEdges → (x, y) ∈ t.backEdges ∨ x ∉ t.entered := by
    intro x y hxy
    rcases hgrows.added x y hxy with hxy | rfl | hx
    · exact Or.inl hxy
    · exact Or.inr hfresh
    · exact Or.inr hx
  have hback : ∀ w, (u, w) ∈ t'.backEdges → (u, w) ∈ t.backEdges := fun w hw ↦
    (hnew u w hw).resolve_right (not_not_intro hu.1)
  refine ⟨hsound, ⟨?_, ?_, ?_, ?_, ?_⟩, ?_, ?_⟩
  · exact h.grows.entered.trans hgrows.entered
  · exact h.grows.finished.trans hgrows.finished
  · exact fun e he ↦ hgrows.kept e (h.grows.kept e he)
  · intro x y hxy
    rcases hnew x y hxy with hxy | hx
    · exact h.grows.added x y hxy
    · exact Or.inr (Or.inr fun hx₀ ↦ hx (h.grows.entered.subset hx₀))
  · exact fun w ↦ (hgrows.open_iff w).trans (h.grows.open_iff w)
  · intro w hw hedge
    rcases List.mem_append.1 hw with hw | hw
    · obtain ⟨hent, hopen⟩ := h.seen w hw hedge
      exact ⟨hgrows.entered.subset hent, fun hn ↦
        hgrows.kept _ (hopen fun hfin ↦ hn (hgrows.finished.subset hfin))⟩
    · rw [List.mem_singleton.1 hw]
      exact ⟨hsound.finished_subset hv, fun hn ↦ absurd hv hn⟩
  · exact fun w hw ↦ (hgrows.open_iff w).2 (h.back_open w (hback w hw))

/-- Finishing a node all of whose successors have been followed keeps the invariant. -/
theorem Visiting.finish_sound {g : Graph} {start u : Nat} {t₀ t : Trail}
    (h : Visiting g start u t₀ (g.successors u) t) (hu : t.Open u)
    (hparent : u ≠ start → ∃ p, p ≠ u ∧ t.Open p ∧ g.Edge p u) :
    Sound g start { t with finished := t.finished ++ [u] } where
  entered_nodup := h.sound.entered_nodup
  finished_nodup :=
    h.sound.finished_nodup.append (List.nodup_singleton u) (List.disjoint_singleton.2 hu.2)
  finished_subset := List.append_subset.2
    ⟨h.sound.finished_subset, List.cons_subset.2 ⟨hu.1, List.nil_subset _⟩⟩
  path := h.sound.path
  closed w hw v hedge := by
    rcases List.mem_append.1 hw with hw | hw
    · exact h.sound.closed w hw v hedge
    · rw [List.mem_singleton.1 hw] at hedge
      exact (h.seen v hedge.2.2 hedge).1
  recorded w hw v hedge := by
    rcases List.mem_append.1 hw with hw | hw
    · have hbefore := idxOf_append_lt_iff [u] (v := v) (Or.inr hw)
      exact (h.sound.recorded w hw v hedge).trans (not_congr hbefore.symm)
    · rw [List.mem_singleton.1 hw] at hedge ⊢
      have hbefore : Before { t with finished := t.finished ++ [u] } v u ↔ v ∈ t.finished :=
        idxOf_snoc_lt_iff hu.2
      rw [hbefore]
      exact ⟨fun hback ↦ (h.back_open v hback).2, (h.seen v hedge.2.2 hedge).2⟩
  parent v hv hne := by
    rcases List.mem_append.1 hv with hv | hv
    · obtain ⟨p, hp, hedge, hbefore⟩ := h.sound.parent v hv hne
      exact ⟨p, hp, hedge, (idxOf_append_lt_iff [u] (Or.inl hv)).2 hbefore⟩
    · rw [List.mem_singleton.1 hv] at hne ⊢
      obtain ⟨p, hpu, hp, hedge⟩ := hparent hne
      refine ⟨p, hp.1, hedge, ?_⟩
      have hnot : p ∉ t.finished ++ [u] := by simp [hp.2, hpu]
      have hmem : u ∈ t.finished ++ [u] := List.mem_append_right _ (List.mem_singleton_self u)
      show (t.finished ++ [u]).idxOf u < (t.finished ++ [u]).idxOf p
      rw [List.idxOf_eq_length hnot]
      exact List.idxOf_lt_length_iff.2 hmem
  back := h.sound.back

/-- Entering, following and finishing a node opens and closes the same nodes. -/
theorem Visiting.finish_grows {g : Graph} {start u : Nat} {t t' : Trail}
    (h : Visiting g start u { t with entered := t.entered ++ [u] } (g.successors u) t')
    (hfresh : u ∉ t.entered) :
    t.Grows u { t' with finished := t'.finished ++ [u] } where
  entered := (List.prefix_append _ _).trans h.grows.entered
  finished := h.grows.finished.trans (List.prefix_append _ _)
  kept := h.grows.kept
  added v w hvw := by
    rcases h.grows.added v w hvw with hvw | hv | hv
    · exact Or.inl hvw
    · exact Or.inr (Or.inl hv)
    · exact Or.inr (Or.inr fun hmem ↦ hv (List.mem_append_left _ hmem))
  open_iff v := by
    have hiff : t'.Open v ↔ v ∈ t.entered ++ [u] ∧ v ∉ t.finished := h.grows.open_iff v
    simp only [Open, List.mem_append, List.mem_singleton] at hiff ⊢
    constructor
    · rintro ⟨hent, hfin⟩
      obtain ⟨hent', hfin'⟩ := hiff.1 ⟨hent, fun hmem ↦ hfin (Or.inl hmem)⟩
      exact ⟨hent'.resolve_right fun heq ↦ hfin (Or.inr heq), hfin'⟩
    · rintro ⟨hent, hfin⟩
      obtain ⟨hent', hfin'⟩ := hiff.2 ⟨Or.inl hent, hfin⟩
      refine ⟨hent', ?_⟩
      rintro (hmem | rfl)
      · exact hfin' hmem
      · exact hfresh hent

end Trail

/-! ### The search keeps the invariant -/

namespace Graph

open Trail

variable {g : Graph} {start : Nat}

/-- What one edge of `u` does to the trail; `explore` follows the successors of `u` by it. -/
def follow (g : Graph) (depth u : Nat) (t : Trail) (v : Nat) : Trail :=
  if g.size ≤ v then t
  else if v ∈ t.entered then
    if v ∈ t.finished then t else { t with backEdges := t.backEdges ++ [(u, v)] }
  else g.explore depth v t

theorem explore_succ (g : Graph) (depth u : Nat) (t : Trail) :
    g.explore (depth + 1) u t =
      let inside := (g.successors u).foldl (g.follow depth u) { t with entered := t.entered ++ [u] }
      { inside with finished := inside.finished ++ [u] } :=
  rfl

/-- What the search below a fresh node achieves. -/
def Explores (g : Graph) (start depth : Nat) : Prop :=
  ∀ u t, t.Sound g start → g.Reaches start u → u ∉ t.entered →
    (u ≠ start → ∃ p, t.Open p ∧ g.Edge p u) →
    (∀ o, t.Open o → Relation.ReflTransGen (g.Advances start) o u) →
    g.size ≤ depth + t.entered.length →
    (g.explore depth u t).Sound g start ∧ t.Grows u (g.explore depth u t) ∧
      u ∈ (g.explore depth u t).finished

/-- Following one more successor. -/
theorem visiting_follow {depth u v : Nat} {t₀ t : Trail} {done : List Nat}
    (ih : g.Explores start depth) (h : Visiting g start u t₀ done t) (hu : t.Open u)
    (hopen : ∀ o, t.Open o → Relation.ReflTransGen (g.Advances start) o u)
    (hmem : v ∈ g.successors u)
    (hdepth : g.size ≤ depth + t.entered.length) :
    Visiting g start u t₀ (done ++ [v]) (g.follow depth u t v) := by
  have hreach : g.Reaches start u := h.sound.reached u hu.1
  unfold follow
  split
  · next hv => exact h.skip fun hedge ↦ absurd hedge.2.1 (by omega)
  · next hv =>
    have hedge : g.Edge u v := ⟨hreach.lt_size, by omega, hmem⟩
    split
    · next hent =>
      split
      · next hfin => exact h.skip fun _ ↦ ⟨hent, hfin⟩
      · next hfin => exact h.record hu hedge ⟨hent, hfin⟩ (hopen v ⟨hent, hfin⟩)
    · next hfresh =>
      obtain ⟨hsound, hgrows, hdone⟩ := ih v t h.sound (hreach.step hedge) hfresh
        (fun _ ↦ ⟨u, hu, hedge⟩)
        (fun o ho ↦ (hopen o ho).tail (h.sound.advances hu.1 hedge hfresh)) hdepth
      exact h.descend hu hfresh hsound hgrows hdone

/-- Following a list of successors, by induction on the list. -/
theorem visiting_foldl {depth u : Nat} {t₀ : Trail} (ih : g.Explores start depth)
    (hu : t₀.Open u) (hopen : ∀ o, t₀.Open o → Relation.ReflTransGen (g.Advances start) o u)
    (hdepth : g.size ≤ depth + t₀.entered.length) (rest : List Nat) :
    ∀ (done : List Nat) (t : Trail), Visiting g start u t₀ done t → rest ⊆ g.successors u →
      Visiting g start u t₀ (done ++ rest) (rest.foldl (g.follow depth u) t) := by
  induction rest with
  | nil =>
    intro done t h _
    rw [List.append_nil]
    exact h
  | cons v rest ihrest =>
    intro done t h hsub
    have hlen : t₀.entered.length ≤ t.entered.length := h.grows.entered.length_le
    have hstep := visiting_follow ih h ((h.grows.open_iff u).2 hu)
      (fun o ho ↦ hopen o ((h.grows.open_iff o).1 ho)) (hsub (List.mem_cons_self ..)) (by omega)
    have := ihrest (done ++ [v]) _ hstep fun w hw ↦ hsub (List.mem_cons_of_mem v hw)
    rwa [List.append_assoc] at this

/-- **The search below a fresh node**, by induction on the depth that is left. The depth cannot run
out: a fresh node means that not all nodes are entered. -/
theorem explores (g : Graph) (start depth : Nat) : g.Explores start depth := by
  induction depth with
  | zero =>
    intro u t hsound hu hfresh _ _ hdepth
    have := hsound.entered_length_lt hu.lt_size hfresh
    omega
  | succ depth ih =>
    intro u t hsound hu hfresh hparent hopen hdepth
    let t₀ : Trail := { t with entered := t.entered ++ [u] }
    have hpath : ∃ π, g.Path start u π ∧ π ⊆ t.entered ++ [u] := by
      by_cases hne : u = start
      · rw [hne]
        exact ⟨[start], .single hu.start_lt_size, List.subset_append_right _ _⟩
      · obtain ⟨p, hp, hedge⟩ := hparent hne
        obtain ⟨π, hπ, hsub⟩ := hsound.path p hp.1
        exact ⟨π ++ [u], hπ.snoc hedge, List.append_subset.2
          ⟨List.Subset.trans hsub (List.subset_append_left _ _), List.subset_append_right _ _⟩⟩
    have hu₀ : t₀.Open u := ⟨List.mem_append_right _ (List.mem_singleton_self u),
      fun hmem ↦ hfresh (hsound.finished_subset hmem)⟩
    have hopen₀ : ∀ o, t₀.Open o → Relation.ReflTransGen (g.Advances start) o u := by
      rintro o ⟨hent, hfin⟩
      rcases List.mem_append.1 hent with hent | hent
      · exact hopen o ⟨hent, hfin⟩
      · rw [List.mem_singleton.1 hent]
    have hdepth₀ : g.size ≤ depth + t₀.entered.length := by
      have : t₀.entered.length = t.entered.length + 1 := by simp [t₀]
      omega
    have hvisit := visiting_foldl ih hu₀ hopen₀ hdepth₀ (g.successors u) [] t₀
      (.init hsound hpath hfresh) (List.Subset.refl _)
    rw [List.nil_append] at hvisit
    have hparent' : u ≠ start → ∃ p, p ≠ u ∧
        ((g.successors u).foldl (g.follow depth u) t₀).Open p ∧ g.Edge p u := by
      intro hne
      obtain ⟨p, hp, hedge⟩ := hparent hne
      exact ⟨p, fun heq ↦ hfresh (heq ▸ hp.1),
        (hvisit.grows.open_iff p).2 ⟨List.mem_append_left _ hp.1, hp.2⟩, hedge⟩
    rw [explore_succ]
    exact ⟨hvisit.finish_sound ((hvisit.grows.open_iff u).2 hu₀) hparent',
      hvisit.finish_grows hfresh, List.mem_append_right _ (List.mem_singleton_self u)⟩

/-- The trail of a whole search: the invariant holds and no node is left open. -/
theorem trail_sound (hstart : start < g.size) :
    (g.trail start).Sound g start ∧ (∀ v, ¬(g.trail start).Open v) ∧
      start ∈ (g.trail start).finished := by
  have hempty : Sound g start {} := by
    constructor <;> simp
  rw [trail, if_pos hstart]
  obtain ⟨hsound, hgrows, hfin⟩ := explores g start g.size start {} hempty (.refl hstart)
    List.not_mem_nil (fun hne ↦ absurd rfl hne) (fun o ho ↦ absurd ho.1 List.not_mem_nil)
    (Nat.le_add_right _ _)
  exact ⟨hsound, fun v hv ↦ absurd ((hgrows.open_iff v).1 hv).1 List.not_mem_nil, hfin⟩

theorem trail_eq_of_size_le (h : g.size ≤ start) : g.trail start = {} := by
  rw [trail, if_neg (by omega)]

theorem postorder_nodup (g : Graph) (start : Nat) : (g.postorder start).Nodup := by
  by_cases hstart : start < g.size
  · exact (trail_sound hstart).1.finished_nodup
  · rw [postorder, trail_eq_of_size_le (Nat.le_of_not_lt hstart)]
    exact List.nodup_nil

/-- **The search finishes exactly the reached nodes.** The finished nodes hold the start and are
closed under edges, because a successor that was entered is not left open. -/
theorem mem_postorder_iff {v : Nat} : v ∈ g.postorder start ↔ g.Reaches start v := by
  by_cases hstart : start < g.size
  · obtain ⟨hsound, hopen, hfin⟩ := trail_sound hstart
    constructor
    · intro hv
      exact hsound.reached v (hsound.finished_subset hv)
    · intro hv
      induction hv with
      | refl _ => exact hfin
      | @step v w _ hedge ih =>
        by_contra hn
        exact hopen w ⟨hsound.closed v ih w hedge, hn⟩
  · constructor
    · intro hv
      rw [postorder, trail_eq_of_size_le (Nat.le_of_not_lt hstart)] at hv
      exact absurd hv List.not_mem_nil
    · exact fun hv ↦ absurd hv.start_lt_size hstart

/-! ### Reverse postorder -/

theorem reversePostorder_nodup (g : Graph) (start : Nat) : (g.reversePostorder start).Nodup :=
  List.nodup_reverse.2 (g.postorder_nodup start)

@[simp]
theorem mem_reversePostorder_iff {v : Nat} :
    v ∈ g.reversePostorder start ↔ g.Reaches start v :=
  List.mem_reverse.trans mem_postorder_iff

theorem reversePostorder_length_le (g : Graph) (start : Nat) :
    (g.reversePostorder start).length ≤ g.size :=
  length_le_of_nodup (g.reversePostorder_nodup start) fun _ hv ↦
    (mem_reversePostorder_iff.1 hv).lt_size

/-- The start comes first. -/
theorem reversePostorder_eq_cons (hstart : start < g.size) :
    ∃ rest, g.reversePostorder start = start :: rest := by
  obtain ⟨depth, hdepth⟩ : ∃ depth, g.size = depth + 1 := ⟨g.size - 1, by omega⟩
  rw [reversePostorder, postorder, trail, if_pos hstart, hdepth, explore_succ, List.reverse_append]
  exact ⟨_, rfl⟩

/-- The position of a node in reverse postorder. -/
def rank (g : Graph) (start v : Nat) : Nat :=
  (g.reversePostorder start).idxOf v

/-- Searched for in reverse postorder, a reached node is found at its rank. -/
theorem idxOf?_reversePostorder {v : Nat} (hv : g.Reaches start v) :
    (g.reversePostorder start).idxOf? v = some (g.rank start v) := by
  have hmem := mem_reversePostorder_iff.2 hv
  rw [List.idxOf?_eq_some_iff]
  refine ⟨List.idxOf_lt_length_iff.2 hmem, List.getElem_idxOf _, fun j hj ↦ ?_⟩
  simpa using List.not_of_lt_findIdx hj

theorem rank_lt_length {v : Nat} (hv : g.Reaches start v) :
    g.rank start v < (g.reversePostorder start).length :=
  List.idxOf_lt_length_iff.2 (mem_reversePostorder_iff.2 hv)

theorem rank_lt_size {v : Nat} (hv : g.Reaches start v) : g.rank start v < g.size :=
  Nat.lt_of_lt_of_le (rank_lt_length hv) (g.reversePostorder_length_le start)

theorem rank_inj {v w : Nat} (hv : g.Reaches start v) (h : g.rank start v = g.rank start w) :
    v = w :=
  (List.idxOf_inj (mem_reversePostorder_iff.2 hv)).1 h

/-- Among reached nodes, a smaller rank means being finished later. -/
theorem rank_lt_rank_iff {v w : Nat} (hv : g.Reaches start v) (hw : g.Reaches start w) :
    g.rank start v < g.rank start w ↔ (g.trail start).Before w v := by
  have hv' := idxOf_reverse_add_idxOf (g.postorder_nodup start) (mem_postorder_iff.2 hv)
  have hw' := idxOf_reverse_add_idxOf (g.postorder_nodup start) (mem_postorder_iff.2 hw)
  show (g.postorder start).reverse.idxOf v < (g.postorder start).reverse.idxOf w ↔
    (g.postorder start).idxOf w < (g.postorder start).idxOf v
  omega

/-- **Every reached node but the start has an edge from a node of smaller rank.** -/
theorem exists_parent {v : Nat} (hv : g.Reaches start v) (hne : v ≠ start) :
    ∃ u, g.Reaches start u ∧ g.Edge u v ∧ g.rank start u < g.rank start v := by
  obtain ⟨hsound, -, -⟩ := trail_sound hv.start_lt_size
  obtain ⟨u, hu, hedge, hbefore⟩ := hsound.parent v (mem_postorder_iff.2 hv) hne
  exact ⟨u, hsound.reached u hu, hedge,
    (rank_lt_rank_iff (hsound.reached u hu) hv).2 hbefore⟩

/-- **The back edges are the edges that do not raise the rank.** -/
theorem mem_backEdges_iff {u v : Nat} : (u, v) ∈ (g.trail start).backEdges ↔
    g.Reaches start u ∧ g.Edge u v ∧ g.rank start v ≤ g.rank start u := by
  by_cases hstart : start < g.size
  · obtain ⟨hsound, -, -⟩ := trail_sound hstart
    have key : ∀ {u v : Nat}, g.Reaches start u → g.Edge u v →
        ((u, v) ∈ (g.trail start).backEdges ↔ g.rank start v ≤ g.rank start u) := by
      intro u v hu hedge
      rw [hsound.recorded u (mem_postorder_iff.2 hu) v hedge,
        ← rank_lt_rank_iff hu (hu.step hedge), Nat.not_lt]
    constructor
    · intro h
      obtain ⟨hu, hedge, -⟩ := hsound.back u v h
      exact ⟨hsound.reached u hu, hedge, (key (hsound.reached u hu) hedge).1 h⟩
    · rintro ⟨hu, hedge, hle⟩
      exact (key hu hedge).2 hle
  · constructor
    · intro h
      rw [trail_eq_of_size_le (Nat.le_of_not_lt hstart)] at h
      exact absurd h List.not_mem_nil
    · exact fun h ↦ absurd h.1.start_lt_size hstart

/-- **An edge that does not raise the rank closes a cycle of the search.** -/
theorem advances_of_rank_le {u v : Nat} (hu : g.Reaches start u) (hedge : g.Edge u v)
    (hle : g.rank start v ≤ g.rank start u) : Relation.ReflTransGen (g.Advances start) v u :=
  ((trail_sound hu.start_lt_size).1.back u v (mem_backEdges_iff.2 ⟨hu, hedge, hle⟩)).2.2

/-- **Every reached node has a path from the start through nodes of no greater rank.** -/
theorem exists_path_rank_le {v : Nat} (hv : g.Reaches start v) :
    ∃ π, g.Path start v π ∧ ∀ x ∈ π, g.rank start x ≤ g.rank start v := by
  -- Walk from parent to parent; the rank falls at every step.
  induction hn : g.rank start v using Nat.strongRecOn generalizing v with
  | ind n ih =>
    by_cases hne : v = start
    · subst hne
      refine ⟨[v], .single hv.lt_size, fun x hx ↦ ?_⟩
      rw [List.mem_singleton.1 hx]
      exact Nat.le_of_eq hn
    · obtain ⟨u, hu, hedge, hlt⟩ := exists_parent hv hne
      obtain ⟨π, hπ, hle⟩ := ih _ (hn ▸ hlt) hu rfl
      refine ⟨π ++ [v], hπ.snoc hedge, fun x hx ↦ ?_⟩
      rcases List.mem_append.1 hx with hx | hx
      · have := hle x hx
        omega
      · rw [List.mem_singleton.1 hx]
        exact Nat.le_of_eq hn

/-- A dominator has no greater rank. -/
theorem Dominates.rank_le {v w : Nat} (h : g.Dominates start w v) :
    g.rank start w ≤ g.rank start v := by
  obtain ⟨π, hπ, hle⟩ := exists_path_rank_le h.1
  exact hle w (h.2 π hπ)

theorem rank_entry (hstart : start < g.size) : g.rank start start = 0 := by
  obtain ⟨rest, hrest⟩ := reversePostorder_eq_cons hstart
  rw [rank, hrest]
  exact List.idxOf_cons_self

/-- All reached nodes but the start come behind it. -/
theorem reversePostorder_eq_cons_drop (hstart : start < g.size) :
    g.reversePostorder start = start :: (g.reversePostorder start).drop 1 := by
  obtain ⟨rest, hrest⟩ := reversePostorder_eq_cons hstart
  rw [hrest]
  rfl

/-! ### Reducible graphs -/

/-- The reached part of a graph has no cycle when the edges to dominators of their source are left
out. -/
def Reducible (g : Graph) (entry : Nat) : Prop :=
  ∀ v, ¬Relation.TransGen (g.Advances entry) v v

/-- **A graph is reducible exactly when every back edge of the search leads to a dominator.** A back
edge that does not closes a cycle with the way on which the search came; all other edges that
advance raise the rank. -/
theorem reducible_iff : g.Reducible start ↔
    ∀ u v, (u, v) ∈ (g.trail start).backEdges → g.Dominates start v u := by
  constructor
  · intro h u v hback
    by_contra hdom
    obtain ⟨hu, hedge, hle⟩ := mem_backEdges_iff.1 hback
    exact h v (.tail' (advances_of_rank_le hu hedge hle) ⟨hu, hedge, hdom⟩)
  · intro h v hcycle
    have hrank : ∀ a b, g.Advances start a b → g.rank start a < g.rank start b := by
      rintro a b ⟨ha, hedge, hdom⟩
      by_contra hle
      exact hdom (h a b (mem_backEdges_iff.2 ⟨ha, hedge, Nat.le_of_not_lt hle⟩))
    have hlt : ∀ w, Relation.TransGen (g.Advances start) v w →
        g.rank start v < g.rank start w := by
      intro w hw
      induction hw with
      | single hstep => exact hrank _ _ hstep
      | tail _ hstep ih => exact Nat.lt_trans ih (hrank _ _ hstep)
    exact Nat.lt_irrefl _ (hlt v hcycle)

end Graph

end FlowGauge
