import FlowGauge.Graph.Basic
import Mathlib.Data.List.Nodup
import Mathlib.Data.List.Perm.Subperm

/-!
# Paths and dominance

A path is recorded as the list of the nodes it visits, both ends included, and grows at its end:
that is the direction in which dominance is argued, from the entry to a node. `Graph.Reaches` says
that there is a path, and `Graph.Dominates` that there is one and that all of them pass a node.

The facts used later are that a path can be cut at any of its nodes (`Path.exists_split`), that its
cycles can be left out (`Path.exists_nodup`), and that dominance is a partial order on the reached
nodes which passes from a node to its predecessors (`Dominates.of_edge`). The dominators of one node
are even linearly ordered (`Dominates.total`), and below a dominator the node can be reached without
going back above it (`Dominates.exists_path_avoiding`).

Paths are data, a list of nodes, because dominance asks what all of them pass. Reaching asks only
that there is one, and is a relation of its own with an induction of its own;
`reaches_iff_exists_path` passes between the two.
-/

namespace FlowGauge

/-- Distinct numbers below a bound are at most as many as the bound says. -/
theorem length_le_of_nodup {bound : Nat} {nodes : List Nat} (hnodup : nodes.Nodup)
    (hlt : ∀ v ∈ nodes, v < bound) : nodes.length ≤ bound := by
  have hsub : nodes ⊆ List.range bound := fun v hv ↦ List.mem_range.2 (hlt v hv)
  simpa using (List.subperm_of_subset hnodup hsub).length_le

namespace Graph

variable {g : Graph}

/-! ### Paths -/

/-- There is a path from `u` to a node that visits the listed nodes in order. -/
inductive Path (g : Graph) (u : Nat) : Nat → List Nat → Prop
  | single : u < g.size → g.Path u u [u]
  | snoc {v w : Nat} {π : List Nat} : g.Path u v π → g.Edge v w → g.Path u w (π ++ [w])

theorem Reaches.trans {u v w : Nat} (huv : g.Reaches u v) (hvw : g.Reaches v w) :
    g.Reaches u w := by
  induction hvw with
  | refl _ => exact huv
  | step _ hedge ih => exact ih.step hedge

theorem Reaches.lt_size {u v : Nat} (h : g.Reaches u v) : v < g.size := by
  cases h with
  | refl hv => exact hv
  | step _ hedge => exact hedge.2.1

theorem Reaches.start_lt_size {u v : Nat} (h : g.Reaches u v) : u < g.size := by
  induction h with
  | refl hv => exact hv
  | step _ _ ih => exact ih

namespace Path

variable {u v w x : Nat} {π ρ : List Nat}

/-- What a path leads to is reached. -/
theorem reaches (h : g.Path u v π) : g.Reaches u v := by
  induction h with
  | single hu => exact .refl hu
  | snoc _ hedge ih => exact ih.step hedge

theorem source_mem (h : g.Path u v π) : u ∈ π := by
  induction h with
  | single _ => exact List.mem_singleton_self u
  | snoc _ _ ih => exact List.mem_append_left _ ih

theorem target_mem (h : g.Path u v π) : v ∈ π := by
  cases h with
  | single _ => exact List.mem_singleton_self u
  | snoc _ _ => exact List.mem_append_right _ (List.mem_singleton_self v)

/-- A path visits at least one node. -/
theorem length_pos (h : g.Path u v π) : 0 < π.length :=
  List.length_pos_of_mem h.source_mem

/-- A path can also grow at its start. -/
theorem cons (hedge : g.Edge u v) (h : g.Path v w π) : g.Path u w (u :: π) := by
  induction h with
  | single _ => exact (Path.single hedge.1).snoc hedge
  | snoc _ hlast ih => exact ih.snoc hlast

/-- The nodes of a path exist. -/
theorem lt_size_of_mem (h : g.Path u v π) (hx : x ∈ π) : x < g.size := by
  induction h with
  | single hu =>
    rw [List.mem_singleton.1 hx]
    exact hu
  | snoc _ hedge ih =>
    rcases List.mem_append.1 hx with hx | hx
    · exact ih hx
    · rw [List.mem_singleton.1 hx]
      exact hedge.2.1

/-- **A path can be cut at any of its nodes.** -/
theorem exists_split (h : g.Path u v π) (hx : x ∈ π) :
    ∃ ρ σ, π = ρ ++ x :: σ ∧ g.Path u x (ρ ++ [x]) ∧ g.Path x v (x :: σ) := by
  induction h with
  | single hu =>
    obtain rfl : x = u := List.mem_singleton.1 hx
    exact ⟨[], [], rfl, .single hu, .single hu⟩
  | @snoc v w π hpath hedge ih =>
    rcases List.mem_append.1 hx with hx | hx
    · obtain ⟨ρ, σ, rfl, hρ, hσ⟩ := ih hx
      exact ⟨ρ, σ ++ [w], by rw [List.append_assoc, List.cons_append], hρ, hσ.snoc hedge⟩
    · obtain rfl : x = w := List.mem_singleton.1 hx
      exact ⟨π, [], rfl, hpath.snoc hedge, .single hedge.2.1⟩

/-- The part of a path up to one of its nodes. -/
theorem exists_upTo (h : g.Path u v π) (hx : x ∈ π) :
    ∃ ρ, g.Path u x ρ ∧ ρ <+: π := by
  obtain ⟨ρ, σ, rfl, hρ, -⟩ := h.exists_split hx
  exact ⟨ρ ++ [x], hρ, ⟨σ, by rw [List.append_assoc]; rfl⟩⟩

/-- Two paths that meet join to one, which visits the nodes of both. -/
theorem exists_append (h : g.Path u v π) (h' : g.Path v w ρ) :
    ∃ σ, g.Path u w σ ∧ ∀ x ∈ σ, x ∈ π ∨ x ∈ ρ := by
  induction h' with
  | single _ => exact ⟨π, h, fun x hx ↦ Or.inl hx⟩
  | @snoc y z ρ _ hedge ih =>
    obtain ⟨σ, hσ, hmem⟩ := ih
    refine ⟨σ ++ [z], hσ.snoc hedge, fun x hx ↦ ?_⟩
    rcases List.mem_append.1 hx with hx | hx
    · exact (hmem x hx).imp_right (List.mem_append_left _)
    · exact Or.inr (List.mem_append_right _ hx)

/-- **Cycles can be left out of a path.** -/
theorem exists_nodup (h : g.Path u v π) : ∃ ρ, g.Path u v ρ ∧ ρ.Nodup ∧ ρ ⊆ π := by
  induction h with
  | single hu => exact ⟨[u], .single hu, List.nodup_singleton u, List.Subset.refl _⟩
  | @snoc v w π _ hedge ih =>
    obtain ⟨ρ, hρ, hnodup, hsub⟩ := ih
    by_cases hw : w ∈ ρ
    · -- The new node was visited before: go back to that visit.
      obtain ⟨σ, hσ, hpre⟩ := hρ.exists_upTo hw
      exact ⟨σ, hσ, hnodup.sublist hpre.sublist,
        List.Subset.trans (List.Subset.trans hpre.subset hsub) (List.subset_append_left _ _)⟩
    · refine ⟨ρ ++ [w], hρ.snoc hedge, ?_, ?_⟩
      · exact hnodup.append (List.nodup_singleton w)
          (List.disjoint_singleton.2 hw)
      · exact List.append_subset.2
          ⟨List.Subset.trans hsub (List.subset_append_left _ _), List.subset_append_right _ _⟩

/-- A path without repetition is no longer than the graph has nodes. -/
theorem length_le_size (h : g.Path u v π) (hnodup : π.Nodup) : π.length ≤ g.size :=
  length_le_of_nodup hnodup fun _ ↦ h.lt_size_of_mem

end Path

/-- Reaching a node is having a path to it. -/
theorem reaches_iff_exists_path {u v : Nat} : g.Reaches u v ↔ ∃ π, g.Path u v π := by
  constructor
  · intro h
    induction h with
    | refl hv => exact ⟨_, .single hv⟩
    | step _ hedge ih =>
      obtain ⟨π, hπ⟩ := ih
      exact ⟨_, hπ.snoc hedge⟩
  · rintro ⟨π, hπ⟩
    exact hπ.reaches

/-! ### Dominance -/

/-- `a` dominates `b`: the entry reaches `b`, and every path from the entry to `b` visits `a`. -/
def Dominates (g : Graph) (entry a b : Nat) : Prop :=
  g.Reaches entry b ∧ ∀ π, g.Path entry b π → a ∈ π

namespace Dominates

variable {entry a b c : Nat}

theorem refl (h : g.Reaches entry b) : g.Dominates entry b b :=
  ⟨h, fun _ hπ ↦ hπ.target_mem⟩

/-- A dominator is reached: it lies on a path from the entry. -/
theorem reaches_left (h : g.Dominates entry a b) : g.Reaches entry a := by
  obtain ⟨π, hπ⟩ := reaches_iff_exists_path.1 h.1
  obtain ⟨ρ, hρ, -⟩ := hπ.exists_upTo (h.2 π hπ)
  exact hρ.reaches

/-- Dominance is transitive: a path to the lower node passes the middle one, and its front part
passes the upper one. -/
theorem trans (hab : g.Dominates entry a b) (hbc : g.Dominates entry b c) :
    g.Dominates entry a c := by
  refine ⟨hbc.1, fun π hπ ↦ ?_⟩
  obtain ⟨ρ, hρ, hpre⟩ := hπ.exists_upTo (hbc.2 π hπ)
  exact hpre.subset (hab.2 ρ hρ)

/-- Only the entry dominates the entry. -/
theorem eq_entry (h : g.Dominates entry a entry) : a = entry :=
  List.mem_singleton.1 (h.2 [entry] (.single h.1.lt_size))

/-- **Dominance is antisymmetric.** A path to one node that visits the other can be shortened for
ever. -/
theorem antisymm (hab : g.Dominates entry a b) (hba : g.Dominates entry b a) : a = b := by
  by_contra hne
  -- A path to `b` passes `a`, and up to there it passes `b` again.
  have key : ∀ (n : Nat) (π : List Nat), π.length ≤ n → g.Path entry b π → False := by
    intro n
    induction n with
    | zero => exact fun π hlen hπ ↦ absurd hπ.length_pos (by omega)
    | succ n ih =>
      intro π hlen hπ
      cases hπ with
      | single _ => exact hne (List.mem_singleton.1 (hab.2 _ (.single hab.1.lt_size)))
      | @snoc v _ π hpath hedge =>
        have ha : a ∈ π ++ [b] := hab.2 _ (hpath.snoc hedge)
        rcases List.mem_append.1 ha with ha | ha
        · obtain ⟨ρ, hρ, hpre⟩ := hpath.exists_upTo ha
          obtain ⟨σ, hσ, hpre'⟩ := hρ.exists_upTo (hba.2 ρ hρ)
          refine ih σ ?_ hσ
          have h₁ := hpre.length_le
          have h₂ := hpre'.length_le
          simp only [List.length_append, List.length_singleton] at hlen
          omega
        · exact hne (List.mem_singleton.1 ha)
  obtain ⟨π, hπ⟩ := reaches_iff_exists_path.1 hab.1
  exact key π.length π (Nat.le_refl _) hπ

/-- **A strict dominator of a node dominates the reached predecessors of the node.** -/
theorem of_edge (h : g.Dominates entry a c) (hne : a ≠ c) (hb : g.Reaches entry b)
    (hedge : g.Edge b c) : g.Dominates entry a b := by
  refine ⟨hb, fun π hπ ↦ ?_⟩
  rcases List.mem_append.1 (h.2 _ (hπ.snoc hedge)) with ha | ha
  · exact ha
  · exact absurd (List.mem_singleton.1 ha) hne

/-- A dominator of a node dominates every reached node from which the node is reached without
passing the dominator. -/
theorem of_path (h : g.Dominates entry a c) (hb : g.Reaches entry b) {π : List Nat}
    (hπ : g.Path b c π) (ha : a ∉ π) : g.Dominates entry a b := by
  refine ⟨hb, fun ρ hρ ↦ ?_⟩
  obtain ⟨σ, hσ, hsub⟩ := hρ.exists_append hπ
  exact (hsub a (h.2 σ hσ)).resolve_right ha

/-- **Below a dominator a node is reached without going back above it**: a path without repetition
passes what is above the dominator before it comes to the dominator. -/
theorem exists_path_avoiding (hab : g.Dominates entry a b) (hne : a ≠ b)
    (hbc : g.Dominates entry b c) : ∃ π, g.Path b c π ∧ a ∉ π := by
  obtain ⟨π, hπ⟩ := reaches_iff_exists_path.1 hbc.1
  obtain ⟨π, hπ, hnodup, -⟩ := hπ.exists_nodup
  obtain ⟨ρ, σ, rfl, hρ, hσ⟩ := hπ.exists_split (hbc.2 π hπ)
  have ha : a ∈ ρ := (List.mem_append.1 (hab.2 _ hρ)).resolve_right fun h ↦
    hne (List.mem_singleton.1 h)
  exact ⟨b :: σ, hσ, fun h ↦ (List.nodup_append.1 hnodup).2.2 a ha a h rfl⟩

/-- **Of two dominators of a node one dominates the other.** On a path to the node, one of them is
passed last. -/
theorem total (ha : g.Dominates entry a c) (hb : g.Dominates entry b c) :
    g.Dominates entry a b ∨ g.Dominates entry b a := by
  obtain ⟨π, hπ⟩ := reaches_iff_exists_path.1 hb.1
  obtain ⟨π, hπ, hnodup, -⟩ := hπ.exists_nodup
  obtain ⟨ρ, σ, rfl, -, hσ⟩ := hπ.exists_split (hb.2 π hπ)
  by_cases hmem : a ∈ b :: σ
  · by_cases hne : a = b
    · exact Or.inl (hne ▸ .refl ha.reaches_left)
    · obtain ⟨ρ', σ', hsplit, -, hσ'⟩ := hσ.exists_split hmem
      have hhead : b ∈ ρ' := by
        cases ρ' with
        | nil => exact absurd (List.head_eq_of_cons_eq hsplit).symm hne
        | cons x ρ' => exact List.head_eq_of_cons_eq hsplit ▸ List.mem_cons_self ..
      have hnodup' : (ρ' ++ a :: σ').Nodup := hsplit ▸ (List.nodup_append.1 hnodup).2.1
      exact Or.inr (hb.of_path ha.reaches_left hσ' fun h ↦
        (List.nodup_append.1 hnodup').2.2 b hhead b h rfl)
  · exact Or.inl (ha.of_path hb.reaches_left hσ hmem)

end Dominates

/-- An edge from a reached node that does not lead back to a dominator of its source. -/
def Advances (g : Graph) (entry a b : Nat) : Prop :=
  g.Reaches entry a ∧ g.Edge a b ∧ ¬g.Dominates entry b a

end Graph

end FlowGauge
