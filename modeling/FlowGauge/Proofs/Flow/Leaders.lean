import FlowGauge.Proofs.Flow.Step

/-!
# Leaders of a routine

A leader is an index at which a block starts: zero, the target of a jump, or what follows an
instruction that ends a block (`mem_leaders_iff`). The leaders are listed in ascending order from
zero on, so the ranges between one leader and the next cover the routine without gap or overlap
(`exists_leader`, `not_mem_leaders_of_inside`).

An instruction at the end of a routine is followed by nothing, and a jump to a label that is not
defined has no target: neither makes a leader. A label without a jump to it makes none either, so a
block may hold labels anywhere.
-/

namespace FlowGauge

namespace Routine

variable {r : Routine}

theorem leaders_pairwise (r : Routine) : r.leaders.Pairwise (· < ·) :=
  List.pairwise_lt_range.filter _

/-- **What a leader is.** -/
theorem mem_leaders_iff {i : Nat} : i ∈ r.leaders ↔ i < r.size ∧
    (i = 0 ∨ (∃ c ∈ r.instructions, r.target? c = some i) ∨
      ∃ j c, i = j + 1 ∧ r.instructions[j]? = some c ∧ c.opcode.endsBlock = true) := by
  have hafter : ((false :: r.instructions.map (·.opcode.endsBlock))[i]?.getD false = true) ↔
      ∃ j c, i = j + 1 ∧ r.instructions[j]? = some c ∧ c.opcode.endsBlock = true := by
    rcases i with - | j
    · simp
    · rw [List.getElem?_cons_succ, List.getElem?_map]
      constructor
      · intro h
        rcases hc : r.instructions[j]? with - | c
        · rw [hc] at h
          exact absurd h (by simp)
        · rw [hc] at h
          exact ⟨j, c, rfl, hc, h⟩
      · rintro ⟨j', c, hj, hc, h⟩
        rw [Nat.add_right_cancel hj, hc]
        exact h
  simp only [leaders, List.mem_filter, List.mem_range, Bool.or_eq_true, beq_iff_eq,
    decide_eq_true_eq, List.mem_filterMap, hafter, or_assoc]

theorem lt_size_of_leader {k s : Nat} (h : r.leaders[k]? = some s) : s < r.size :=
  (mem_leaders_iff.1 (List.mem_of_getElem? h)).1

/-- Leaders stand in the order of their positions. -/
theorem leader_lt_leader_iff {k l s t : Nat} (hs : r.leaders[k]? = some s)
    (ht : r.leaders[l]? = some t) : s < t ↔ k < l := by
  obtain ⟨hk, rfl⟩ := List.getElem?_eq_some_iff.1 hs
  obtain ⟨hl, rfl⟩ := List.getElem?_eq_some_iff.1 ht
  have hmono := List.pairwise_iff_getElem.1 r.leaders_pairwise
  rcases Nat.lt_trichotomy k l with h | rfl | h
  · exact ⟨fun _ ↦ h, fun _ ↦ hmono k l hk hl h⟩
  · simp
  · have := hmono l k hl hk h
    omega

/-- No leader is listed twice, so an index that starts a block starts only one. -/
theorem leader_position_inj {k l s : Nat} (hs : r.leaders[k]? = some s)
    (ht : r.leaders[l]? = some s) : k = l := by
  have h₁ := leader_lt_leader_iff hs ht
  have h₂ := leader_lt_leader_iff ht hs
  omega

/-! ### Between leaders -/

/-- The index behind the block of number `k`: the next leader or the end of the routine. -/
def stopOf (r : Routine) (k : Nat) : Nat :=
  (r.leaders[k + 1]?).getD r.size

/-- No block is empty. -/
theorem lt_stopOf {k s : Nat} (hs : r.leaders[k]? = some s) : s < r.stopOf k := by
  unfold stopOf
  rcases ht : r.leaders[k + 1]? with - | t
  · exact lt_size_of_leader hs
  · exact (leader_lt_leader_iff hs ht).2 (Nat.lt_succ_self k)

/-- The last block ends where the routine ends. -/
theorem stopOf_le_size (r : Routine) (k : Nat) : r.stopOf k ≤ r.size := by
  unfold stopOf
  rcases ht : r.leaders[k + 1]? with - | t
  · exact Nat.le_refl _
  · exact Nat.le_of_lt (lt_size_of_leader ht)

/-- No leader lies inside a block. -/
theorem not_mem_leaders_of_inside {k s i : Nat} (hs : r.leaders[k]? = some s) (hsi : s < i)
    (hi : i < r.stopOf k) : i ∉ r.leaders := by
  intro hmem
  obtain ⟨l, hl, rfl⟩ := List.getElem_of_mem hmem
  have hl' : r.leaders[l]? = some r.leaders[l] := List.getElem?_eq_getElem hl
  have hkl := (leader_lt_leader_iff hs hl').1 hsi
  have hk : k + 1 < r.leaders.length := by omega
  have ht : r.leaders[k + 1]? = some r.leaders[k + 1] := List.getElem?_eq_getElem hk
  rw [stopOf, ht, Option.getD_some] at hi
  have := (leader_lt_leader_iff hl' ht).1 hi
  omega

/-- An index behind a block is the next leader, unless the routine ends there. -/
theorem leader_of_stopOf_lt {k : Nat} (h : r.stopOf k < r.size) :
    r.leaders[k + 1]? = some (r.stopOf k) := by
  unfold stopOf at h ⊢
  rcases ht : r.leaders[k + 1]? with - | t
  · rw [ht] at h
    exact absurd h (Nat.lt_irrefl _)
  · rfl

/-- In an ascending list some entry is the last that does not exceed a number. -/
theorem exists_last_le {l : List Nat} {a i : Nat} (ha : l[0]? = some a) (hi : a ≤ i) :
    ∃ k s, l[k]? = some s ∧ s ≤ i ∧ ∀ t, l[k + 1]? = some t → i < t := by
  induction l generalizing a with
  | nil => exact absurd ha (by simp)
  | cons b l ih =>
    obtain rfl : b = a := by simpa using ha
    rcases hl : l[0]? with - | c
    · exact ⟨0, b, rfl, hi, fun t ht ↦ by simp [hl] at ht⟩
    · by_cases hc : c ≤ i
      · obtain ⟨k, s, hs, hle, hnext⟩ := ih hl hc
        exact ⟨k + 1, s, hs, hle, hnext⟩
      · refine ⟨0, b, rfl, hi, fun t ht ↦ ?_⟩
        rw [List.getElem?_cons_succ, hl] at ht
        have := Option.some.inj ht
        omega

/-- The first block of a routine starts at its first instruction. -/
theorem leaders_zero (h : 0 < r.size) : r.leaders[0]? = some 0 := by
  have hmem : 0 ∈ r.leaders := mem_leaders_iff.2 ⟨h, Or.inl rfl⟩
  obtain ⟨k, hk, hk0⟩ := List.getElem_of_mem hmem
  have hk' : r.leaders[k]? = some 0 := by rw [List.getElem?_eq_getElem hk, hk0]
  have hfirst : r.leaders[0]? = some r.leaders[0] := List.getElem?_eq_getElem (by omega)
  have := leader_lt_leader_iff hfirst hk'
  obtain rfl : k = 0 := by omega
  exact hk'

/-- **Every instruction lies between a leader and the index behind its block.** -/
theorem exists_leader {i : Nat} (hi : i < r.size) :
    ∃ k s, r.leaders[k]? = some s ∧ s ≤ i ∧ i < r.stopOf k := by
  have hpos : 0 < r.size := by omega
  obtain ⟨k, s, hs, hle, hnext⟩ := exists_last_le (leaders_zero hpos) (Nat.zero_le i)
  refine ⟨k, s, hs, hle, ?_⟩
  unfold stopOf
  rcases ht : r.leaders[k + 1]? with - | t
  · exact hi
  · exact hnext t ht

end Routine

end FlowGauge
