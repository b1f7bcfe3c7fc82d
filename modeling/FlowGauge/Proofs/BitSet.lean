import FlowGauge.BitSet

/-!
# Bit sets of one capacity

Sets that share a capacity and store nothing beyond it (`Fits`) behave as sets of numbers: two of
them with the same members are the same (`Fits.ext`), and a union takes over all members. Every
operation keeps this form, so an analysis that never mixes capacities can reason about members
alone.

## Words and capacities

A set is stored in whole words, and operations on words do not know the capacity. What stands
between the capacity and the end of the last word is no member, but a union would carry it along and
a comparison would see it. `Fits` says that nothing stands there. That is why two sets that fit are
equal as soon as their members are, which is what a solver that compares sets to find out whether
anything has changed relies on.

Sets of different capacities need a finer account. The one given here is for the solver and for the
equations it solves, where one capacity is fixed from the start.
-/

namespace FlowGauge

namespace BitSet

/-- The set has the given capacity and stores nothing from there on. -/
structure Fits (count : Nat) (s : BitSet) : Prop where
  capacity_eq : s.capacity = count
  lt_of_testBit : ∀ i, s.bits.testBit i = true → i < count

variable {count : Nat} {s t : BitSet}

/-- For a set that fits, asking for a member is reading a bit: the comparison with the capacity can
be left out. -/
theorem Fits.contains_eq (hs : s.Fits count) (i : Nat) : s.contains i = s.bits.testBit i := by
  rw [contains, hs.capacity_eq]
  cases hi : s.bits.testBit i
  · rw [Bool.and_false]
  · rw [Bool.and_true, decide_eq_true_iff]
    exact hs.lt_of_testBit i hi

/-- Members lie below the capacity. -/
theorem Fits.lt_of_contains (hs : s.Fits count) {i : Nat} (hi : s.contains i = true) : i < count :=
  hs.lt_of_testBit i (hs.contains_eq i ▸ hi)

/-- **Sets of one capacity with the same members are the same.** -/
theorem Fits.ext (hs : s.Fits count) (ht : t.Fits count)
    (h : ∀ i, s.contains i = true ↔ t.contains i = true) : s = t := by
  have hbits : s.bits = t.bits := by
    refine Nat.eq_of_testBit_eq fun i ↦ ?_
    rw [← hs.contains_eq, ← ht.contains_eq]
    exact Bool.eq_iff_iff.2 (h i)
  have hcapacity : s.capacity = t.capacity := hs.capacity_eq.trans ht.capacity_eq.symm
  cases s
  cases t
  simp_all

/-- Nothing is stored behind the capacity of a new set. -/
theorem empty_fits (count : Nat) : (empty count).Fits count :=
  ⟨rfl, fun i hi ↦ absurd hi (by simp [empty])⟩

/-- A new set has no members, whatever its capacity. -/
@[simp] theorem contains_empty (count i : Nat) : (empty count).contains i = false := by
  simp [contains, empty]

/-- The last word may reach beyond the capacity, never the other way round. -/
theorem le_width (s : BitSet) : s.capacity ≤ s.width := by
  rw [width]
  omega

/-- A union of sets of one capacity stores nothing beyond it. This is where mixed capacities fail:
the words of the receiving set may have room for what the other one stores. -/
theorem Fits.union (hs : s.Fits count) (ht : t.Fits count) : (s.union t).Fits count := by
  refine ⟨hs.capacity_eq, fun i hi ↦ ?_⟩
  have hi : (s.bits ||| t.bits % Word.bound s.width).testBit i = true := hi
  rw [Nat.testBit_or, Word.bound, Nat.one_shiftLeft, Nat.testBit_mod_two_pow, Bool.or_eq_true,
    Bool.and_eq_true] at hi
  exact hi.elim (hs.lt_of_testBit i) fun h ↦ ht.lt_of_testBit i h.2

/-- The members of a union. A member of either set lies below the common capacity, so that no word
of it is cut off. -/
theorem Fits.contains_union (hs : s.Fits count) (ht : t.Fits count) (i : Nat) :
    (s.union t).contains i = true ↔ s.contains i = true ∨ t.contains i = true := by
  rw [(hs.union ht).contains_eq, hs.contains_eq, ht.contains_eq]
  show (s.bits ||| t.bits % Word.bound s.width).testBit i = true ↔ _
  rw [Nat.testBit_or, Word.bound, Nat.one_shiftLeft, Nat.testBit_mod_two_pow, Bool.or_eq_true,
    Bool.and_eq_true, decide_eq_true_iff]
  -- A member of `t` lies within the words of `s`, as the capacities agree.
  refine or_congr_right (and_iff_right_of_imp fun hi ↦ ?_)
  exact Nat.lt_of_lt_of_le (hs.capacity_eq ▸ ht.lt_of_testBit i hi) (le_width s)

/-- Taking bits away keeps the form, whatever set they are taken from; only the receiving set has to
fit. -/
theorem Fits.difference (hs : s.Fits count) (t : BitSet) : (s.difference t).Fits count := by
  refine ⟨hs.capacity_eq, fun i hi ↦ hs.lt_of_testBit i ?_⟩
  have hi : (s.bits ^^^ (s.bits &&& t.bits)).testBit i = true := hi
  rw [Nat.testBit_xor, Nat.testBit_and] at hi
  cases h : s.bits.testBit i
  · rw [h] at hi
    exact hi
  · rfl

/-- The members of a difference. Here only the set that is taken away has to fit: a bit that it
stores behind its capacity would be removed although it is no member. -/
theorem Fits.contains_difference (ht : t.Fits count) (i : Nat) :
    (s.difference t).contains i = true ↔ s.contains i = true ∧ ¬t.contains i = true := by
  rw [BitSet.contains_difference, ht.contains_eq, Bool.and_eq_true, Bool.not_eq_true',
    Bool.not_eq_true]

/-- An insertion keeps the form because an index at or behind the capacity is ignored. -/
theorem Fits.insert (hs : s.Fits count) (j : Nat) : (s.insert j).Fits count := by
  unfold BitSet.insert
  split
  · next hj =>
    refine ⟨hs.capacity_eq, fun i hi ↦ ?_⟩
    have hi : (s.bits ||| 1 <<< j).testBit i = true := hi
    rw [Nat.testBit_or, Nat.one_shiftLeft, Nat.testBit_two_pow, Bool.or_eq_true,
      decide_eq_true_iff] at hi
    exact hi.elim (hs.lt_of_testBit i) fun heq ↦ heq ▸ hs.capacity_eq ▸ hj
  · exact hs

/-- An insertion below the capacity adds the index and nothing else. -/
theorem Fits.contains_insert (hs : s.Fits count) {j : Nat} (hj : j < count) (i : Nat) :
    (s.insert j).contains i = true ↔ s.contains i = true ∨ i = j := by
  rw [BitSet.contains_insert, hs.capacity_eq, Bool.or_eq_true, Bool.and_eq_true,
    decide_eq_true_iff, beq_iff_eq]
  refine or_congr_right (and_iff_right_of_imp fun heq ↦ heq ▸ hj)

/-- The set of some numbers below the capacity fits it and holds these numbers. -/
theorem ofList_fits_and_contains {indices : List Nat} (hlt : ∀ i ∈ indices, i < count) :
    (ofList count indices).Fits count ∧
      ∀ i, (ofList count indices).contains i = true ↔ i ∈ indices := by
  suffices h : ∀ s : BitSet, s.Fits count → (indices.foldl BitSet.insert s).Fits count ∧
      ∀ i, (indices.foldl BitSet.insert s).contains i = true ↔
        s.contains i = true ∨ i ∈ indices by
    obtain ⟨hfits, hmem⟩ := h (empty count) (empty_fits count)
    refine ⟨hfits, fun i ↦ (hmem i).trans ?_⟩
    simp
  induction indices with
  | nil => exact fun s hs ↦ ⟨hs, fun i ↦ by simp⟩
  | cons j indices ih =>
    intro s hs
    have hj : j < count := hlt j (List.mem_cons_self ..)
    obtain ⟨hfits, hmem⟩ := ih (fun i hi ↦ hlt i (List.mem_cons_of_mem j hi)) _ (hs.insert j)
    refine ⟨hfits, fun i ↦ (hmem i).trans ?_⟩
    rw [hs.contains_insert hj, List.mem_cons, or_assoc]

end BitSet

end FlowGauge
