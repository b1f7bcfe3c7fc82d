import FlowGauge.Proofs.BitSet
import Mathlib.Data.Set.Card

/-!
# Bit sets under any changes

Sets of any capacities are created, filled and combined in any order. Two descriptions of such a set
stand side by side. Its *list* holds every stored index; size, emptiness, equality and the reports
of changes all speak of the list, and this holds after every run (`Listed`, `ListedWith`). Its
*members* are the listed indices below the capacity. The set behaves as the set of its members
(`Tidy`, `TidyWith`) as long as the two agree.

Only one change can part them: a union with a set that stores an index between the capacity of the
receiving set and the end of its last word (`Spills`). Members and lists agree throughout a run if
and only if no union of the run spills, and no union spills when every set that is taken over has no
larger capacity than the receiving set.

## Three invariants, and what each rests on

* `InWords`: nothing is stored behind the last word. Every operation keeps it, so it holds after
  every run (`run_inWords`), and everything that speaks of lists follows from it alone.
* `Clear`: nothing is stored behind the capacity. Every operation but the union keeps it, and
  `ListedWith.clear_union_iff` says exactly when the union does.
* `Dry`: no union of the whole run has spilled. This is a statement about the run and not about the
  sets at its end: a spilled index may be erased by a later difference, and the set looks clear
  again. `dry_iff` therefore asks for clear sets after every prefix of the run.

A run starts with no sets and names them by their places in the list of sets. An operation on a
place that does not exist changes nothing.
-/

namespace FlowGauge

namespace BitSet

variable {s t : BitSet} {i j : Nat}

/-! ### Bits after each operation -/

@[simp] theorem capacity_insert (s : BitSet) (i : Nat) : (s.insert i).capacity = s.capacity := by
  unfold insert
  split <;> rfl

@[simp] theorem capacity_erase (s : BitSet) (i : Nat) : (s.erase i).capacity = s.capacity := by
  unfold erase
  split <;> rfl

@[simp] theorem capacity_union (s t : BitSet) : (s.union t).capacity = s.capacity :=
  rfl

/-- The number of stored bits depends on the capacity alone. -/
theorem width_eq_of_capacity_eq (h : s.capacity = t.capacity) : s.width = t.width := by
  rw [width, width, h]

/-- Only an index below the capacity is stored. -/
theorem testBit_insert_iff : (s.insert i).bits.testBit j = true ↔
    s.bits.testBit j = true ∨ j = i ∧ i < s.capacity := by
  unfold insert
  split
  · next h =>
    show (s.bits ||| 1 <<< i).testBit j = true ↔ _
    rw [Nat.testBit_or, Nat.one_shiftLeft, Nat.testBit_two_pow, Bool.or_eq_true,
      decide_eq_true_iff, and_iff_left h, @eq_comm _ i]
  · next h => simp [h]

/-- Erasing looks at the capacity, too. A bit that is stored behind it cannot be erased. -/
theorem testBit_erase_iff : (s.erase i).bits.testBit j = true ↔
    s.bits.testBit j = true ∧ ¬(j = i ∧ i < s.capacity) := by
  unfold erase
  split
  · next h =>
    show (s.bits ^^^ (s.bits &&& 1 <<< i)).testBit j = true ↔ _
    rw [Nat.testBit_xor, Nat.testBit_and, Nat.one_shiftLeft, Nat.testBit_two_pow, and_iff_left h,
      @eq_comm _ j]
    cases s.bits.testBit j <;> simp
  · next h => simp [h]

/-- A union looks at the words and not at the capacity: it takes over whatever the other set stores
below the end of the last word. -/
theorem testBit_union_iff : (s.union t).bits.testBit j = true ↔
    s.bits.testBit j = true ∨ j < s.width ∧ t.bits.testBit j = true := by
  show (s.bits ||| t.bits % Word.bound s.width).testBit j = true ↔ _
  rw [Nat.testBit_or, Word.bound, Nat.one_shiftLeft, Nat.testBit_mod_two_pow, Bool.or_eq_true,
    Bool.and_eq_true, decide_eq_true_iff]

/-- A difference takes away every bit of the other set, members or not. -/
theorem testBit_difference_iff : (s.difference t).bits.testBit j = true ↔
    s.bits.testBit j = true ∧ ¬t.bits.testBit j = true := by
  show (s.bits ^^^ (s.bits &&& t.bits)).testBit j = true ↔ _
  rw [Nat.testBit_xor, Nat.testBit_and]
  cases s.bits.testBit j <;> simp

/-- A member is a stored index below the capacity. -/
theorem contains_iff : s.contains i = true ↔ i < s.capacity ∧ s.bits.testBit i = true := by
  rw [contains, Bool.and_eq_true, decide_eq_true_iff]

/-! ### Lists -/

/-- Every stored bit lies in the words of the set. -/
def InWords (s : BitSet) : Prop :=
  ∀ i, s.bits.testBit i = true → i < s.width

/-- The list runs over whole words, so that indices behind the capacity may be listed. -/
theorem mem_toList_iff : i ∈ s.toList ↔ i < s.width ∧ s.bits.testBit i = true := by
  rw [toList, List.mem_filter, List.mem_range]

/-- With nothing stored behind the last word, the list holds every stored index. -/
theorem InWords.mem_toList_iff (h : s.InWords) : i ∈ s.toList ↔ s.bits.testBit i = true :=
  BitSet.mem_toList_iff.trans (and_iff_right_of_imp (h i))

/-- The list ascends, as the words are read from the lowest bit on. -/
theorem toList_pairwise_lt (s : BitSet) : s.toList.Pairwise (· < ·) :=
  List.pairwise_lt_range.filter _

theorem toList_nodup (s : BitSet) : s.toList.Nodup :=
  s.toList_pairwise_lt.imp Nat.ne_of_lt

/-- Ascending lists with the same indices are the same. -/
theorem toList_eq_iff : s.toList = t.toList ↔ ∀ i, i ∈ s.toList ↔ i ∈ t.toList := by
  refine ⟨fun h i ↦ by rw [h], fun h ↦ ?_⟩
  exact List.Perm.eq_of_pairwise (fun a b _ _ hab hba ↦ absurd hab (Nat.lt_asymm hba))
    s.toList_pairwise_lt t.toList_pairwise_lt
    ((List.perm_ext_iff_of_nodup s.toList_nodup t.toList_nodup).2 h)

theorem lt_width_of_lt_capacity (h : i < s.capacity) : i < s.width :=
  Nat.lt_of_lt_of_le h s.le_width

/-- A new set stores nothing, so nothing behind its last word. -/
theorem empty_inWords (capacity : Nat) : (empty capacity).InWords :=
  fun i hi ↦ absurd hi (by simp [empty])

/-- An insertion stays within the words, because it stays below the capacity. -/
theorem InWords.insert (h : s.InWords) (i : Nat) : (s.insert i).InWords := by
  intro j hj
  rw [width_eq_of_capacity_eq (s.capacity_insert i)]
  exact (testBit_insert_iff.1 hj).elim (h j) fun ⟨hji, hi⟩ ↦ hji ▸ lt_width_of_lt_capacity hi

theorem InWords.erase (h : s.InWords) (i : Nat) : (s.erase i).InWords := by
  intro j hj
  rw [width_eq_of_capacity_eq (s.capacity_erase i)]
  exact h j (testBit_erase_iff.1 hj).1

/-- A union stays within the words because it cuts the other set off at the end of the last one. -/
theorem InWords.union (h : s.InWords) (t : BitSet) : (s.union t).InWords :=
  fun j hj ↦ (testBit_union_iff.1 hj).elim (h j) And.left

theorem InWords.difference (h : s.InWords) (t : BitSet) : (s.difference t).InWords :=
  fun j hj ↦ h j (testBit_difference_iff.1 hj).1

/-- **Two sets of one capacity that list the same indices are the same.** -/
theorem InWords.ext (hs : s.InWords) (ht : t.InWords) (hcapacity : s.capacity = t.capacity)
    (h : s.toList = t.toList) : s = t := by
  have hbits : s.bits = t.bits := by
    refine Nat.eq_of_testBit_eq fun i ↦ Bool.eq_iff_iff.2 ?_
    rw [← hs.mem_toList_iff, ← ht.mem_toList_iff, h]
  cases s
  cases t
  simp_all

/-- A change of the bits shows in the list. -/
theorem InWords.bits_ne_iff (hs : s.InWords) (ht : t.InWords)
    (hcapacity : t.capacity = s.capacity) : (t.bits != s.bits) = true ↔ t.toList ≠ s.toList := by
  rw [bne_iff_ne, not_iff_not]
  constructor
  · intro h
    rw [toList, toList, width_eq_of_capacity_eq hcapacity, h]
  · intro h
    rw [ht.ext hs hcapacity h]

/-- Emptiness speaks of the words. A set without members is not empty when it stores an index behind
its capacity. -/
theorem InWords.isEmpty_iff (h : s.InWords) : s.isEmpty = true ↔ s.toList = [] := by
  rw [isEmpty, beq_iff_eq]
  constructor
  · intro hbits
    simp [toList, hbits]
  · intro hnil
    refine Nat.eq_of_testBit_eq fun i ↦ ?_
    rw [Nat.zero_testBit, Bool.eq_false_iff]
    exact fun hi ↦ List.not_mem_nil (hnil ▸ h.mem_toList_iff.2 hi)

/-- What an insertion lists: an index at or behind the capacity is ignored. -/
theorem InWords.mem_insert_iff (h : s.InWords) (i j : Nat) :
    j ∈ (s.insert i).toList ↔ j ∈ s.toList ∨ j = i ∧ i < s.capacity := by
  rw [(h.insert i).mem_toList_iff, h.mem_toList_iff, testBit_insert_iff]

/-- An insertion reports a change when the list changes. -/
theorem InWords.adds_iff (h : s.InWords) (i : Nat) :
    s.adds i = true ↔ (s.insert i).toList ≠ s.toList := by
  have hadds : s.adds i = true ↔ i < s.capacity ∧ i ∉ s.toList := by
    rw [adds, Bool.and_eq_true, decide_eq_true_iff, h.mem_toList_iff, Bool.not_eq_true',
      Bool.not_eq_true]
  rw [hadds, ne_eq, toList_eq_iff]
  constructor
  · intro ⟨hi, hnot⟩ hsame
    exact hnot ((hsame i).1 ((h.mem_insert_iff i i).2 (.inr ⟨rfl, hi⟩)))
  · intro hdiffers
    by_contra hno
    refine hdiffers fun j ↦ (h.mem_insert_iff i j).trans (or_iff_left_of_imp ?_)
    exact fun ⟨hji, hi⟩ ↦ hji ▸ not_not.1 fun hnot ↦ hno ⟨hi, hnot⟩

/-- What can be asked of one set, and the change of a single index, in terms of its list. -/
structure Listed (s : BitSet) : Prop where
  ascending : s.toList.Pairwise (· < ·)
  lt_width : ∀ i ∈ s.toList, i < s.width
  contains_iff : ∀ i, s.contains i = true ↔ i ∈ s.toList ∧ i < s.capacity
  size_eq : s.size = {i | i ∈ s.toList}.ncard
  isEmpty_iff : s.isEmpty = true ↔ s.toList = []
  mem_insert_iff : ∀ i j, j ∈ (s.insert i).toList ↔ j ∈ s.toList ∨ j = i ∧ i < s.capacity
  mem_erase_iff : ∀ i j, j ∈ (s.erase i).toList ↔ j ∈ s.toList ∧ ¬(j = i ∧ i < s.capacity)
  adds_iff : ∀ i, s.adds i = true ↔ (s.insert i).toList ≠ s.toList

/-- What two sets have to do with each other, in terms of their lists. -/
structure ListedWith (s t : BitSet) : Prop where
  eq_iff : s = t ↔ s.capacity = t.capacity ∧ s.toList = t.toList
  mem_union_iff : ∀ i, i ∈ (s.union t).toList ↔ i ∈ s.toList ∨ i < s.width ∧ i ∈ t.toList
  mem_difference_iff : ∀ i, i ∈ (s.difference t).toList ↔ i ∈ s.toList ∧ i ∉ t.toList
  grows_iff : s.grows t = true ↔ (s.union t).toList ≠ s.toList
  shrinks_iff : s.shrinks t = true ↔ (s.difference t).toList ≠ s.toList

/-- The size counts the list, thus stored indices, not members. -/
theorem size_eq_ncard (s : BitSet) : s.size = {i | i ∈ s.toList}.ncard := by
  have hset : {i | i ∈ s.toList} = (s.toList.toFinset : Set Nat) := by
    ext i
    simp
  rw [hset, Set.ncard_coe_finset, List.toFinset_card_of_nodup s.toList_nodup, size]

/-- The operations on one set all speak of its list. -/
theorem InWords.listed (h : s.InWords) : s.Listed where
  ascending := s.toList_pairwise_lt
  lt_width i hi := (BitSet.mem_toList_iff.1 hi).1
  contains_iff i := by rw [BitSet.contains_iff, h.mem_toList_iff, and_comm]
  size_eq := s.size_eq_ncard
  isEmpty_iff := h.isEmpty_iff
  mem_insert_iff := h.mem_insert_iff
  mem_erase_iff i j := by
    rw [(h.erase i).mem_toList_iff, h.mem_toList_iff, testBit_erase_iff]
  adds_iff := h.adds_iff

/-- The operations on two sets all speak of their lists, whatever the two capacities are. -/
theorem InWords.listedWith (hs : s.InWords) (ht : t.InWords) : s.ListedWith t where
  eq_iff := by
    constructor
    · rintro rfl
      exact ⟨rfl, rfl⟩
    · exact fun ⟨hcapacity, hlist⟩ ↦ hs.ext ht hcapacity hlist
  mem_union_iff i := by
    rw [(hs.union t).mem_toList_iff, hs.mem_toList_iff, ht.mem_toList_iff, testBit_union_iff]
  mem_difference_iff i := by
    rw [(hs.difference t).mem_toList_iff, hs.mem_toList_iff, ht.mem_toList_iff,
      testBit_difference_iff]
  grows_iff := hs.bits_ne_iff (hs.union t) rfl
  shrinks_iff := hs.bits_ne_iff (hs.difference t) rfl

/-! ### Members -/

/-- A set that behaves as the set of its members, all of them below the capacity. -/
structure Tidy (s : BitSet) : Prop where
  lt_capacity : ∀ i ∈ s.toList, i < s.capacity
  ascending : s.toList.Pairwise (· < ·)
  mem_iff : ∀ i, i ∈ s.toList ↔ s.contains i = true
  size_eq : s.size = {i | s.contains i = true}.ncard
  isEmpty_iff : s.isEmpty = true ↔ ∀ i, s.contains i = false
  contains_insert_iff : ∀ i j, (s.insert i).contains j = true ↔
    s.contains j = true ∨ j = i ∧ i < s.capacity
  contains_erase_iff : ∀ i j, (s.erase i).contains j = true ↔ s.contains j = true ∧ j ≠ i
  adds_iff : ∀ i, s.adds i = true ↔ ∃ j, (s.insert i).contains j ≠ s.contains j

/-- A union with `t` would store an index of `t` in the words of `s` behind its capacity. -/
def Spills (s t : BitSet) : Prop :=
  ∃ i ∈ t.toList, s.capacity ≤ i ∧ i < s.width

/-- Two sets that are combined as the sets of their members. -/
structure TidyWith (s t : BitSet) : Prop where
  eq_iff : s.capacity = t.capacity → (s = t ↔ ∀ i, s.contains i = t.contains i)
  contains_union_iff : ∀ i, (s.union t).contains i = true ↔
    i < s.capacity ∧ (s.contains i = true ∨ t.contains i = true)
  contains_difference_iff : ∀ i, (s.difference t).contains i = true ↔
    s.contains i = true ∧ ¬t.contains i = true
  grows_iff : ¬s.Spills t → (s.grows t = true ↔ ∃ i, (s.union t).contains i ≠ s.contains i)
  shrinks_iff : s.shrinks t = true ↔ ∃ i, (s.difference t).contains i ≠ s.contains i

/-- Nothing is stored behind the capacity. -/
def Clear (s : BitSet) : Prop :=
  ∀ i ∈ s.toList, i < s.capacity

/-- In a clear set the list is the list of members. -/
theorem Listed.mem_iff_contains (h : s.Listed) (hclear : s.Clear) (i : Nat) :
    i ∈ s.toList ↔ s.contains i = true :=
  ((h.contains_iff i).trans (and_iff_left_of_imp (hclear i))).symm

/-- Where nothing is stored behind the capacity, lists differ exactly when members do. -/
theorem Listed.toList_ne_iff (hs : s.Listed) (ht : t.Listed) (hclear : s.Clear)
    (hclear' : t.Clear) : t.toList ≠ s.toList ↔ ∃ i, t.contains i ≠ s.contains i := by
  rw [ne_eq, toList_eq_iff, not_forall]
  refine exists_congr fun i ↦ not_iff_not.2 ?_
  rw [ht.mem_iff_contains hclear', hs.mem_iff_contains hclear]
  exact Bool.eq_iff_iff.symm

/-- An insertion cannot make a set unclear. -/
theorem Clear.insert (h : s.Clear) (hs : s.Listed) (i : Nat) : (s.insert i).Clear := by
  intro j hj
  rw [capacity_insert]
  exact ((hs.mem_insert_iff i j).1 hj).elim (h j) fun ⟨hji, hi⟩ ↦ hji ▸ hi

/-- Neither can an erasure. -/
theorem Clear.erase (h : s.Clear) (hs : s.Listed) (i : Nat) : (s.erase i).Clear := by
  intro j hj
  rw [capacity_erase]
  exact h j ((hs.mem_erase_iff i j).1 hj).1

/-- Neither can a difference, even with a set that is not clear itself. -/
theorem Clear.difference (h : s.Clear) (hst : s.ListedWith t) : (s.difference t).Clear :=
  fun i hi ↦ h i ((hst.mem_difference_iff i).1 hi).1

/-- **A union keeps the space behind the capacity clear exactly when it does not spill.** -/
theorem ListedWith.clear_union_iff (h : s.ListedWith t) :
    (s.union t).Clear ↔ s.Clear ∧ ¬s.Spills t := by
  constructor
  · intro hclear
    refine ⟨fun i hi ↦ hclear i ((h.mem_union_iff i).2 (.inl hi)), fun ⟨i, hi, hle, hlt⟩ ↦ ?_⟩
    exact absurd (hclear i ((h.mem_union_iff i).2 (.inr ⟨hlt, hi⟩))) (Nat.not_lt.2 hle)
  · intro ⟨hclear, hdry⟩ i hi
    rcases (h.mem_union_iff i).1 hi with hi | ⟨hlt, hi⟩
    · exact hclear i hi
    · exact Nat.lt_of_not_le fun hle ↦ hdry ⟨i, hi, hle, hlt⟩

/-- A clear set behaves as the set of its members. -/
theorem Clear.tidy (h : s.Clear) (hs : s.InWords) : s.Tidy := by
  have hlisted := hs.listed
  have hmem := hlisted.mem_iff_contains h
  exact {
    lt_capacity := h
    ascending := hlisted.ascending
    mem_iff := hmem
    size_eq := by simp only [hlisted.size_eq, hmem]
    isEmpty_iff := by
      rw [hlisted.isEmpty_iff, List.eq_nil_iff_forall_not_mem]
      simp only [hmem, Bool.not_eq_true]
    contains_insert_iff := fun i j ↦ by
      rw [← (hs.insert i).listed.mem_iff_contains (h.insert hlisted i), hlisted.mem_insert_iff,
        hmem]
    contains_erase_iff := fun i j ↦ by
      rw [← (hs.erase i).listed.mem_iff_contains (h.erase hlisted i), hlisted.mem_erase_iff, hmem]
      refine and_congr_right fun hj ↦ not_congr (and_iff_left_of_imp ?_)
      exact fun hji ↦ hji ▸ h j ((hmem j).2 hj)
    adds_iff := fun i ↦ (hlisted.adds_iff i).trans
      (hlisted.toList_ne_iff (hs.insert i).listed h (h.insert hlisted i)) }

/-- Two clear sets do so together. -/
theorem Clear.tidyWith (hs : s.Clear) (ht : t.Clear) (hsw : s.InWords) (htw : t.InWords) :
    s.TidyWith t := by
  have hlisted := hsw.listed
  have hmem := hlisted.mem_iff_contains hs
  have hmem' := htw.listed.mem_iff_contains ht
  have hwith := hsw.listedWith htw
  exact {
    eq_iff := fun hcapacity ↦ by
      rw [hwith.eq_iff, and_iff_right hcapacity, toList_eq_iff]
      refine forall_congr' fun i ↦ ?_
      rw [hmem, hmem']
      exact Bool.eq_iff_iff.symm
    contains_union_iff := fun i ↦ by
      rw [(hsw.union t).listed.contains_iff, hwith.mem_union_iff, hmem, hmem', capacity_union,
        and_comm]
      refine and_congr_right fun hi ↦ or_congr_right (and_iff_right ?_)
      exact lt_width_of_lt_capacity hi
    contains_difference_iff := fun i ↦ by
      rw [← (hsw.difference t).listed.mem_iff_contains (hs.difference hwith),
        hwith.mem_difference_iff, hmem, hmem']
    grows_iff := fun hdry ↦ hwith.grows_iff.trans
      (hlisted.toList_ne_iff (hsw.union t).listed hs (hwith.clear_union_iff.2 ⟨hs, hdry⟩))
    shrinks_iff := hwith.shrinks_iff.trans
      (hlisted.toList_ne_iff (hsw.difference t).listed hs (hs.difference hwith)) }

/-! ### Runs -/

/-- One change of a collection of numbered sets. -/
inductive Change where
  /-- Add a new set. -/
  | create (capacity : Nat)
  | insert (set index : Nat)
  | erase (set index : Nat)
  /-- Add a set to another one. -/
  | union (set other : Nat)
  /-- Take a set from another one. -/
  | difference (set other : Nat)
deriving DecidableEq, Repr

/-- The collection after a change. What names a set that does not exist changes nothing. -/
def Change.apply (sets : List BitSet) : Change → List BitSet
  | create capacity => sets ++ [empty capacity]
  | insert set index => sets.modify set (·.insert index)
  | erase set index => sets.modify set (·.erase index)
  | union set other => sets[other]?.elim sets fun t ↦ sets.modify set (·.union t)
  | difference set other => sets[other]?.elim sets fun t ↦ sets.modify set (·.difference t)

/-- The collection after some changes of the empty one. -/
def run (changes : List Change) : List BitSet :=
  changes.foldl Change.apply []

theorem run_append_singleton (changes : List Change) (c : Change) :
    run (changes ++ [c]) = c.apply (run changes) := by
  rw [run, List.foldl_append]
  rfl

/-- Where a set comes from that is there after a change. -/
inductive Change.Makes (sets : List BitSet) : Change → BitSet → Prop
  | kept {c : Change} {s : BitSet} : s ∈ sets → Makes sets c s
  | created {capacity : Nat} : Makes sets (.create capacity) (empty capacity)
  | inserted {set index : Nat} {s : BitSet} : sets[set]? = some s →
      Makes sets (.insert set index) (s.insert index)
  | erased {set index : Nat} {s : BitSet} : sets[set]? = some s →
      Makes sets (.erase set index) (s.erase index)
  | united {set other : Nat} {s t : BitSet} : sets[set]? = some s → sets[other]? = some t →
      Makes sets (.union set other) (s.union t)
  | reduced {set other : Nat} {s t : BitSet} : sets[set]? = some s → sets[other]? = some t →
      Makes sets (.difference set other) (s.difference t)

/-- A set after one place of a list has changed is an old one or the changed one. -/
theorem mem_modify {sets : List BitSet} {k : Nat} {f : BitSet → BitSet}
    (h : s ∈ sets.modify k f) : s ∈ sets ∨ ∃ t, sets[k]? = some t ∧ s = f t := by
  obtain ⟨n, hn⟩ := List.mem_iff_getElem?.1 h
  rw [List.getElem?_modify] at hn
  obtain ⟨t, ht, rfl⟩ := Option.map_eq_some_iff.1 hn
  split
  · next hkn => exact .inr ⟨t, hkn ▸ ht, rfl⟩
  · exact .inl (List.mem_of_getElem? ht)

/-- A set after a change was there before, or the change has made it. -/
theorem Change.makes_of_mem_apply {sets : List BitSet} {c : Change} (h : s ∈ c.apply sets) :
    c.Makes sets s := by
  cases c with
  | create capacity =>
    rcases List.mem_append.1 h with h | h
    · exact .kept h
    · rw [List.mem_singleton.1 h]
      exact .created
  | insert set index =>
    obtain h | ⟨t, ht, rfl⟩ := mem_modify h
    · exact .kept h
    · exact .inserted ht
  | erase set index =>
    obtain h | ⟨t, ht, rfl⟩ := mem_modify h
    · exact .kept h
    · exact .erased ht
  | union set other =>
    rw [Change.apply] at h
    rcases hother : sets[other]? with - | u
    · rw [hother] at h
      exact .kept h
    · rw [hother] at h
      obtain h | ⟨t, ht, rfl⟩ := mem_modify h
      · exact .kept h
      · exact .united ht hother
  | difference set other =>
    rw [Change.apply] at h
    rcases hother : sets[other]? with - | u
    · rw [hother] at h
      exact .kept h
    · rw [hother] at h
      obtain h | ⟨t, ht, rfl⟩ := mem_modify h
      · exact .kept h
      · exact .reduced ht hother

/-- The words bound what is stored after every run. -/
theorem run_inWords (changes : List Change) : ∀ s ∈ run changes, s.InWords := by
  induction changes using List.reverseRecOn with
  | nil => exact fun s hs ↦ absurd hs List.not_mem_nil
  | append_singleton changes c ih =>
    intro s hs
    rw [run_append_singleton] at hs
    cases Change.makes_of_mem_apply hs with
    | kept hold => exact ih s hold
    | created => exact empty_inWords _
    | inserted hold => exact (ih _ (List.mem_of_getElem? hold)).insert _
    | erased hold => exact (ih _ (List.mem_of_getElem? hold)).erase _
    | united hold _ => exact (ih _ (List.mem_of_getElem? hold)).union _
    | reduced hold _ => exact (ih _ (List.mem_of_getElem? hold)).difference _

/-- In the course of the changes `t` is added to `s`. -/
def Unites (changes : List Change) (s t : BitSet) : Prop :=
  ∃ before set other rest, changes = before ++ .union set other :: rest ∧
    (run before)[set]? = some s ∧ (run before)[other]? = some t

/-- No union spills in the course of the changes. -/
def Dry (changes : List Change) : Prop :=
  ∀ s t, Unites changes s t → ¬s.Spills t

/-- A union that a run has performed stays performed when the run goes on. -/
theorem Unites.append {changes : List Change} (h : Unites changes s t) (more : List Change) :
    Unites (changes ++ more) s t := by
  obtain ⟨before, set, other, rest, rfl, hs, ht⟩ := h
  exact ⟨before, set, other, rest ++ more, by simp, hs, ht⟩

/-- What has not spilled by the end has not spilled on the way. -/
theorem Dry.of_append {changes more : List Change} (h : Dry (changes ++ more)) : Dry changes :=
  fun s t hst ↦ h s t (hst.append more)

/-- **One change that does not spill keeps the space behind the capacities clear.** -/
theorem clear_of_makes {changes : List Change} {c : Change} (h : Dry (changes ++ [c]))
    (hclear : ∀ s ∈ run changes, s.Clear) (hs : c.Makes (run changes) s) : s.Clear := by
  have hwords := run_inWords changes
  cases hs with
  | kept hs => exact hclear s hs
  | created => exact fun i hi ↦ absurd hi (by simp [toList, empty])
  | inserted hs =>
    have hs := List.mem_of_getElem? hs
    exact (hclear _ hs).insert (hwords _ hs).listed _
  | erased hs =>
    have hs := List.mem_of_getElem? hs
    exact (hclear _ hs).erase (hwords _ hs).listed _
  | united hs ht =>
    have hdry := h _ _ ⟨changes, _, _, [], rfl, hs, ht⟩
    have hs := List.mem_of_getElem? hs
    have hwith := (hwords _ hs).listedWith (hwords _ (List.mem_of_getElem? ht))
    exact hwith.clear_union_iff.2 ⟨hclear _ hs, hdry⟩
  | reduced hs ht =>
    have hs := List.mem_of_getElem? hs
    exact (hclear _ hs).difference ((hwords _ hs).listedWith (hwords _ (List.mem_of_getElem? ht)))

/-- **As long as nothing spills, lists and members agree.** New sets are clear, and every change of
a dry run keeps them so. -/
theorem Dry.clear {changes : List Change} (h : Dry changes) : ∀ s ∈ run changes, s.Clear := by
  induction changes using List.reverseRecOn with
  | nil => exact fun s hs ↦ absurd hs List.not_mem_nil
  | append_singleton changes c ih =>
    intro s hs
    rw [run_append_singleton] at hs
    exact clear_of_makes h (ih h.of_append) (Change.makes_of_mem_apply hs)

/-- The result of a union is there after it. -/
theorem union_mem_run {before : List Change} {set other : Nat} (hs : (run before)[set]? = some s)
    (ht : (run before)[other]? = some t) : s.union t ∈ run (before ++ [.union set other]) := by
  rw [run_append_singleton, Change.apply, ht]
  refine List.mem_of_getElem? (i := set) ?_
  show ((run before).modify set (·.union t))[set]? = _
  rw [List.getElem?_modify_eq, hs]
  rfl

/-- **The space behind the capacities stays clear throughout a run if and only if no union
spills.** -/
theorem dry_iff {changes : List Change} :
    Dry changes ↔ ∀ before, before <+: changes → ∀ s ∈ run before, s.Clear := by
  constructor
  · rintro h before ⟨rest, rfl⟩
    exact h.of_append.clear
  · rintro h s t ⟨before, set, other, rest, rfl, hs, ht⟩
    have hwords := run_inWords before
    have hwith := (hwords s (List.mem_of_getElem? hs)).listedWith
      (hwords t (List.mem_of_getElem? ht))
    refine (hwith.clear_union_iff.1 (h (before ++ [.union set other]) ⟨rest, by simp⟩ _ ?_)).2
    exact union_mem_run hs ht

/-- A set with nothing behind its capacity does not spill into a set that is no smaller, nor into
one whose words are full. -/
theorem Clear.not_spills (h : t.Clear) (hle : t.capacity ≤ s.capacity ∨ s.capacity = s.width) :
    ¬s.Spills t := by
  intro ⟨i, hi, hcapacity, hwidth⟩
  have hlt := h i hi
  omega

/-- No union spills when every set taken over is at most as large as the receiving one, or when the
receiving one fills its last word. The sets of all other changes need no condition. -/
theorem dry_of_capacity_le {changes : List Change} (h : ∀ s t, Unites changes s t →
    t.capacity ≤ s.capacity ∨ s.capacity = s.width) : Dry changes := by
  induction changes using List.reverseRecOn with
  | nil =>
    rintro s t ⟨before, set, other, rest, heq, -⟩
    exact absurd heq (by simp)
  | append_singleton changes c ih =>
    have hdry : Dry changes := ih fun s t hst ↦ h s t (hst.append [c])
    intro s t hst
    have hle := h s t hst
    obtain ⟨before, set, other, rest, heq, hs, ht⟩ := hst
    refine Clear.not_spills ?_ hle
    refine dry_iff.1 hdry before ?_ t (List.mem_of_getElem? ht)
    -- The union is at the latest the last change, so what is before it is part of the rest.
    refine List.prefix_of_prefix_length_le ⟨_, heq.symm⟩ ⟨[c], rfl⟩ ?_
    have hlength := congrArg List.length heq
    simp only [List.length_append, List.length_cons, List.length_nil] at hlength
    omega

/-- **Bit sets behave as sets of numbers below their capacities as long as no union spills.** After
any changes the questions and the reports speak of the listed indices, with unions cut at the words
of the receiving set. If no union has spilled, these are the members, all below the capacity. The
lists stay below the capacities throughout a run only then. It is enough that no set is added to one
of smaller capacity, unless the words of that one are full. -/
theorem run_exact (changes : List Change) :
    (∀ s ∈ run changes, s.Listed ∧ ∀ t ∈ run changes, s.ListedWith t) ∧
    (Dry changes → ∀ s ∈ run changes, s.Tidy ∧ ∀ t ∈ run changes, s.TidyWith t) ∧
    (Dry changes ↔ ∀ before, before <+: changes → ∀ s ∈ run before, ∀ i ∈ s.toList,
      i < s.capacity) ∧
    ((∀ s t, Unites changes s t → t.capacity ≤ s.capacity ∨ s.capacity = s.width) →
      Dry changes) := by
  have hwords := run_inWords changes
  refine ⟨fun s hs ↦ ⟨(hwords s hs).listed, fun t ht ↦ ?_⟩, fun hdry s hs ↦ ?_, dry_iff,
    dry_of_capacity_le⟩
  · exact (hwords s hs).listedWith (hwords t ht)
  · have hclear := hdry.clear
    exact ⟨(hclear s hs).tidy (hwords s hs), fun t ht ↦
      (hclear s hs).tidyWith (hclear t ht) (hwords s hs) (hwords t ht)⟩

/-- A set is filled and added to a larger one. -/
def nested : List Change :=
  [.create 64, .create 10, .insert 1 3, .insert 1 12, .union 0 1]

theorem run_exact_nested : Dry nested ∧
    ∀ s ∈ run nested, s.Tidy ∧ ∀ t ∈ run nested, s.TidyWith t := by
  obtain ⟨-, htidy, hiff, -⟩ := run_exact nested
  have hbelow : ∀ before ∈ nested.inits, ∀ s ∈ run before, ∀ i ∈ s.toList, i < s.capacity := by
    decide
  have hdry : Dry nested := hiff.2 fun before hbefore ↦
    hbelow before ((List.mem_inits before nested).2 hbefore)
  exact ⟨hdry, htidy hdry⟩

/-- A union with a larger set stores an index behind the capacity. It is listed and counted, and the
union reports a change, but no member is added. -/
theorem listed_behind_capacity : ∃ s t, run [.create 10, .create 64, .insert 1 20] = [s, t] ∧
    (s.union t).capacity = 10 ∧ (s.union t).toList = [20] ∧ (s.union t).contains 20 = false ∧
    (s.union t).size = 1 ∧ (s.union t).isEmpty = false ∧ s.union t ≠ s ∧ s.grows t = true ∧
    ∀ i, (s.union t).contains i = s.contains i := by
  refine ⟨⟨10, 0⟩, ⟨64, 1 <<< 20⟩, by decide, by decide, by decide, by decide, by decide, by decide,
    by decide, by decide, fun i ↦ ?_⟩
  rcases Nat.lt_or_ge i 10 with hi | hi
  · revert i
    decide
  · rw [contains, contains, capacity_union, decide_eq_false (Nat.not_lt.2 hi), Bool.false_and,
      Bool.false_and]

end BitSet

end FlowGauge
