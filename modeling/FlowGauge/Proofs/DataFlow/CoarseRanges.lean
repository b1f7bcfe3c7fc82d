import FlowGauge.Proofs.DataFlow.Interference
import FlowGauge.Proofs.DataFlow.LiveRanges
import Mathlib.Algebra.BigOperators.Group.Finset.Piecewise

/-!
# Coarse live ranges are an exact interval analysis

A coarse range goes from the first access of a variable to its last read, as far as reached blocks
access it. Two variables are in conflict when some index is in both ranges, and the peak is the
greatest number of ranges that hold one index (`DataFlow.coarse_exact`).

The peak is found by a sweep over the indices at which the number of ranges changes. The changes up
to an index add up to the number of ranges that hold it (`LiveRange.level_changes`), whatever starts
and ends meet at the index. Between two listed indices that number stays as it is, so the greatest
running sum of the sweep is the greatest of these numbers (`LiveRange.isGreatest_foldl_sumStep`).

## Changes that cancel

A range is counted from its start on and no longer counted from the index behind its end. When one
range starts where another has just ended, the two changes fall on one index and may cancel. The map
keeps one entry for the index, zero included, so the sweep sees only what is true after all changes
of an index have been made, never a state in the middle of them.
-/

namespace FlowGauge

namespace LiveRange

variable {r s : LiveRange} {spans : List LiveRange} {i : Nat}

/-- Overlapping is symmetric. -/
theorem overlaps_comm (r s : LiveRange) : r.overlaps s = s.overlaps r :=
  Bool.and_comm ..

/-- **Spans overlap when they share an index**, if they hold one at all. -/
theorem overlaps_iff (hr : r.start ≤ r.stop) (hs : s.start ≤ s.stop) :
    r.overlaps s = true ↔ ∃ i, r.contains i = true ∧ s.contains i = true := by
  simp only [overlaps, contains_iff, Bool.and_eq_true, decide_eq_true_eq]
  constructor
  · rintro ⟨hrs, hsr⟩
    exact ⟨max r.start s.start, by omega, by omega⟩
  · rintro ⟨i, hi, hi'⟩
    omega

/-! ### Changes up to an index -/

/-- The sum of the changes at all indices up to a given one. -/
def level (changes : Std.ExtTreeMap Nat Int) (i : Nat) : Int :=
  ∑ j ∈ Finset.range (i + 1), changes.getD j 0

/-- A shift at an index counts from that index on. -/
theorem level_shift (m : Std.ExtTreeMap Nat Int) (index : Nat) (delta : Int) :
    level (shift m index delta) i = level m i + if index ≤ i then delta else 0 := by
  have hget : ∀ j, (shift m index delta).getD j 0 =
      m.getD j 0 + if index = j then delta else 0 := by
    intro j
    rw [shift, Std.ExtTreeMap.getD_insert]
    by_cases hj : index = j
    · simp [hj]
    · simp [hj]
  simp only [level, hget, Finset.sum_add_distrib, Finset.sum_ite_eq, Finset.mem_range,
    Nat.lt_succ_iff]

/-- **The changes up to an index add up to the number of spans that hold it.** -/
theorem level_changes (h : ∀ s ∈ spans, s.start ≤ s.stop) (i : Nat) :
    level (changes spans) i = (spans.countP (·.contains i) : Nat) := by
  suffices hsum : ∀ m : Std.ExtTreeMap Nat Int,
      level (spans.foldl (fun m s ↦ shift (shift m s.start 1) (s.stop + 1) (-1)) m) i =
        level m i + (spans.countP (·.contains i) : Nat) by
    have hempty : level ∅ i = 0 := Finset.sum_eq_zero fun _ _ ↦ Std.ExtTreeMap.getD_empty
    rw [changes, hsum, hempty, zero_add]
  induction spans with
  | nil => simp
  | cons s spans ih =>
    obtain ⟨hs, hspans⟩ := List.forall_mem_cons.1 h
    intro m
    have hone : ((if s.contains i = true then 1 else 0 : Nat) : Int) =
        (if s.start ≤ i then 1 else 0) + if s.stop + 1 ≤ i then -1 else 0 := by
      simp only [contains_iff]
      split_ifs <;> omega
    rw [List.foldl_cons, ih hspans, level_shift, level_shift, List.countP_cons, Nat.cast_add, hone]
    omega

/-! ### The sweep -/

/-- The sum of the changes listed up to an index. -/
def height (entries : List (Nat × Int)) (i : Nat) : Int :=
  ((entries.filter (·.1 ≤ i)).map Prod.snd).sum

/-- The level of a map is read off the list of its entries. -/
theorem level_eq_height (m : Std.ExtTreeMap Nat Int) (i : Nat) : level m i = height m.toList i := by
  have hmem : ∀ j, j ∈ (m.toList.filter (·.1 ≤ i)).map Prod.fst ↔ j ∈ m ∧ j ≤ i := by
    intro j
    rw [← Std.ExtTreeMap.isSome_getElem?_iff_mem, Option.isSome_iff_exists]
    simp [Std.ExtTreeMap.mem_toList_iff_getElem?_eq_some]
  have hvalue : ∀ e ∈ m.toList.filter (·.1 ≤ i), e.2 = m.getD e.1 0 := by
    intro e he
    have hget := Std.ExtTreeMap.mem_toList_iff_getElem?_eq_some.1 (List.mem_of_mem_filter he)
    rw [Std.ExtTreeMap.getD_eq_getD_getElem?, hget, Option.getD_some]
  calc level m i
      = ∑ j ∈ ((m.toList.filter (·.1 ≤ i)).map Prod.fst).toFinset, m.getD j 0 := by
        refine (Finset.sum_subset (fun j hj ↦ ?_) fun j hj hnot ↦ ?_).symm
        · exact Finset.mem_range_succ_iff.2 ((hmem j).1 (List.mem_toFinset.1 hj)).2
        · refine Std.ExtTreeMap.getD_eq_fallback fun hj' ↦ hnot (List.mem_toFinset.2 ?_)
          exact (hmem j).2 ⟨hj', Finset.mem_range_succ_iff.1 hj⟩
    _ = height m.toList i := by
        rw [List.sum_toFinset _ (nodup_map_fst_filter m _), List.map_map, height,
          List.map_congr_left hvalue]
        rfl

theorem height_append (entries : List (Nat × Int)) (e : Nat × Int) (i : Nat) :
    height (entries ++ [e]) i = height entries i + if e.1 ≤ i then e.2 else 0 := by
  by_cases he : e.1 ≤ i <;> simp [height, he]

/-- Behind the last entry the height is the sum of all changes. -/
theorem height_eq_sum {entries : List (Nat × Int)} (h : ∀ e ∈ entries, e.1 ≤ i) :
    height entries i = (entries.map Prod.snd).sum := by
  rw [height, List.filter_eq_self.2 fun e he ↦ decide_eq_true (h e he)]

/-- The running sum, whatever the peak was. -/
theorem foldl_sumStep_fst (deltas : List Int) (sums : Int × Int) :
    (deltas.foldl sumStep sums).1 = sums.1 + deltas.sum := by
  induction deltas generalizing sums with
  | nil => simp
  | cons delta deltas ih =>
    rw [List.foldl_cons, ih, sumStep, List.sum_cons]
    omega

/-- A change behind all others adds one sum to those up to an index, the sum of them all. -/
theorem insert_range_height_append {entries : List (Nat × Int)} {e : Nat × Int}
    (h : ∀ e' ∈ entries, e'.1 < e.1) :
    insert 0 (Set.range (height (entries ++ [e]))) =
      insert 0 (Set.range (height entries)) ∪ {(entries.map Prod.snd).sum + e.2} := by
  have hall : ∀ i, e.1 ≤ i → height entries i = (entries.map Prod.snd).sum := fun i hi ↦
    height_eq_sum fun e' he' ↦ (h e' he').le.trans hi
  ext n
  simp only [Set.mem_insert_iff, Set.mem_range, Set.mem_union, Set.mem_singleton_iff, height_append]
  constructor
  · rintro (rfl | ⟨i, rfl⟩)
    · exact Or.inl (Or.inl rfl)
    · split
      · next hi => exact Or.inr (by rw [hall i hi])
      · exact Or.inl (Or.inr ⟨i, (add_zero _).symm⟩)
  · rintro ((rfl | ⟨i, rfl⟩) | rfl)
    · exact Or.inl rfl
    · -- From the new index on the old sum is the whole one, and so it is right before that index.
      rcases Nat.lt_or_ge i e.1 with hi | hi
      · exact Or.inr ⟨i, by rw [if_neg (Nat.not_le_of_lt hi), add_zero]⟩
      · rw [hall i hi]
        rcases Nat.eq_zero_or_pos e.1 with hzero | hpos
        · obtain rfl : entries = [] :=
            List.eq_nil_iff_forall_not_mem.2 fun e' he' ↦ Nat.not_lt_zero _ (hzero ▸ h e' he')
          exact Or.inl rfl
        · refine Or.inr ⟨e.1 - 1, ?_⟩
          rw [height_eq_sum fun e' he' ↦ Nat.le_sub_one_of_lt (h e' he'), if_neg (by omega),
            add_zero]
    · exact Or.inr ⟨e.1, by rw [hall e.1 le_rfl, if_pos le_rfl]⟩

/-- **The sweep finds the greatest sum of the changes up to an index**, or zero. -/
theorem isGreatest_foldl_sumStep {entries : List (Nat × Int)}
    (h : entries.Pairwise fun a b ↦ a.1 < b.1) :
    IsGreatest (insert 0 (Set.range (height entries)))
      ((entries.map Prod.snd).foldl sumStep (0, 0)).2 := by
  induction entries using List.reverseRecOn with
  | nil =>
    have hzero : height [] = fun _ ↦ 0 := rfl
    simp [hzero]
  | append_singleton entries e ih =>
    obtain ⟨hbefore, -, hlast⟩ := List.pairwise_append.1 h
    rw [insert_range_height_append fun e' he' ↦ hlast e' he' e List.mem_cons_self, List.map_append,
      List.foldl_append]
    have hsum := foldl_sumStep_fst (entries.map Prod.snd) (0, 0)
    rw [zero_add] at hsum
    rw [← hsum]
    exact (ih hbefore).union isGreatest_singleton

/-- **The peak is the greatest number of spans that hold one index.** -/
theorem isGreatest_peak (h : ∀ s ∈ spans, s.start ≤ s.stop) :
    IsGreatest (insert 0 (Set.range fun i ↦ spans.countP (·.contains i))) (peak spans) := by
  have hsorted : (changes spans).toList.Pairwise fun a b ↦ a.1 < b.1 :=
    Std.ExtTreeMap.ordered_keys_toList.imp Nat.compare_eq_lt.1
  obtain ⟨hmem, hle⟩ := isGreatest_foldl_sumStep hsorted
  have hheight : ∀ i, height (changes spans).toList i = (spans.countP (·.contains i) : Nat) :=
    fun i ↦ (level_eq_height ..).symm.trans (level_changes h i)
  rw [← values_eq_map_toList] at hmem hle
  have hpeak : (peak spans : Int) = ((changes spans).values.foldl sumStep (0, 0)).2 :=
    Int.toNat_of_nonneg (hle (Set.mem_insert ..))
  rw [← hpeak] at hmem hle
  constructor
  · rcases hmem with hzero | ⟨i, hi⟩
    · exact Or.inl (Int.ofNat_eq_zero.1 hzero)
    · exact Or.inr ⟨i, Int.ofNat_inj.1 ((hheight i).symm.trans hi)⟩
  · rintro n (rfl | ⟨i, rfl⟩)
    · exact Nat.zero_le _
    · exact Int.ofNat_le.1 ((hheight i).symm.trans_le (hle (Or.inr ⟨i, rfl⟩)))

example : peak [⟨0, 2⟩, ⟨2, 5⟩, ⟨3, 3⟩, ⟨6, 6⟩] = 2 := by decide +kernel

/-! ### From the first access to the last read -/

/-- The span goes from the first of some writes and reads to the last read. -/
structure FirstToLast (writes reads : Set Nat) (range : LiveRange) : Prop where
  isLeast_start : IsLeast (writes ∪ reads) range.start
  /-- A last read behind the start ends the span. -/
  stop_eq_last : ∀ last, IsGreatest reads last → range.start < last → range.stop = last
  /-- Without a read behind the start the span is the start alone. -/
  stop_eq_start : (∀ i ∈ reads, i ≤ range.start) → range.stop = range.start

theorem FirstToLast.of_ends {writes reads : Set Nat} (hstart : IsLeast (writes ∪ reads) r.start)
    (hstop : IsGreatest (insert r.start reads) r.stop) : r.FirstToLast writes reads := by
  refine ⟨hstart, fun last hlast hlt ↦ ?_, fun hreads ↦ ?_⟩
  · refine Nat.le_antisymm ?_ (hstop.2 (Or.inr hlast.1))
    rcases hstop.1 with heq | hmem
    · exact heq ▸ hlt.le
    · exact hlast.2 hmem
  · rcases hstop.1 with heq | hmem
    · exact heq
    · exact Nat.le_antisymm (hreads _ hmem) (hstop.2 (Set.mem_insert ..))

end LiveRange

namespace DataFlow

open FlowGraph Routine Reaching

variable {r : Routine} {v a b : String} {ranges : Std.ExtTreeMap String LiveRange} {i : Nat}

/-- **An accessed variable has a coarse range**, with these ends. -/
theorem exists_coarseRange? {s : Sites}
    (h : (indices s.definitions ∪ indices s.uses).Nonempty) : ∃ range,
      coarseRange? s = some range ∧
        IsLeast (indices s.definitions ∪ indices s.uses) range.start ∧
        IsGreatest (insert range.start (indices s.uses)) range.stop := by
  obtain ⟨first, hfirst, hleast⟩ := exists_firstAccess? h
  refine ⟨_, by rw [coarseRange?, hfirst]; rfl, hleast, ?_⟩
  cases hlast : lastRead? s with
  | none =>
    rw [indices_uses_eq_empty hlast]
    simp
  | some last =>
    rw [← Set.union_singleton]
    exact (isGreatest_lastRead? hlast).union isGreatest_singleton

/-- The coarse ranges of a routine. -/
def coarseRanges (r : Routine) : Std.ExtTreeMap String LiveRange :=
  rangesOf (Reaching.sites (ofRoutine r) (ofRoutine r).reversePostorder) fun _ s ↦ coarseRange? s

theorem coarseRanges_getElem?_eq_some_iff {range : LiveRange} :
    (coarseRanges r)[v]? = some range ↔
      r.Accessed v ∧ coarseRange? (sitesOf r v) = some range := by
  have hget : (coarseRanges r)[v]? =
      (Reaching.sites (ofRoutine r) (ofRoutine r).reversePostorder)[v]?.bind coarseRange? :=
    Std.ExtTreeMap.getElem?_filterMap'
  rw [hget, Option.bind_eq_some_iff]
  simp only [sites_getElem?_eq_some_iff]
  constructor
  · rintro ⟨s, ⟨haccessed, rfl⟩, hrange⟩
    exact ⟨haccessed, hrange⟩
  · rintro ⟨haccessed, hrange⟩
    exact ⟨_, ⟨haccessed, rfl⟩, hrange⟩

/-- **Every accessed variable has a range from its first access to its last read.** -/
theorem exists_coarse_ends (h : r.Accessed v) : ∃ range,
    coarseRange? (sitesOf r v) = some range ∧
      IsLeast (r.writeIndices v ∪ r.readIndices v) range.start ∧
      IsGreatest (insert range.start (r.readIndices v)) range.stop := by
  rw [Accessed, ← indices_definitions, ← indices_uses] at h
  obtain ⟨range, hrange, hends⟩ := exists_coarseRange? h
  rw [indices_definitions, indices_uses] at hends
  exact ⟨range, hrange, hends⟩

/-- **The accessed variables have coarse ranges, and no others.** -/
theorem mem_coarseRanges_iff : v ∈ coarseRanges r ↔ r.Accessed v := by
  rw [← Std.ExtTreeMap.isSome_getElem?_iff_mem, Option.isSome_iff_exists]
  constructor
  · rintro ⟨range, hrange⟩
    exact (coarseRanges_getElem?_eq_some_iff.1 hrange).1
  · intro h
    obtain ⟨range, hrange, -⟩ := exists_coarse_ends h
    exact ⟨range, coarseRanges_getElem?_eq_some_iff.2 ⟨h, hrange⟩⟩

/-- A range ends at its start when the variable is not read behind it. -/
theorem coarse_ends {range : LiveRange} (h : (coarseRanges r)[v]? = some range) :
    IsLeast (r.writeIndices v ∪ r.readIndices v) range.start ∧
    IsGreatest (insert range.start (r.readIndices v)) range.stop := by
  obtain ⟨haccessed, hrange⟩ := coarseRanges_getElem?_eq_some_iff.1 h
  obtain ⟨range', hrange', hends⟩ := exists_coarse_ends haccessed
  obtain rfl : range' = range := Option.some.inj (hrange'.symm.trans hrange)
  exact hends

theorem coarse_start_le_stop {range : LiveRange} (h : (coarseRanges r)[v]? = some range) :
    range.start ≤ range.stop :=
  (coarse_ends h).2.2 (Set.mem_insert ..)

/-- A coarse range holds indices of instructions only. -/
theorem lt_size_of_coarse_contains {range : LiveRange} (h : (coarseRanges r)[v]? = some range)
    (hi : range.contains i = true) : i < r.size := by
  obtain ⟨hstart, hstop⟩ := coarse_ends h
  have hreached : r.ReachedAt range.stop := by
    rcases hstop.1 with heq | hread
    · rw [heq]
      rcases hstart.1 with hwrite | hread
      · exact hwrite.1
      · exact hread.1
    · exact hread.1
  obtain ⟨l, c, hl, heq⟩ := hreached
  have hlt : l.index < r.size := (List.getElem?_eq_some_iff.1 hl.code).1
  exact (LiveRange.contains_iff.1 hi).2.trans_lt (heq ▸ hlt)

/-! ### Conflicts and the peak -/

/-- The variables whose range holds an index. -/
def holders (ranges : Std.ExtTreeMap String LiveRange) (i : Nat) : Set String :=
  {v | ∃ range, ranges[v]? = some range ∧ range.contains i = true}

/-- Counting names is counting ranges, as each name has one. -/
theorem ncard_holders (ranges : Std.ExtTreeMap String LiveRange) (i : Nat) :
    (holders ranges i).ncard = ranges.values.countP (·.contains i) := by
  have hset : holders ranges i =
      (((ranges.toList.filter (·.2.contains i)).map Prod.fst).toFinset : Set String) := by
    ext v
    simp [holders, Std.ExtTreeMap.mem_toList_iff_getElem?_eq_some]
  rw [hset, Set.ncard_coe_finset, List.toFinset_card_of_nodup (nodup_map_fst_filter ranges _),
    List.length_map, values_eq_map_toList, List.countP_map, List.countP_eq_length_filter]
  rfl

/-- Two members of a list are paired, in the order in which they are listed. -/
theorem mem_pairs_or_iff {α : Type} {x y : α} {items : List α} (hne : x ≠ y) :
    (x, y) ∈ pairs items ∨ (y, x) ∈ pairs items ↔ x ∈ items ∧ y ∈ items := by
  induction items with
  | nil => simp [pairs]
  | cons item items ih =>
    simp only [pairs, List.mem_append, List.mem_map, List.mem_cons, Prod.mk.injEq]
    grind

/-- The pairs of names whose ranges overlap. -/
def overlapping (ranges : Std.ExtTreeMap String LiveRange) : List (String × String) :=
  ((pairs ranges.toList).filter fun ((_, r), (_, s)) ↦ r.overlaps s).map
    fun ((a, _), (b, _)) ↦ (a, b)

/-- A pair is listed once, in one of the two orders. -/
theorem mem_overlapping_or_iff (hne : a ≠ b) :
    (a, b) ∈ overlapping ranges ∨ (b, a) ∈ overlapping ranges ↔
      ∃ ra rb, ranges[a]? = some ra ∧ ranges[b]? = some rb ∧ ra.overlaps rb = true := by
  have hmem : ∀ {x y}, (x, y) ∈ overlapping ranges ↔
      ∃ rx ry, ((x, rx), (y, ry)) ∈ pairs ranges.toList ∧ rx.overlaps ry = true := by
    intro x y
    simp [overlapping]
  have hpair : ∀ ra rb, ((a, ra), (b, rb)) ∈ pairs ranges.toList ∨
      ((b, rb), (a, ra)) ∈ pairs ranges.toList ↔
        ranges[a]? = some ra ∧ ranges[b]? = some rb := by
    intro ra rb
    rw [mem_pairs_or_iff fun heq ↦ hne (congrArg Prod.fst heq),
      Std.ExtTreeMap.mem_toList_iff_getElem?_eq_some,
      Std.ExtTreeMap.mem_toList_iff_getElem?_eq_some]
  simp only [hmem, ← and_assoc, ← hpair]
  constructor
  · rintro (⟨ra, rb, hpair, hoverlap⟩ | ⟨rb, ra, hpair, hoverlap⟩)
    · exact ⟨ra, rb, Or.inl hpair, hoverlap⟩
    · exact ⟨ra, rb, Or.inr hpair, LiveRange.overlaps_comm .. ▸ hoverlap⟩
  · rintro ⟨ra, rb, hpair | hpair, hoverlap⟩
    · exact Or.inl ⟨ra, rb, hpair, hoverlap⟩
    · exact Or.inr ⟨rb, ra, hpair, LiveRange.overlaps_comm .. ▸ hoverlap⟩

/-- The conflicts of a coarse analysis are the overlapping pairs, between the accessed variables. -/
theorem coarse_interference (r : Routine) : (analyze (ofRoutine r) .coarse).interference =
    graphOf (Reaching.sites (ofRoutine r) (ofRoutine r).reversePostorder).keys
      (overlapping (coarseRanges r)) := by
  simp only [analyze, coarseRanges, overlapping]

/-- Its peak is the peak of its ranges. -/
theorem coarse_maxLive (r : Routine) :
    (analyze (ofRoutine r) .coarse).maxLive = LiveRange.peak (coarseRanges r).values := by
  simp only [analyze, coarseRanges]

/-- **Two variables are in conflict when some index of the routine lies in both ranges.** -/
theorem coarse_interferes_iff (hne : a ≠ b) :
    (analyze (ofRoutine r) .coarse).interference.interferes a b = true ↔
      ∃ i < r.size, a ∈ holders (coarseRanges r) i ∧ b ∈ holders (coarseRanges r) i := by
  rw [coarse_interference, interferes_graphOf_iff hne, mem_overlapping_or_iff hne]
  constructor
  · rintro ⟨ra, rb, ha, hb, hoverlap⟩
    obtain ⟨i, hia, hib⟩ :=
      (LiveRange.overlaps_iff (coarse_start_le_stop ha) (coarse_start_le_stop hb)).1 hoverlap
    exact ⟨i, lt_size_of_coarse_contains ha hia, ⟨ra, ha, hia⟩, rb, hb, hib⟩
  · rintro ⟨i, -, ⟨ra, ha, hia⟩, rb, hb, hib⟩
    refine ⟨ra, rb, ha, hb, ?_⟩
    exact (LiveRange.overlaps_iff (coarse_start_le_stop ha) (coarse_start_le_stop hb)).2
      ⟨i, hia, hib⟩

/-- **The peak is the greatest number of ranges at one index**, taken over all indices of the
routine. -/
theorem isGreatest_coarse_maxLive (r : Routine) :
    IsGreatest (insert 0 {n | ∃ i < r.size, n = (holders (coarseRanges r) i).ncard})
      (analyze (ofRoutine r) .coarse).maxLive := by
  have hproper : ∀ range ∈ (coarseRanges r).values, range.start ≤ range.stop := by
    intro range hrange
    rw [values_eq_map_toList] at hrange
    obtain ⟨⟨v, range⟩, hentry, rfl⟩ := List.mem_map.1 hrange
    exact coarse_start_le_stop (Std.ExtTreeMap.mem_toList_iff_getElem?_eq_some.1 hentry)
  rw [coarse_maxLive]
  obtain ⟨hmem, hle⟩ := LiveRange.isGreatest_peak hproper
  simp only [← ncard_holders] at hmem hle
  constructor
  · rcases hmem with hzero | ⟨i, hi⟩
    · exact Or.inl hzero
    · -- An index that no range holds need not be that of an instruction, but it counts zero.
      rcases (holders (coarseRanges r) i).eq_empty_or_nonempty with hempty | ⟨v, range, hv, hheld⟩
      · left
        rw [← hi]
        simp [hempty]
      · exact Or.inr ⟨i, lt_size_of_coarse_contains hv hheld, hi.symm⟩
  · rintro n (rfl | ⟨i, -, rfl⟩)
    · exact Nat.zero_le _
    · exact hle (Or.inr ⟨i, rfl⟩)

/-- A data-flow summary that is an interval analysis of a routine. -/
structure IntervalExact (r : Routine) (d : DataFlow) : Prop where
  /-- The accessed variables have ranges, and no others. -/
  mem_iff : ∀ v, v ∈ d.liveRanges ↔ r.Accessed v
  /-- A range goes from the first access to the last read in a reached block. -/
  firstToLast : ∀ (v : String) (range : LiveRange), d.liveRanges[v]? = some range →
    range.FirstToLast (r.writeIndices v) (r.readIndices v)
  /-- Two variables interfere when their ranges share the index of an instruction. -/
  interferes_iff : ∀ a b, a ≠ b → (d.interference.interferes a b = true ↔
    ∃ i < r.size, a ∈ holders d.liveRanges i ∧ b ∈ holders d.liveRanges i)
  /-- The peak is the greatest number of ranges that hold the index of one instruction. -/
  isGreatest_maxLive :
    IsGreatest (insert 0 {n | ∃ i < r.size, n = (holders d.liveRanges i).ncard}) d.maxLive

/-- **Coarse data flow is an exact interval analysis**, for every routine. -/
theorem coarse_exact (r : Routine) : IntervalExact r (analyze (ofRoutine r) .coarse) where
  mem_iff _ := mem_coarseRanges_iff
  firstToLast _ _ h := .of_ends (coarse_ends h).1 (coarse_ends h).2
  interferes_iff _ _ hne := coarse_interferes_iff hne
  isGreatest_maxLive := isGreatest_coarse_maxLive r

end DataFlow

end FlowGauge
