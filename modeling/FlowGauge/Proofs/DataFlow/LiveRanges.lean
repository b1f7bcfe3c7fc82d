import FlowGauge.Proofs.DataFlow.Liveness

/-!
# Precise live ranges are tight

A precise range is put together from two sources: the sites of a variable, which list the reached
instructions that write and read it, and the points before which it is live. Both come down to sets
of indices, and the ends of the range are the least and the greatest member of unions of these sets
(`LiveRange.Tight`).

The range of a variable that is never read ends at its first access. If such a variable could be
live at an earlier index, the range would go on behind its start for no reason. It cannot be live at
all: a path from a reached instruction to a read stays in reached blocks, so what is live at a
reached instruction is also read at one (`Routine.nonempty_readIndices`).

## Tight, and not more

A tight range holds every index at which the variable is written, read or live, and its two ends are
among these indices. No shorter range would do. It may hold indices at which the variable is not
live, between two stretches of its life, as a range has no gaps.

Indices of dead code do not count. A read that no path reaches lies outside of the range when it
comes behind everything that is reached.
-/

namespace FlowGauge

namespace Routine

variable {r : Routine} {v : String} {i : Nat}

/-! ### The indices that concern a variable -/

/-- The indices of the reached instructions that write the variable. -/
def writeIndices (r : Routine) (v : String) : Set Nat :=
  {i | r.ReachedAt i ∧ r.WritesAt v i}

/-- The indices of the reached instructions that read the variable. -/
def readIndices (r : Routine) (v : String) : Set Nat :=
  {i | r.ReachedAt i ∧ r.ReadsAt v i}

/-- The indices of the reached instructions before which the variable is live. -/
def liveIndices (r : Routine) (v : String) : Set Nat :=
  {i | r.ReachedAt i ∧ r.LiveBefore v i}

/-- Some reached instruction writes or reads the variable. -/
def Accessed (r : Routine) (v : String) : Prop :=
  (r.writeIndices v ∪ r.readIndices v).Nonempty

/-- **A variable that is live at a reached instruction is read at one.** -/
theorem nonempty_readIndices (h : (r.liveIndices v).Nonempty) : (r.readIndices v).Nonempty := by
  obtain ⟨i, hi, π, u, hhead, hchain, -, hreads⟩ := h
  obtain ⟨rest, hrest⟩ := List.head?_eq_some_iff.1 hhead
  have hu : u ∈ π ++ [u] := List.mem_append_right _ List.mem_cons_self
  rw [hrest] at hchain hu
  exact ⟨u, hi.of_mem_path hchain hu, hreads⟩

/-- What the instruction at a reached index does, told at its location. -/
theorem reachedAt_and_iff {P : Instruction → Prop} :
    (r.ReachedAt i ∧ ∃ c, r.instructions[i]? = some c ∧ P c) ↔
      ∃ l, (∃ c, r.Reached l c ∧ P c) ∧ l.index = i := by
  constructor
  · rintro ⟨⟨l, c, hreached, rfl⟩, c', hcode, hP⟩
    obtain rfl : c = c' := Option.some.inj (hreached.code.symm.trans hcode)
    exact ⟨l, ⟨c, hreached, hP⟩, rfl⟩
  · rintro ⟨l, ⟨c, hreached, hP⟩, rfl⟩
    exact ⟨⟨l, c, hreached, rfl⟩, c, hreached.code, hP⟩

end Routine

/-! ### Sites -/

namespace Reaching

open FlowGraph Routine

variable {r : Routine} {v : String} {l : Location}

/-- The reached instructions that write, with the variables they write. -/
def writesIn (r : Routine) : List (String × Location) :=
  ((ofRoutine r).located (ofRoutine r).reversePostorder).filterMap fun (location, i) ↦
    i.defined?.map fun name ↦ (name, location)

/-- The reached instructions that read, with the variables they read. -/
def usesIn (r : Routine) : List (String × Location) :=
  ((ofRoutine r).located (ofRoutine r).reversePostorder).flatMap fun (location, i) ↦
    i.uses.map fun (name, _) ↦ (name, location)

/-- The writes are those of reached instructions. -/
theorem mem_writesIn_iff : (v, l) ∈ writesIn r ↔ ∃ c, r.Reached l c ∧ c.Writes v := by
  simp only [writesIn, List.mem_filterMap, Prod.exists, mem_located_iff_reached,
    Option.map_eq_some_iff, Instruction.defined?_eq_some_iff, Prod.mk.injEq]
  constructor
  · rintro ⟨l, c, hreached, v, hwrites, rfl, rfl⟩
    exact ⟨c, hreached, hwrites⟩
  · rintro ⟨c, hreached, hwrites⟩
    exact ⟨l, c, hreached, v, hwrites, rfl, rfl⟩

/-- So are the reads. -/
theorem mem_usesIn_iff : (v, l) ∈ usesIn r ↔ ∃ c, r.Reached l c ∧ c.ReadsName v := by
  simp only [usesIn, List.mem_flatMap, Prod.exists, mem_located_iff_reached,
    ← Instruction.mem_uses_iff, List.mem_map, Prod.mk.injEq]
  constructor
  · rintro ⟨l, c, hreached, v, role, huse, rfl, rfl⟩
    exact ⟨c, hreached, v, role, huse, rfl⟩
  · rintro ⟨c, hreached, v, role, huse, rfl⟩
    exact ⟨l, c, hreached, v, role, huse, rfl, rfl⟩

/-- The locations listed with a variable. -/
def listedWith (pairs : List (String × Location)) (v : String) : LocationSet :=
  .ofList ((pairs.filter (·.1 == v)).map Prod.snd)

theorem mem_listedWith_iff {pairs : List (String × Location)} :
    l ∈ listedWith pairs v ↔ (v, l) ∈ pairs := by
  simp [listedWith, Std.ExtTreeSet.mem_ofList]

/-- Where a variable is written and read by reached instructions. -/
def sitesOf (r : Routine) (v : String) : Sites :=
  ⟨listedWith (writesIn r) v, listedWith (usesIn r) v⟩

/-- The indices of the locations of a set. -/
def indices (s : LocationSet) : Set Nat :=
  {i | ∃ l, l ∈ s ∧ l.index = i}

theorem indices_nonempty_iff {s : LocationSet} : (indices s).Nonempty ↔ ∃ l, l ∈ s :=
  ⟨fun ⟨_, l, hl, _⟩ ↦ ⟨l, hl⟩, fun ⟨l, hl⟩ ↦ ⟨l.index, l, hl, rfl⟩⟩

/-- The recorded definitions of a variable stand where it is written. -/
theorem indices_definitions (r : Routine) (v : String) :
    indices (sitesOf r v).definitions = r.writeIndices v := by
  ext i
  simp only [indices, sitesOf, mem_listedWith_iff, mem_writesIn_iff]
  exact reachedAt_and_iff.symm

/-- Its recorded uses stand where it is read. -/
theorem indices_uses (r : Routine) (v : String) :
    indices (sitesOf r v).uses = r.readIndices v := by
  ext i
  simp only [indices, sitesOf, mem_listedWith_iff, mem_usesIn_iff]
  exact reachedAt_and_iff.symm

/-- A variable has a record when a reached instruction accesses it. -/
theorem mem_names_iff : v ∈ (writesIn r ++ usesIn r).map Prod.fst ↔ r.Accessed v := by
  rw [Accessed, ← indices_definitions, ← indices_uses, Set.union_nonempty, indices_nonempty_iff,
    indices_nonempty_iff]
  simp only [sitesOf, mem_listedWith_iff, List.map_append, List.mem_append, List.mem_map,
    Prod.exists, exists_and_right, exists_eq_right]

/-- **The accessed variables have sites, and no others.** -/
theorem sites_getElem?_eq_some_iff {s : Sites} :
    (sites (ofRoutine r) (ofRoutine r).reversePostorder)[v]? = some s ↔
      r.Accessed v ∧ s = sitesOf r v := by
  have hget : (sites (ofRoutine r) (ofRoutine r).reversePostorder)[v]? =
      if v ∈ (writesIn r ++ usesIn r).map Prod.fst then some (sitesOf r v) else none :=
    getElem?_tabulate
  rw [hget, ← mem_names_iff]
  split
  · next hv => rw [and_iff_right hv, Option.some.injEq, eq_comm]
  · next hv => exact ⟨fun h ↦ absurd h (by simp), fun h ↦ absurd h.1 hv⟩

end Reaching

/-! ### Ends of a range -/

/-- Both ends of a range belong to it. -/
theorem LiveRange.contains_iff {range : LiveRange} {i : Nat} :
    range.contains i = true ↔ range.start ≤ i ∧ i ≤ range.stop := by
  simp [LiveRange.contains]

/-- The span is the tight hull of where a variable is written, read and live. -/
structure LiveRange.Tight (writes reads live : Set Nat) (range : LiveRange) : Prop where
  start_le_stop : range.start ≤ range.stop
  /-- The difference in the length is never refused. -/
  length_eq : range.length = Checked.add64 (range.stop - range.start) 1
  start_le : ∀ i ∈ writes, range.start ≤ i
  contains : ∀ i ∈ reads ∪ live, range.contains i = true
  isLeast_start : IsLeast (writes ∪ reads ∪ live) range.start
  isGreatest_stop : IsGreatest (insert range.start (reads ∪ live)) range.stop
  /-- No other such span starts later, nor ends earlier unless it ends before this one starts. -/
  minimal : ∀ other : LiveRange, (∀ i ∈ writes, other.start ≤ i) →
    (∀ i ∈ reads ∪ live, other.contains i = true) →
      other.start ≤ range.start ∧ (range.start ≤ other.stop → range.stop ≤ other.stop)

/-- **Both ends decide the rest.** -/
theorem LiveRange.Tight.of_ends {writes reads live : Set Nat} {range : LiveRange}
    (hstart : IsLeast (writes ∪ reads ∪ live) range.start)
    (hstop : IsGreatest (insert range.start (reads ∪ live)) range.stop) :
    range.Tight writes reads live := by
  have hle : range.start ≤ range.stop := hstop.2 (Set.mem_insert ..)
  refine ⟨hle, ?_, fun i hi ↦ hstart.2 (Or.inl (Or.inl hi)), fun i hi ↦ ?_, hstart, hstop, ?_⟩
  · rw [LiveRange.length, Checked.sub_eq_ok_iff.2 ⟨hle, rfl⟩]
    rfl
  · exact contains_iff.2 ⟨hstart.2 (Set.union_assoc .. ▸ Or.inr hi), hstop.2 (Or.inr hi)⟩
  · intro other hwrites hcovers
    constructor
    · rcases Set.union_assoc .. ▸ hstart.1 with hmem | hmem
      · exact hwrites _ hmem
      · exact (contains_iff.1 (hcovers _ hmem)).1
    · intro hfar
      rcases hstop.1 with heq | hmem
      · exact heq ▸ hfar
      · exact (contains_iff.1 (hcovers _ hmem)).2

namespace DataFlow

open FlowGraph Liveness Routine Reaching

variable {r : Routine} {v : String}

theorem least?_eq_some_iff {numbers : List Nat} {n : Nat} :
    least? numbers = some n ↔ IsLeast {m | m ∈ numbers} n := by
  have hmin : least? numbers = numbers.min? := by cases numbers <;> rfl
  rw [hmin, List.min?_eq_some_iff]
  rfl

theorem greatest?_eq_some_iff {numbers : List Nat} {n : Nat} :
    greatest? numbers = some n ↔ IsGreatest {m | m ∈ numbers} n := by
  have hmax : greatest? numbers = numbers.max? := by cases numbers <;> rfl
  rw [hmax, List.max?_eq_some_iff]
  rfl

/-- The least of a number and a list, when the number is the least of a set. -/
theorem isLeast_getD {s : Set Nat} {n : Nat} (h : IsLeast s n) (numbers : List Nat) :
    IsLeast (s ∪ {m | m ∈ numbers}) (((least? numbers).map (min n)).getD n) := by
  cases numbers with
  | nil => simpa [least?] using h
  | cons m rest => exact h.union (least?_eq_some_iff.1 rfl)

/-- The greatest member of a set that some numbers are added to. -/
theorem isGreatest_getD {s : Set Nat} {n : Nat} (h : IsGreatest s n) (numbers : List Nat) :
    IsGreatest (s ∪ {m | m ∈ numbers}) (((greatest? numbers).map (max n)).getD n) := by
  cases numbers with
  | nil => simpa [greatest?] using h
  | cons m rest => exact h.union (greatest?_eq_some_iff.1 rfl)

theorem indices_eq (s : LocationSet) : indices s = {i | i ∈ s.toList.map Location.index} := by
  ext i
  simp [indices, Std.ExtTreeSet.mem_toList]

/-- An accessed variable has a first access. -/
theorem exists_firstAccess? {s : Sites}
    (h : (indices s.definitions ∪ indices s.uses).Nonempty) : ∃ first,
      firstAccess? s = some first ∧ IsLeast (indices s.definitions ∪ indices s.uses) first := by
  have hset : indices s.definitions ∪ indices s.uses =
      {i | i ∈ (s.definitions.toList ++ s.uses.toList).map Location.index} := by
    ext i
    simp [indices_eq, List.map_append]
  rw [hset] at h ⊢
  obtain ⟨i, hi⟩ := h
  obtain ⟨n, rest, hlist⟩ := List.exists_cons_of_ne_nil (List.ne_nil_of_mem hi)
  have hfirst : firstAccess? s = some (rest.foldl min n) := by
    rw [firstAccess?, hlist, least?]
  exact ⟨_, hfirst, least?_eq_some_iff.1 hfirst⟩

/-- A variable without a last read is not read. -/
theorem indices_uses_eq_empty {s : Sites} (h : lastRead? s = none) : indices s.uses = ∅ := by
  rw [indices_eq]
  cases huses : s.uses.toList.map Location.index with
  | nil => simp
  | cons n rest =>
    rw [lastRead?, huses] at h
    cases h

/-- The last read of a variable is its greatest index of use. -/
theorem isGreatest_lastRead? {s : Sites} {last : Nat} (h : lastRead? s = some last) :
    IsGreatest (indices s.uses) last := by
  rw [indices_eq]
  exact greatest?_eq_some_iff.1 h

/-- **The range of an accessed variable is tight**, if the variable is read whenever it is live. -/
theorem exists_preciseRange? {s : Sites} {live : List Nat}
    (haccessed : (indices s.definitions ∪ indices s.uses).Nonempty)
    (hread : {i | i ∈ live}.Nonempty → (indices s.uses).Nonempty) :
    ∃ range, preciseRange? s live = some range ∧
      range.Tight (indices s.definitions) (indices s.uses) {i | i ∈ live} := by
  obtain ⟨first, hfirst, hleast⟩ := exists_firstAccess? haccessed
  refine ⟨_, by rw [preciseRange?, hfirst]; rfl, .of_ends (isLeast_getD hleast live) ?_⟩
  cases hlast : lastRead? s with
  | none =>
    -- Nothing is read, so nothing is live, and the range is the first access alone.
    have huses := indices_uses_eq_empty hlast
    obtain rfl : live = [] := by
      by_contra hlive
      obtain ⟨i, hi⟩ := List.exists_mem_of_ne_nil live hlive
      exact Set.not_nonempty_empty (huses ▸ hread ⟨i, hi⟩)
    rw [huses]
    simp [least?, greatest?]
  | some last =>
    rw [← Set.union_singleton]
    exact (isGreatest_getD (isGreatest_lastRead? hlast) live).union isGreatest_singleton

/-! ### The ranges of a routine -/

/-- The indices of the points before which a variable is live. -/
def livePoints (r : Routine) (v : String) : List Nat :=
  ((resultIn r).points.filter (·.before.contains v)).map LivePoint.index

/-- The live points of a variable are the indices before which it is live. -/
theorem setOf_livePoints (r : Routine) (v : String) :
    {i | i ∈ livePoints r v} = r.liveIndices v := by
  ext i
  simp only [livePoints, List.mem_map, List.mem_filter, Std.ExtTreeSet.contains_iff_mem]
  constructor
  · rintro ⟨p, ⟨hp, hbefore⟩, rfl⟩
    exact ⟨exists_point_iff.1 ⟨p, hp, rfl⟩, ((mem_points_spec hp).1 v).1 hbefore⟩
  · rintro ⟨hreached, hlive⟩
    obtain ⟨p, hp, rfl⟩ := exists_point_iff.2 hreached
    exact ⟨p, ⟨hp, ((mem_points_spec hp).1 v).2 hlive⟩, rfl⟩

/-- The range of a variable is made of its own sites and points; no other variable plays a part. -/
theorem liveRanges_getElem? (r : Routine) (v : String) :
    (analyze (ofRoutine r) .precise).liveRanges[v]? =
      (Reaching.sites (ofRoutine r) (ofRoutine r).reversePostorder)[v]?.bind fun s ↦
        preciseRange? s (livePoints r v) :=
  Std.ExtTreeMap.getElem?_filterMap'

/-- Live ranges that are tight for a routine: an accessed variable has one, and no other variable,
and it is the hull of where the variable is written, read and live. -/
structure TightRanges (r : Routine) (ranges : Std.ExtTreeMap String LiveRange) : Prop where
  mem_iff : ∀ v, v ∈ ranges ↔ r.Accessed v
  tight : ∀ (v : String) (range : LiveRange), ranges[v]? = some range →
    range.Tight (r.writeIndices v) (r.readIndices v) (r.liveIndices v)

/-- **Every accessed variable has a range, and it is tight.** -/
theorem exists_range (h : r.Accessed v) : ∃ range,
    (analyze (ofRoutine r) .precise).liveRanges[v]? = some range ∧
      range.Tight (r.writeIndices v) (r.readIndices v) (r.liveIndices v) := by
  have haccessed := h
  rw [Accessed, ← indices_definitions, ← indices_uses] at haccessed
  have hread : {i | i ∈ livePoints r v}.Nonempty → (indices (sitesOf r v).uses).Nonempty := by
    rw [setOf_livePoints, indices_uses]
    exact nonempty_readIndices
  obtain ⟨range, hrange, htight⟩ := exists_preciseRange? haccessed hread
  rw [indices_definitions, indices_uses, setOf_livePoints] at htight
  refine ⟨range, ?_, htight⟩
  rw [liveRanges_getElem?, sites_getElem?_eq_some_iff.2 ⟨h, rfl⟩, Option.bind_some, hrange]

/-- **Precise live ranges are tight**, for every routine. -/
theorem liveRanges_tight (r : Routine) :
    TightRanges r (analyze (ofRoutine r) .precise).liveRanges := by
  have hentry : ∀ v range, (analyze (ofRoutine r) .precise).liveRanges[v]? = some range →
      r.Accessed v := by
    intro v range hrange
    rw [liveRanges_getElem?] at hrange
    obtain ⟨s, hs, -⟩ := Option.bind_eq_some_iff.1 hrange
    exact (sites_getElem?_eq_some_iff.1 hs).1
  constructor
  · intro v
    rw [← Std.ExtTreeMap.isSome_getElem?_iff_mem, Option.isSome_iff_exists]
    refine ⟨fun ⟨range, hrange⟩ ↦ hentry v range hrange, fun h ↦ ?_⟩
    obtain ⟨range, hrange, -⟩ := exists_range h
    exact ⟨range, hrange⟩
  · intro v range hrange
    obtain ⟨range', hrange', htight⟩ := exists_range (hentry v range hrange)
    obtain rfl : range' = range := Option.some.inj (hrange'.symm.trans hrange)
    exact htight

/-- A read behind a return. -/
def lateRead : Routine where
  name := "late"
  instructions := [⟨0, .loadImmediate, [.localVar "x" .byte, .ofByte 1], none, none, none⟩,
    ⟨1, .ret, [], none, none, none⟩,
    ⟨2, .copy, [.localVar "y" .byte, .localVar "x" .byte], none, none, none⟩]

/-- **Dead reads are left out of a range.** -/
theorem not_contains_dead_read : lateRead.ReadsAt "x" 2 ∧ ∃ range,
    (analyze (ofRoutine lateRead) .precise).liveRanges["x"]? = some range ∧
      range.contains 2 = false := by
  have hreads : lateRead.ReadsAt "x" 2 := ⟨_, rfl, 1, fun _ _ ↦ by decide, _, rfl, rfl⟩
  have hrange : (analyze (ofRoutine lateRead) .precise).liveRanges["x"]? = some ⟨0, 0⟩ := by
    decide +kernel
  exact ⟨hreads, _, hrange, rfl⟩

end DataFlow

end FlowGauge
