import FlowGauge.DataFlow.Liveness
import FlowGauge.Proofs.DataFlow.Chains

/-!
# What a block needs

Whether a variable is needed in front of a run of instructions is decided from the front: the first
instruction reads it, or does not write it and the rest needs it (`Liveness.Needs`). Everything that
the analysis of live variables computes inside a block says this in another way. The scan for
upward exposed reads and writes splits it into what the run needs by itself and what it lets through
from behind (`mem_foldl_scan_iff`, `needs_iff`), and the backward walk follows it instruction by
instruction (`mem_points_iff`).

The gen/kill problem works with the numbers of the variables in the list of all names. The set of
names behind a set of numbers (`mem_named_iff`) is all that the rest of the theory looks at: the
transfer of a block needs what the block needs (`mem_named_transfer_iff`).

## Propositions behind a run

`Needs` takes what is needed behind the run as a proposition and not as a set. So one notion serves
at the end of a block, where the proposition is that a successor needs the variable, and at the end
of a path, where it is that a read comes next.
-/

namespace FlowGauge

namespace Instruction

/-- The instruction reads the variable in one of its operands. -/
def ReadsName (i : Instruction) (v : String) : Prop :=
  ∃ position, i.Reads position v

theorem mem_uses_iff {i : Instruction} {v : String} :
    v ∈ i.uses.map Prod.fst ↔ i.ReadsName v := by
  rw [uses_eq_map_readOperands, List.map_map, List.mem_map]
  constructor
  · rintro ⟨⟨position, name, role⟩, hmem, rfl⟩
    exact ⟨position, (mem_readOperands_iff.1 hmem).1⟩
  · rintro ⟨position, hreads⟩
    exact ⟨(position, v, _), mem_readOperands_iff.2 ⟨hreads, rfl⟩, rfl⟩

end Instruction

namespace Liveness

variable {names : List String} {v : String}

/-! ### Variables as numbers -/

/-- A set of names as the set of their numbers. Names that have no number are lost. -/
theorem numbers_spec (hnames : names.Nodup) (s : NameSet) :
    (numbers names s).Fits names.length ∧ ∀ (i : Nat) (v : String), names[i]? = some v →
      ((numbers names s).contains i = true ↔ v ∈ s) := by
  have hmem : ∀ i, i ∈ s.toList.filterMap names.idxOf? ↔ ∃ v, v ∈ s ∧ names.idxOf? v = some i := by
    intro i
    simp only [List.mem_filterMap, Std.ExtTreeSet.mem_toList]
  have hlt : ∀ i ∈ s.toList.filterMap names.idxOf?, i < names.length := by
    intro i hi
    obtain ⟨v, -, hv⟩ := (hmem i).1 hi
    exact (List.idxOf?_eq_some_iff.1 hv).1
  obtain ⟨hfits, hcontains⟩ := BitSet.ofList_fits_and_contains hlt
  refine ⟨hfits, fun i v hi ↦ (hcontains i).trans ((hmem i).trans ⟨?_, fun hv ↦ ⟨v, hv, ?_⟩⟩)⟩
  · rintro ⟨w, hw, hidx⟩
    obtain ⟨hlt, hget, -⟩ := List.idxOf?_eq_some_iff.1 hidx
    rw [List.getElem?_eq_getElem hlt, hget] at hi
    exact Option.some.inj hi ▸ hw
  · obtain ⟨hlt, rfl⟩ := List.getElem?_eq_some_iff.1 hi
    refine List.idxOf?_eq_some_iff.2 ⟨hlt, rfl, fun j hj heq ↦ ?_⟩
    exact absurd ((List.Nodup.getElem_inj_iff hnames).1 heq) (Nat.ne_of_lt hj)

/-- **The names behind a set of numbers.** -/
theorem mem_named_iff {s : BitSet} (hs : s.Fits names.length) :
    v ∈ named names s ↔ ∃ i : Nat, names[i]? = some v ∧ s.contains i = true := by
  have htoList : ∀ i, i ∈ s.toList ↔ s.contains i = true := by
    intro i
    rw [BitSet.toList, List.mem_filter, List.mem_range, hs.contains_eq]
    refine and_iff_right_of_imp fun hi ↦ ?_
    exact Nat.lt_of_lt_of_le (hs.capacity_eq ▸ hs.lt_of_testBit i hi) s.le_width
  simp only [named, Std.ExtTreeSet.mem_ofList, List.contains_iff_mem, List.mem_filterMap, htoList]
  exact exists_congr fun i ↦ and_comm

/-! ### What a run of instructions needs -/

/-- The variable is needed in front of the instructions, when `out` says whether it is needed behind
them. -/
def Needs (v : String) (out : Prop) : List Instruction → Prop
  | [] => out
  | c :: code => c.ReadsName v ∨ ¬c.Writes v ∧ Needs v out code

/-- **A run needs a variable by itself, or lets it through from behind.** -/
theorem needs_iff {out : Prop} {code : List Instruction} :
    Needs v out code ↔ Needs v False code ∨ out ∧ ∀ c ∈ code, ¬c.Writes v := by
  induction code with
  | nil => simp [Needs]
  | cons c code ih =>
    rw [Needs, Needs, ih, List.forall_mem_cons, or_assoc]
    refine or_congr_right ?_
    rw [and_or_left]
    exact or_congr_right and_left_comm

/-- The more is needed behind a run, the more is needed in front of it. -/
theorem Needs.imp {out out' : Prop} (h : out → out') {code : List Instruction}
    (hneeds : Needs v out code) : Needs v out' code :=
  needs_iff.2 ((needs_iff.1 hneeds).imp_right fun hout ↦ ⟨h hout.1, hout.2⟩)

theorem needs_congr {out out' : Prop} (h : out ↔ out') {code : List Instruction} :
    Needs v out code ↔ Needs v out' code :=
  ⟨Needs.imp h.1, Needs.imp h.2⟩

/-- What a run needs by itself is read by one of its instructions. -/
theorem exists_reads_of_needs {code : List Instruction} (h : Needs v False code) :
    ∃ c ∈ code, c.ReadsName v := by
  induction code with
  | nil => exact h.elim
  | cons c code ih =>
    rcases h with hreads | ⟨-, hneeds⟩
    · exact ⟨c, List.mem_cons_self .., hreads⟩
    · obtain ⟨c', hc', hreads⟩ := ih hneeds
      exact ⟨c', List.mem_cons_of_mem c hc', hreads⟩

/-! ### The scan for exposed reads -/

/-- One step of the scan: a read is exposed unless a write stands before it in the block. -/
theorem mem_scan_iff (found : NameSet × NameSet) (c : Instruction) :
    (v ∈ (scan found c).1 ↔ v ∈ found.1 ∨ v ∉ found.2 ∧ c.ReadsName v) ∧
      (v ∈ (scan found c).2 ↔ v ∈ found.2 ∨ c.Writes v) := by
  have hexposed : v ∈ (c.uses.filter fun use ↦ !found.2.contains use.1).map Prod.fst ↔
      v ∉ found.2 ∧ c.ReadsName v := by
    rw [← Instruction.mem_uses_iff, List.mem_map, List.mem_map]
    simp only [List.mem_filter, Bool.not_eq_true', ← Bool.not_eq_true,
      Std.ExtTreeSet.contains_iff_mem]
    constructor
    · rintro ⟨use, ⟨hmem, hnot⟩, rfl⟩
      exact ⟨hnot, use, hmem, rfl⟩
    · rintro ⟨hnot, use, hmem, rfl⟩
      exact ⟨use, ⟨hmem, hnot⟩, rfl⟩
  constructor
  · rw [scan, Std.ExtTreeSet.mem_insertMany_list, List.contains_iff_mem]
    exact or_congr_right hexposed
  · rw [scan, Std.ExtTreeSet.mem_insertMany_list, List.contains_iff_mem, Option.mem_toList,
      ← Instruction.defined?_eq_some_iff]

/-- **The scan finds what the run needs by itself and what it writes.** -/
theorem mem_foldl_scan_iff (code : List Instruction) : ∀ found : NameSet × NameSet,
    (v ∈ (code.foldl scan found).1 ↔ v ∈ found.1 ∨ v ∉ found.2 ∧ Needs v False code) ∧
      (v ∈ (code.foldl scan found).2 ↔ v ∈ found.2 ∨ ∃ c ∈ code, c.Writes v) := by
  induction code with
  | nil => exact fun found ↦ ⟨by simp [Needs], by simp⟩
  | cons c code ih =>
    intro found
    obtain ⟨hreads, hwrites⟩ := mem_scan_iff (v := v) found c
    obtain ⟨hfirst, hsecond⟩ := ih (scan found c)
    rw [List.foldl_cons, hfirst, hsecond, hreads, hwrites, Needs, List.exists_mem_cons_iff]
    refine ⟨?_, or_assoc⟩
    rw [or_assoc, not_or, and_assoc, ← and_or_left]

/-! ### The backward walk -/

/-- One step of the backward walk. -/
theorem mem_beforeOf_iff {c : Instruction} {after : NameSet} :
    v ∈ beforeOf c after ↔ c.ReadsName v ∨ ¬c.Writes v ∧ v ∈ after := by
  have hrest : v ∈ c.defined?.elim after after.erase ↔ ¬c.Writes v ∧ v ∈ after := by
    rw [← Instruction.defined?_eq_some_iff]
    rcases c.defined? with - | w
    · simp
    · simp [Std.ExtTreeSet.mem_erase]
  rw [beforeOf, Std.ExtTreeSet.mem_insertMany_list, List.contains_iff_mem, hrest,
    Instruction.mem_uses_iff, or_comm]

/-- **In front of a run is live what the run needs.** -/
theorem mem_points_iff {last : NameSet} (code : List (Nat × Instruction)) :
    v ∈ (points code last).2 ↔ Needs v (v ∈ last) (code.map Prod.snd) := by
  induction code with
  | nil => exact Iff.rfl
  | cons p code ih =>
    show v ∈ beforeOf p.2 (points code last).2 ↔ _
    rw [mem_beforeOf_iff, ih]
    rfl

/-- The point of an instruction is taken in front of what follows it in the run. -/
theorem points_getElem? (last : NameSet) (code : List (Nat × Instruction)) : ∀ offset : Nat,
    (points code last).1[offset]? = (code[offset]?).map fun p ↦
      pointOf p.1 p.2 (points (code.drop (offset + 1)) last).2 := by
  induction code with
  | nil => exact fun _ ↦ rfl
  | cons p code ih =>
    intro offset
    rcases offset with - | offset
    · rfl
    · exact ih offset

/-! ### The problem of a graph -/

section Problem

variable {g : FlowGraph} {blocks : List Nat}

/-- The tracked names are those that instructions of the blocks read or write. -/
theorem mem_trackedNames_iff : v ∈ trackedNames g blocks ↔
    ∃ l c, (l, c) ∈ g.located blocks ∧ (c.ReadsName v ∨ c.Writes v) := by
  simp only [trackedNames, Std.ExtTreeSet.mem_ofList, List.contains_iff_mem, List.mem_flatMap,
    List.mem_append, Instruction.mem_uses_iff, Option.mem_toList,
    Instruction.defined?_eq_some_iff, Prod.exists]

/-- The instructions of a block. -/
def codeOf (g : FlowGraph) (b : Nat) : List Instruction :=
  (g.block? b).elim [] Block.code

theorem problem_fits (g : FlowGraph) (blocks : List Nat) (hnames : names.Nodup) :
    (problem g blocks names).Fits names.length := by
  constructor
  · intro s hs
    obtain ⟨found, -, rfl⟩ := List.mem_map.1 hs
    exact (numbers_spec hnames found.1).1
  · intro s hs
    obtain ⟨found, -, rfl⟩ := List.mem_map.1 hs
    exact (numbers_spec hnames found.2).1

/-- The gen set of a block is what it reads before writing, the kill set is what it writes. -/
theorem problem_getElem? (names : List String) {b : Nat} (hb : b ∈ blocks) (hlt : b < g.size) :
    (problem g blocks names).gen[b]? =
        some (numbers names ((codeOf g b).foldl scan (∅, ∅)).1) ∧
      (problem g blocks names).kill[b]? =
        some (numbers names ((codeOf g b).foldl scan (∅, ∅)).2) := by
  simp [problem, codeOf, List.getElem?_range hlt, hb]

/-- **The transfer of a block needs what the block needs.** All names that the block needs by itself
have to be in the list. -/
theorem mem_named_transfer_iff (hnames : names.Nodup) {b : Nat} (hb : b ∈ blocks)
    (hlt : b < g.size) (htracked : ∀ c ∈ codeOf g b, ∀ v, c.ReadsName v → v ∈ names)
    {s : BitSet} (hs : s.Fits names.length) :
    v ∈ named names ((problem g blocks names).transfer b s) ↔
      Needs v (v ∈ named names s) (codeOf g b) := by
  obtain ⟨hfits, hmem⟩ := (problem_fits g blocks hnames).transfer_spec b hs
  obtain ⟨hgen, hkill⟩ := problem_getElem? names hb hlt
  have hscan := mem_foldl_scan_iff (v := v) (codeOf g b) (∅, ∅)
  -- For a variable in the list, generated means needed by the block, and killed means written.
  have hnumber : ∀ i : Nat, names[i]? = some v →
      (((problem g blocks names).Gens b i ↔ Needs v False (codeOf g b)) ∧
        ((problem g blocks names).Kills b i ↔ ∃ c ∈ codeOf g b, c.Writes v)) := by
    intro i hi
    simp only [GenKill.Gens, GenKill.Kills, hgen, hkill, Option.some.injEq, exists_eq_left',
      (numbers_spec hnames _).2 i v hi, hscan.1, hscan.2, Std.ExtTreeSet.not_mem_empty, false_or,
      not_false_eq_true, true_and, and_self]
  rw [mem_named_iff hfits, mem_named_iff hs, needs_iff]
  constructor
  · rintro ⟨i, hi, hcontains⟩
    rcases (hmem i).1 hcontains with hgens | ⟨hheld, hnot⟩
    · exact Or.inl ((hnumber i hi).1.1 hgens)
    · refine Or.inr ⟨⟨i, hi, hheld⟩, fun c hc hw ↦ hnot ((hnumber i hi).2.2 ⟨c, hc, hw⟩)⟩
  · rintro (hneeds | ⟨⟨i, hi, hheld⟩, hfree⟩)
    · obtain ⟨c, hc, hreads⟩ := exists_reads_of_needs hneeds
      obtain ⟨i, hi⟩ := List.mem_iff_getElem?.1 (htracked c hc v hreads)
      exact ⟨i, hi, (hmem i).2 (Or.inl ((hnumber i hi).1.2 hneeds))⟩
    · refine ⟨i, hi, (hmem i).2 (Or.inr ⟨hheld, fun hkills ↦ ?_⟩)⟩
      obtain ⟨c, hc, hw⟩ := (hnumber i hi).2.1 hkills
      exact hfree c hc hw

end Problem

end Liveness

end FlowGauge
