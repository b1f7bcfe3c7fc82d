import FlowGauge.DataFlow.Reaching
import FlowGauge.Proofs.DataFlow.Solver

/-!
# Gen and kill sets replay a block

The definitions of the reached blocks are numbered, and the number of a definition is the bit that
stands for it. A definition replaces all definitions of its variable by itself (`define_spec`). The
gen set of a block replays the definitions of the block from nothing, and its kill set holds what
they replace; so the transfer of a block is the replay of its instructions (`transfer_eq_flow`).
That reduces the block-level problem to single instructions, where `after_spec` says what happens to
one definition.

## Why two readings of a block

The solver works with one gen set and one kill set for each block. Chains, on the other hand, are
found by going through a block instruction by instruction. Both start from the same list of all
definitions, but the first goes by numbers and the second looks numbers up by location. They agree
because no location defines twice (`Distinct`), which holds when no block is listed twice
(`definitions_distinct`).

Everything here is said of a list of blocks in any order, the reached blocks being one such list.
All sets have the number of definitions as their capacity, and every operation keeps it, so only
members are spoken of.
-/

namespace FlowGauge

namespace Reaching

variable {all : List Definition}

/-! ### Numbered definitions -/

/-- No location defines twice. -/
def Distinct (all : List Definition) : Prop :=
  all.Pairwise fun d e ↦ d.1 ≠ e.1

/-- A location has one number, so a definition is known by where it stands. -/
theorem Distinct.number_unique (h : Distinct all) {i j : Nat} {l : Location} {v w : String}
    (hi : all[i]? = some (l, v)) (hj : all[j]? = some (l, w)) : i = j := by
  obtain ⟨hi, hiv⟩ := List.getElem?_eq_some_iff.1 hi
  obtain ⟨hj, hjw⟩ := List.getElem?_eq_some_iff.1 hj
  have hne := List.pairwise_iff_getElem.1 h
  rcases Nat.lt_trichotomy i j with hlt | heq | hlt
  · exact absurd (by rw [hiv, hjw]) (hne i j hi hj hlt)
  · exact heq
  · exact absurd (by rw [hiv, hjw]) (hne j i hj hi hlt)

/-- A definition is found by its location. -/
theorem Distinct.findIdx?_eq (h : Distinct all) {id : Nat} {l : Location} {v : String}
    (hid : all[id]? = some (l, v)) : all.findIdx? (·.1 == l) = some id := by
  obtain ⟨hlt, heq⟩ := List.getElem?_eq_some_iff.1 hid
  refine List.findIdx?_eq_some_iff_getElem.2 ⟨hlt, by rw [heq]; exact beq_self_eq_true l, ?_⟩
  intro j hj hbeq
  have hj' : all[j]? = some (l, all[j].2) := by
    rw [List.getElem?_eq_getElem, ← beq_iff_eq.1 hbeq]
  exact absurd (h.number_unique hj' hid) (Nat.ne_of_lt hj)

/-- The numbered definitions of a variable are its definitions, each with its place in the list of
all. -/
theorem mem_numbered_iff {name : String} {d : Definition} {id : Nat} :
    (d, id) ∈ numbered all name ↔ all[id]? = some d ∧ d.2 = name := by
  rw [numbered, List.mem_filter, List.mem_zipIdx_iff_getElem?, beq_iff_eq]

/-- The set of the definitions of a variable, as bits. -/
theorem definitionsOf_spec (all : List Definition) (name : String) :
    (definitionsOf all name).Fits all.length ∧ ∀ i,
      (definitionsOf all name).contains i = true ↔ ∃ l, all[i]? = some (l, name) := by
  have hmem : ∀ i, i ∈ (numbered all name).map Prod.snd ↔ ∃ l, all[i]? = some (l, name) := by
    intro i
    rw [List.mem_map]
    constructor
    · rintro ⟨⟨⟨l, v⟩, _⟩, hd, rfl⟩
      obtain ⟨hget, rfl⟩ := mem_numbered_iff.1 hd
      exact ⟨l, hget⟩
    · rintro ⟨l, hget⟩
      exact ⟨((l, name), i), mem_numbered_iff.2 ⟨hget, rfl⟩, rfl⟩
  have hlt : ∀ i ∈ (numbered all name).map Prod.snd, i < all.length := by
    intro i hi
    obtain ⟨l, hget⟩ := (hmem i).1 hi
    exact (List.getElem?_eq_some_iff.1 hget).1
  obtain ⟨hfits, hcontains⟩ := BitSet.ofList_fits_and_contains hlt
  exact ⟨hfits, fun i ↦ (hcontains i).trans (hmem i)⟩

/-- **A definition replaces all definitions of its variable by itself.** -/
theorem define_spec {s : BitSet} (hs : s.Fits all.length) (name : String) {id : Nat}
    (hid : id < all.length) : (define all s name id).Fits all.length ∧ ∀ i,
      (define all s name id).contains i = true ↔
        i = id ∨ s.contains i = true ∧ ¬∃ l, all[i]? = some (l, name) := by
  obtain ⟨hfits, hmem⟩ := definitionsOf_spec all name
  have hrest := hs.difference (definitionsOf all name)
  refine ⟨hrest.insert id, fun i ↦ ?_⟩
  rw [define, hrest.contains_insert hid, hfits.contains_difference, hmem, or_comm]

/-! ### Replaying definitions -/

/-- Replay numbered definitions in order. -/
def defineAll (all : List Definition) (s : BitSet) (run : List (Definition × Nat)) : BitSet :=
  run.foldl (fun s d ↦ define all s d.1.2 d.2) s

/-- The variable of definition `i` is defined in the run. -/
def Redefines (all : List Definition) (run : List (Definition × Nat)) (i : Nat) : Prop :=
  ∃ d ∈ run, ∃ l, all[i]? = some (l, d.1.2)

/-- A variable is defined in a run by the first definition or by a later one. -/
theorem redefines_cons {d : Definition × Nat} {run : List (Definition × Nat)} {i : Nat} :
    Redefines all (d :: run) i ↔ (∃ l, all[i]? = some (l, d.1.2)) ∨ Redefines all run i := by
  simp only [Redefines, List.exists_mem_cons_iff]

/-- **A replay holds what it generates from nothing, and what it does not redefine.** -/
theorem defineAll_spec {run : List (Definition × Nat)} (hrun : ∀ d ∈ run, d.2 < all.length) :
    ∀ {s : BitSet}, s.Fits all.length → (defineAll all s run).Fits all.length ∧ ∀ i,
      (defineAll all s run).contains i = true ↔
        (defineAll all (.empty all.length) run).contains i = true ∨
          s.contains i = true ∧ ¬Redefines all run i := by
  induction run with
  | nil =>
    intro s hs
    refine ⟨hs, fun i ↦ ?_⟩
    simp [defineAll, Redefines]
  | cons d run ih =>
    intro s hs
    have hd : d.2 < all.length := hrun d (List.mem_cons_self ..)
    have ih' := @ih fun e he ↦ hrun e (List.mem_cons_of_mem d he)
    obtain ⟨hfits, hmem⟩ := define_spec hs d.1.2 hd
    obtain ⟨hfits₀, hmem₀⟩ := define_spec (BitSet.empty_fits all.length) d.1.2 hd
    refine ⟨(ih' hfits).1, fun i ↦ ?_⟩
    show (defineAll all (define all s d.1.2 d.2) run).contains i = true ↔
      (defineAll all (define all _ d.1.2 d.2) run).contains i = true ∨ _
    rw [(ih' hfits).2, (ih' hfits₀).2, hmem, hmem₀, redefines_cons, BitSet.contains_empty]
    simp only [Bool.false_eq_true, false_and, or_false, not_or, or_and_right, and_assoc, or_assoc]

/-- Uniting the definitions of all variables that a run defines yields what the run redefines, its
own definitions included. -/
theorem redefined_spec (run : List (Definition × Nat)) :
    ∀ {s : BitSet}, s.Fits all.length →
      (run.foldl (fun s d ↦ s.union (definitionsOf all d.1.2)) s).Fits all.length ∧ ∀ i,
        (run.foldl (fun s d ↦ s.union (definitionsOf all d.1.2)) s).contains i = true ↔
          s.contains i = true ∨ Redefines all run i := by
  induction run with
  | nil => exact fun hs ↦ ⟨hs, fun i ↦ by simp [Redefines]⟩
  | cons d run ih =>
    intro s hs
    obtain ⟨hfits, hmem⟩ := definitionsOf_spec all d.1.2
    obtain ⟨hrest, hcontains⟩ := ih (hs.union hfits)
    refine ⟨hrest, fun i ↦ (hcontains i).trans ?_⟩
    rw [hs.contains_union hfits, hmem, or_assoc, redefines_cons]

/-! ### The problem -/

/-- The numbered definitions of a block. -/
def inBlock (all : List Definition) (b : Nat) : List (Definition × Nat) :=
  all.zipIdx.filter fun d ↦ d.1.1.block == b

/-- Numbers are places in the list of all definitions. -/
theorem lt_length_of_mem_inBlock {b : Nat} {d : Definition × Nat} (h : d ∈ inBlock all b) :
    d.2 < all.length := by
  have hget := List.mem_zipIdx_iff_getElem?.1 (List.mem_filter.1 h).1
  exact (List.getElem?_eq_some_iff.1 hget).1

/-- The gen set of a block is the replay of its definitions from nothing. -/
theorem problem_gen_getElem? {size b : Nat} (hb : b < size) : (problem all size).gen[b]? =
    some (defineAll all (.empty all.length) (inBlock all b)) := by
  show ((List.range size).map _)[b]? = _
  rw [List.getElem?_map, List.getElem?_range hb]
  rfl

/-- The kill set of a block holds every definition of a variable that the block defines, also those
in the block itself: what it generates is added after the kill. -/
theorem problem_kill_getElem? {size b : Nat} (hb : b < size) : (problem all size).kill[b]? =
    some ((inBlock all b).foldl (fun s d ↦ s.union (definitionsOf all d.1.2))
      (.empty all.length)) := by
  show ((List.range size).map _)[b]? = _
  rw [List.getElem?_map, List.getElem?_range hb]
  rfl

/-- All sets of the problem have one capacity, the number of definitions. -/
theorem problem_fits (all : List Definition) (size : Nat) :
    (problem all size).Fits all.length := by
  have hempty := BitSet.empty_fits all.length
  constructor
  · intro s hs
    obtain ⟨b, -, rfl⟩ := List.mem_map.1 hs
    exact (defineAll_spec (fun d ↦ lt_length_of_mem_inBlock) hempty).1
  · intro s hs
    obtain ⟨b, -, rfl⟩ := List.mem_map.1 hs
    exact (redefined_spec (inBlock all b) hempty).1

/-- **The transfer of a block replays its definitions.** -/
theorem transfer_eq_defineAll {size b : Nat} (hb : b < size) {s : BitSet}
    (hs : s.Fits all.length) :
    (problem all size).transfer b s = defineAll all s (inBlock all b) := by
  obtain ⟨hfits, hmem⟩ := (problem_fits all size).transfer_spec b hs
  have hrun : ∀ d ∈ inBlock all b, d.2 < all.length := fun d ↦ lt_length_of_mem_inBlock
  obtain ⟨hfits', hmem'⟩ := defineAll_spec hrun hs
  obtain ⟨-, hkill⟩ := redefined_spec (inBlock all b) (BitSet.empty_fits all.length)
  refine hfits.ext hfits' fun i ↦ ?_
  rw [hmem, hmem', GenKill.Gens, GenKill.Kills, problem_gen_getElem? hb, problem_kill_getElem? hb]
  simp only [Option.some.injEq, exists_eq_left', hkill, BitSet.contains_empty, Bool.false_eq_true,
    false_or]

/-! ### Replaying instructions -/

section Instructions

variable {g : FlowGraph} {blocks : List Nat}

/-- The definitions of some blocks, block after block. -/
theorem definitions_eq_flatMap (g : FlowGraph) (blocks : List Nat) :
    definitions g blocks = blocks.flatMap fun b ↦ definitions g [b] := by
  rw [definitions, FlowGraph.located_eq_flatMap, List.filterMap_flatMap]
  rfl

/-- A definition is an instruction of one of the blocks that defines a variable. -/
theorem mem_definitions_iff {l : Location} {v : String} : (l, v) ∈ definitions g blocks ↔
    ∃ c, (l, c) ∈ g.located blocks ∧ c.defined? = some v := by
  rw [definitions, List.mem_filterMap]
  constructor
  · rintro ⟨⟨l', c⟩, hmem, hdef⟩
    obtain ⟨v', hv, heq⟩ := Option.map_eq_some_iff.1 hdef
    obtain ⟨rfl, rfl⟩ : l' = l ∧ v' = v := by simpa using heq
    exact ⟨c, hmem, hv⟩
  · rintro ⟨c, hmem, hv⟩
    exact ⟨(l, c), hmem, Option.map_eq_some_iff.2 ⟨v, hv, rfl⟩⟩

/-- Blocks that are listed once give distinct definitions. -/
theorem definitions_distinct (hnodup : blocks.Nodup) : Distinct (definitions g blocks) := by
  rw [Distinct, definitions, List.pairwise_filterMap]
  refine (FlowGraph.located_pairwise hnodup).imp fun {p q} hne d hd e he heq ↦ hne ?_
  obtain ⟨v, -, rfl⟩ := Option.map_eq_some_iff.1 hd
  obtain ⟨w, -, rfl⟩ := Option.map_eq_some_iff.1 he
  exact heq

/-- The definitions of a block are located in it. -/
theorem block_of_mem_definitions {b : Nat} {d : Definition} (h : d ∈ definitions g [b]) :
    d.1.block = b := by
  obtain ⟨c, hmem, -⟩ := mem_definitions_iff.1 (show (d.1, d.2) ∈ _ from h)
  exact (FlowGraph.located_singleton_pairwise g b).1 _ hmem

/-- The definitions of a listed block are found among all by their block. -/
theorem filter_definitions (hnodup : blocks.Nodup) {b : Nat} (hb : b ∈ blocks) :
    (definitions g blocks).filter (·.1.block == b) = definitions g [b] := by
  have hself : (definitions g [b]).filter (·.1.block == b) = definitions g [b] :=
    List.filter_eq_self.2 fun d hd ↦ beq_iff_eq.2 (block_of_mem_definitions hd)
  have hother : ∀ k, k ≠ b → (definitions g [k]).filter (·.1.block == b) = [] := fun k hk ↦
    List.filter_eq_nil_iff.2 fun d hd ↦ by rw [block_of_mem_definitions hd]; simpa using hk
  rw [definitions_eq_flatMap, List.filter_flatMap]
  induction blocks with
  | nil => exact absurd hb List.not_mem_nil
  | cons k blocks ih =>
    obtain ⟨hk, hnodup⟩ := List.nodup_cons.1 hnodup
    rw [List.flatMap_cons]
    rcases List.mem_cons.1 hb with rfl | hb
    · have hrest : blocks.flatMap (fun k ↦ (definitions g [k]).filter (·.1.block == b)) = [] :=
        List.flatMap_eq_nil_iff.2 fun l hl ↦ hother l fun heq ↦ hk (heq ▸ hl)
      rw [hself, hrest, List.append_nil]
    · rw [hother k fun heq ↦ hk (heq ▸ hb), List.nil_append, ih hnodup hb]

/-- The number of the definition at a location. -/
def number (all : List Definition) (l : Location) : Nat :=
  (all.findIdx? (·.1 == l)).getD 0

/-- Numbering by place and numbering by location are the same for distinct definitions. -/
theorem Distinct.zipIdx_eq (h : Distinct all) :
    all.zipIdx = all.map fun d ↦ (d, number all d.1) := by
  refine List.ext_getElem? fun i ↦ ?_
  rw [List.getElem?_zipIdx, List.getElem?_map, Nat.zero_add]
  rcases hi : all[i]? with - | ⟨l, v⟩
  · rfl
  · rw [Option.map_some, Option.map_some, number, h.findIdx?_eq hi, Option.getD_some]

/-- The numbered definitions of a block, in the order of its instructions. -/
theorem inBlock_eq (hnodup : blocks.Nodup) {b : Nat} (hb : b ∈ blocks) :
    inBlock (definitions g blocks) b =
      (definitions g [b]).map fun d ↦ (d, number (definitions g blocks) d.1) := by
  rw [inBlock, (definitions_distinct hnodup).zipIdx_eq, List.filter_map,
    ← filter_definitions hnodup hb]
  rfl

/-- The definitions that reach the end of a run of instructions. -/
def flow (all : List Definition) (s : BitSet) (code : List (Location × Instruction)) : BitSet :=
  code.foldl (fun s p ↦ after all s p.1 p.2) s

/-- **The definitions of a block are replayed by its instructions.** -/
theorem flow_eq_defineAll (hnodup : blocks.Nodup) {b : Nat} (hb : b ∈ blocks) (s : BitSet) :
    flow (definitions g blocks) s (g.located [b]) =
      defineAll (definitions g blocks) s (inBlock (definitions g blocks) b) := by
  have hlisted : ∀ l c name, (l, c) ∈ g.located [b] → c.defined? = some name →
      ∃ id : Nat, (definitions g blocks)[id]? = some (l, name) := by
    intro l c name hp hdef
    obtain rfl := (FlowGraph.located_singleton_pairwise g b).1 _ hp
    exact List.mem_iff_getElem?.1
      (mem_definitions_iff.2 ⟨c, FlowGraph.mem_located_iff.2 ⟨hb, hp⟩, hdef⟩)
  have hdistinct := definitions_distinct (g := g) hnodup
  rw [inBlock_eq hnodup hb]
  generalize definitions g blocks = all at hlisted hdistinct
  rw [definitions, defineAll, List.foldl_map, List.foldl_filterMap]
  refine List.foldl_ext _ _ _ fun s ⟨l, c⟩ hp ↦ ?_
  rcases hdef : c.defined? with - | name
  · simp only [after, hdef, Option.map_none]
  · obtain ⟨id, hid⟩ := hlisted l c name hp hdef
    simp only [after, hdef, Option.map_some, number, hdistinct.findIdx?_eq hid, Option.getD_some]

/-- The list says what the instruction at the location defines. -/
def Lists (all : List Definition) (l : Location) (c : Instruction) : Prop :=
  ∀ v, (l, v) ∈ all ↔ c.defined? = some v

/-- **What one instruction does to one definition.** Behind the instruction a definition is there if
it is the one made by the instruction, or if it was there before and the instruction does not define
its variable. -/
theorem after_spec (hdistinct : Distinct all) {l : Location} {c : Instruction}
    (hlists : Lists all l c) {s : BitSet} (hs : s.Fits all.length) :
    (after all s l c).Fits all.length ∧ ∀ (i : Nat) (d : Location) (v : String),
      all[i]? = some (d, v) → ((after all s l c).contains i = true ↔
        d = l ∨ s.contains i = true ∧ c.defined? ≠ some v) := by
  rw [after]
  rcases hdef : c.defined? with - | name
  · refine ⟨hs, fun i d v hi ↦ ?_⟩
    have hne : d ≠ l := by
      rintro rfl
      have hdef' := (hlists v).1 (List.mem_of_getElem? hi)
      rw [hdef] at hdef'
      exact absurd hdef' (by simp)
    simp [hne]
  · obtain ⟨id, hid⟩ := List.mem_iff_getElem?.1 ((hlists name).2 hdef)
    obtain ⟨hfits, hmem⟩ := define_spec hs name (List.getElem?_eq_some_iff.1 hid).1
    rw [hdistinct.findIdx?_eq hid]
    refine ⟨hfits, fun i d v hi ↦ ?_⟩
    have hsame : i = id ↔ d = l := by
      constructor
      · rintro rfl
        exact congrArg Prod.fst (Option.some.inj (hi.symm.trans hid))
      · rintro rfl
        exact hdistinct.number_unique hi hid
    have hvar : (∃ l', all[i]? = some (l', name)) ↔ some name = some v := by
      rw [hi]
      simp [eq_comm]
    rw [hmem, hsame, hvar]

/-- A replay of instructions keeps the capacity. -/
theorem flow_fits (hdistinct : Distinct all) {code : List (Location × Instruction)}
    (hcode : ∀ p ∈ code, Lists all p.1 p.2) :
    ∀ {s : BitSet}, s.Fits all.length → (flow all s code).Fits all.length := by
  induction code with
  | nil => exact fun hs ↦ hs
  | cons p code ih =>
    intro s hs
    have hp := after_spec hdistinct (hcode p (List.mem_cons_self ..)) hs
    exact ih (fun q hq ↦ hcode q (List.mem_cons_of_mem p hq)) hp.1

/-- Every instruction of the blocks is listed, if it defines anything. -/
theorem definitions_lists (hnodup : blocks.Nodup) {l : Location} {c : Instruction}
    (hmem : (l, c) ∈ g.located blocks) : Lists (definitions g blocks) l c := by
  intro v
  rw [mem_definitions_iff]
  constructor
  · rintro ⟨c', hmem', hdef⟩
    obtain rfl : c = c' := FlowGraph.located_unique hnodup hmem hmem'
    exact hdef
  · exact fun hdef ↦ ⟨c, hmem, hdef⟩

/-- **Transferring a set through a block is replaying its instructions.** -/
theorem transfer_eq_flow (hnodup : blocks.Nodup) {b : Nat} (hb : b ∈ blocks) (hsize : b < g.size)
    {s : BitSet} (hs : s.Fits (definitions g blocks).length) :
    (problem (definitions g blocks) g.size).transfer b s =
      flow (definitions g blocks) s (g.located [b]) := by
  rw [transfer_eq_defineAll hsize hs, flow_eq_defineAll hnodup hb]

end Instructions

end Reaching

end FlowGauge
