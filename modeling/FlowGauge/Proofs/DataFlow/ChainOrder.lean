import FlowGauge.Proofs.DataFlow.Chains

/-!
# The order of the chains

Chains are listed block by block in reverse postorder, and inside a block by ascending index
(`located_listed`). Blocks are numbered in the order of the instructions, but reverse postorder
does not follow the numbers: of two branches that do not meet, the later one comes first. So the
chains are in the order of the instructions exactly when, of the blocks that have chains at all,
none comes before one with a smaller number (`pairwise_index_iff`).

The condition is about blocks with chains and not about all blocks: blocks that define and read
nothing may stand in any order. It is also about blocks and not about chains, so that it can be read
off the numbers of a graph without computing any chain.

Writes and reads are treated alike. What differs is that one instruction has one definition but may
have several reads, which are listed at the same location one after the other.
-/

namespace FlowGauge

/-- Of two entries of a list, one comes first. -/
theorem rel_or_rel_of_pairwise {α : Type} {R : α → α → Prop} {entries : List α} {a b : α}
    (h : entries.Pairwise R) (ha : a ∈ entries) (hb : b ∈ entries) (hne : a ≠ b) :
    R a b ∨ R b a := by
  have hsymm : Std.Symm fun a b ↦ R a b ∨ R b a := ⟨fun _ _ ↦ Or.symm⟩
  have hboth : entries.Pairwise fun a b ↦ R a b ∨ R b a := h.imp Or.inl
  exact hboth.forall ha hb hne

/-- One location is listed before another when blocks are taken in the given order. -/
def Location.ListedBefore (order : List BlockId) (a b : Location) : Prop :=
  order.idxOf a.block < order.idxOf b.block ∨ a.block = b.block ∧ a.index < b.index

/-- Of the blocks with a property, none comes before one with a smaller number. -/
def AscendsOn (order : List BlockId) (P : BlockId → Prop) : Prop :=
  ∀ b c, P b → P c → order.idxOf b < order.idxOf c → b < c

namespace FlowGraph

/-- **Located instructions are listed block by block, and inside a block by ascending index.** -/
theorem located_listed (g : FlowGraph) {order : List BlockId} (hnodup : order.Nodup) :
    (g.located order).Pairwise fun p q ↦ p.1.ListedBefore order q.1 := by
  rw [located_eq_flatMap, List.pairwise_flatMap]
  constructor
  · intro k _
    obtain ⟨hblock, hindex⟩ := located_singleton_pairwise g k
    exact hindex.imp_of_mem fun hp hq hlt ↦
      Or.inr ⟨(hblock _ hp).trans (hblock _ hq).symm, hlt⟩
  · refine (List.pairwise_iff_getElem.2 fun i j hi hj hij ↦ ?_ :
      order.Pairwise fun k l ↦ order.idxOf k < order.idxOf l).imp fun {k l} hkl p hp q hq ↦ ?_
    · rwa [hnodup.idxOf_getElem, hnodup.idxOf_getElem]
    · refine Or.inl ?_
      rwa [(located_singleton_pairwise g k).1 p hp, (located_singleton_pairwise g l).1 q hq]

end FlowGraph

namespace Routine

open FlowGraph

variable {r : Routine} {l l' : Location}

/-- The location of an instruction in a reached block. -/
def Locates (r : Routine) (l : Location) : Prop :=
  ∃ c, r.Reached l c

/-- Blocks are numbered in the order of the instructions. -/
theorem Locates.index_lt (h : r.Locates l) (h' : r.Locates l') (hlt : l.block < l'.block) :
    l.index < l'.index := by
  obtain ⟨c, hreached⟩ := h
  obtain ⟨c', hreached'⟩ := h'
  obtain ⟨b, hb, -, hstop⟩ := hreached.inside
  obtain ⟨b', hb', hstart, -⟩ := hreached'.inside
  have := stop_le_start (cut_of_getElem? hb) (cut_of_getElem? hb') hlt
  omega

/-- **Of two locations, the one that is listed first has the smaller index unless its block has the
greater number.** -/
theorem Locates.index_lt_iff {order : List BlockId} (h : r.Locates l) (h' : r.Locates l')
    (hlisted : l.ListedBefore order l') : l.index < l'.index ↔ l.block ≤ l'.block := by
  rcases Nat.lt_trichotomy l.block l'.block with hlt | heq | hgt
  · exact ⟨fun _ ↦ Nat.le_of_lt hlt, fun _ ↦ h.index_lt h' hlt⟩
  · refine ⟨fun _ ↦ Nat.le_of_eq heq, fun _ ↦ ?_⟩
    rcases hlisted with hbefore | hinside
    · exact absurd hbefore (heq ▸ Nat.lt_irrefl _)
    · exact hinside.2
  · have hindex := h'.index_lt h hgt
    exact ⟨fun hlt ↦ absurd hlt (Nat.lt_asymm hindex), fun hle ↦ absurd hgt (Nat.not_lt.2 hle)⟩

/-- In a list in the order of the instructions, the blocks that come first have the smaller
indices. -/
theorem index_le_of_pairwise {order : List BlockId} {locations : List Location}
    (hlisted : locations.Pairwise fun a b ↦ a = b ∨ a.ListedBefore order b)
    (hsorted : locations.Pairwise fun a b ↦ a.index ≤ b.index) (hl : l ∈ locations)
    (hl' : l' ∈ locations) (hbefore : order.idxOf l.block < order.idxOf l'.block) :
    l.index ≤ l'.index := by
  have hne : l ≠ l' := fun heq ↦ Nat.lt_irrefl _ (heq ▸ hbefore)
  rcases rel_or_rel_of_pairwise (hlisted.and hsorted) hl hl' hne with h | h
  · exact h.2
  · -- The list would have `l'` first, but then its block does not come last.
    rcases h.1 with rfl | hafter | ⟨heq, -⟩
    · exact absurd rfl hne
    · exact absurd hbefore (Nat.lt_asymm hafter)
    · exact absurd hbefore (heq ▸ Nat.lt_irrefl _)

/-- **A list of locations is in the order of the instructions exactly when its blocks come by
ascending number.** -/
theorem pairwise_index_iff {order : List BlockId} {locations : List Location}
    (hlocates : ∀ l ∈ locations, r.Locates l)
    (hlisted : locations.Pairwise fun a b ↦ a = b ∨ a.ListedBefore order b) :
    (locations.Pairwise fun a b ↦ a.index ≤ b.index) ↔
      AscendsOn order fun k ↦ ∃ l ∈ locations, l.block = k := by
  constructor
  · rintro hsorted _ _ ⟨a, ha, rfl⟩ ⟨b, hb, rfl⟩ hbefore
    have hle := index_le_of_pairwise hlisted hsorted ha hb hbefore
    rcases Nat.lt_trichotomy a.block b.block with hlt | heq | hgt
    · exact hlt
    · exact absurd hbefore (heq ▸ Nat.lt_irrefl _)
    · exact absurd hle (Nat.not_le.2 ((hlocates b hb).index_lt (hlocates a ha) hgt))
  · refine fun hascends ↦ hlisted.imp_of_mem fun {a b} ha hb hab ↦ ?_
    rcases hab with rfl | hab
    · exact Nat.le_refl _
    · refine Nat.le_of_lt (((hlocates a ha).index_lt_iff (hlocates b hb) hab).2 ?_)
      rcases hab with hbefore | ⟨heq, -⟩
      · exact Nat.le_of_lt (hascends _ _ ⟨a, ha, rfl⟩ ⟨b, hb, rfl⟩ hbefore)
      · exact Nat.le_of_eq heq

/-- A list without repetitions is then strictly ascending. -/
theorem pairwise_index_lt_iff {order : List BlockId} {locations : List Location}
    (hlocates : ∀ l ∈ locations, r.Locates l)
    (hlisted : locations.Pairwise (Location.ListedBefore order)) :
    (locations.Pairwise fun a b ↦ a.index < b.index) ↔
      AscendsOn order fun k ↦ ∃ l ∈ locations, l.block = k := by
  rw [← pairwise_index_iff hlocates (hlisted.imp Or.inr)]
  refine ⟨fun h ↦ h.imp Nat.le_of_lt, fun h ↦ ?_⟩
  refine (hlisted.and h).imp_of_mem fun {a b} ha hb hab ↦ ?_
  refine ((hlocates a ha).index_lt_iff (hlocates b hb) hab.1).2 (Nat.not_lt.1 fun hgt ↦ ?_)
  exact Nat.not_le.2 ((hlocates b hb).index_lt (hlocates a ha) hgt) hab.2

/-- Some reached instruction of the block writes a variable. -/
def WritesIn (r : Routine) (b : BlockId) : Prop :=
  ∃ l, (∃ c v, r.Reached l c ∧ c.Writes v) ∧ l.block = b

/-- Some reached instruction of the block reads a variable. -/
def ReadsIn (r : Routine) (b : BlockId) : Prop :=
  ∃ l, (∃ c position v, r.Reached l c ∧ c.Reads position v) ∧ l.block = b

end Routine

namespace Reaching

open FlowGraph Routine

/-! ### The locations of the chains -/

/-- There is one chain for each definition, in the order of the definitions. -/
theorem map_definition_defUses (g : FlowGraph) (blocks : List BlockId) (reads : List UseDef) :
    (defUses g blocks reads).map DefUse.definition = (definitions g blocks).map Prod.fst := by
  rw [defUses, List.map_map]
  rfl

/-- Definitions are listed block by block, and inside a block by index. -/
theorem definitionsIn_listed (r : Routine) : ((definitionsIn r).map Prod.fst).Pairwise
    (Location.ListedBefore (ofRoutine r).reversePostorder) := by
  rw [List.pairwise_map, definitionsIn, definitions, List.pairwise_filterMap]
  refine (located_listed (ofRoutine r) (reversePostorder_nodup _)).imp ?_
  intro p q hlisted d hd e he
  obtain ⟨v, -, rfl⟩ := Option.map_eq_some_iff.1 hd
  obtain ⟨w, -, rfl⟩ := Option.map_eq_some_iff.1 he
  exact hlisted

/-- The places of the chains are those of the reached writes. -/
theorem mem_map_definitionsIn_iff {r : Routine} {l : Location} :
    l ∈ (definitionsIn r).map Prod.fst ↔ ∃ c v, r.Reached l c ∧ c.Writes v := by
  simp only [List.mem_map, Prod.exists, exists_and_right, exists_eq_right, mem_definitionsIn_iff]
  exact exists_comm

theorem map_location_readsIn (r : Routine) :
    (readsIn r).map UseDef.location = (operandsIn r).map Prod.fst := by
  have hkeys : (readsIn r).map UseDef.location = ((readsIn r).map key).map Prod.fst := by
    rw [List.map_map]
    rfl
  rw [hkeys, keys_readsIn, operandsIn, List.map_flatMap, List.map_flatMap]
  simp only [List.map_map, Function.comp_def]

theorem readsIn_listed (r : Routine) : ((readsIn r).map UseDef.location).Pairwise
    fun a b ↦ a = b ∨ a.ListedBefore (ofRoutine r).reversePostorder b := by
  rw [map_location_readsIn, List.pairwise_map, operandsIn, List.pairwise_flatMap]
  constructor
  · intro p _
    rw [List.pairwise_map]
    exact List.pairwise_of_forall_mem_list fun _ _ _ _ ↦ Or.inl rfl
  · refine (located_listed (ofRoutine r) (reversePostorder_nodup _)).imp ?_
    intro p q hlisted a ha b hb
    obtain ⟨o, -, rfl⟩ := List.mem_map.1 ha
    obtain ⟨o', -, rfl⟩ := List.mem_map.1 hb
    exact Or.inr hlisted

/-- The places of the reads are those of the reached instructions that read something. -/
theorem mem_map_readsIn_iff {r : Routine} {l : Location} :
    l ∈ (readsIn r).map UseDef.location ↔ ∃ c position v, r.Reached l c ∧ c.Reads position v := by
  rw [map_location_readsIn, List.mem_map]
  constructor
  · rintro ⟨⟨_, c, position, v, role⟩, ho, rfl⟩
    obtain ⟨hreached, hreads, -⟩ := mem_operandsIn_iff.1 ho
    exact ⟨c, position, v, hreached, hreads⟩
  · rintro ⟨c, position, v, hreached, hreads⟩
    exact ⟨_, mem_operandsIn_iff.2 ⟨hreached, hreads, rfl⟩, rfl⟩

end Reaching

/-! ### The summary -/

namespace DataFlow

open FlowGraph Routine Reaching

/-- How the chains of a summary are listed for a routine. -/
structure ChainsListed (r : Routine) (d : DataFlow) : Prop where
  /-- Definitions come block by block in reverse postorder, each once. -/
  defUse_listed : (d.defUse.map DefUse.definition).Pairwise
    (Location.ListedBefore (ofRoutine r).reversePostorder)
  /-- So do reads, those of one instruction together. -/
  useDef_listed : (d.useDef.map UseDef.location).Pairwise fun a b ↦
    a = b ∨ a.ListedBefore (ofRoutine r).reversePostorder b
  /-- They are in the order of the instructions when the blocks that write are. -/
  defUse_ascending_iff : ((d.defUse.map DefUse.definition).Pairwise fun a b ↦
    a.index < b.index) ↔ AscendsOn (ofRoutine r).reversePostorder r.WritesIn
  useDef_ascending_iff : ((d.useDef.map UseDef.location).Pairwise fun a b ↦
    a.index ≤ b.index) ↔ AscendsOn (ofRoutine r).reversePostorder r.ReadsIn

/-- **Chains are listed in reverse postorder of their blocks, and by ascending index inside a
block**, for every routine and both precisions. They are in the order of the instructions exactly
when the blocks that have chains come by ascending number. -/
theorem chains_listed (r : Routine) (precision : Precision) :
    ChainsListed r (analyze (ofRoutine r) precision) := by
  have hdefUse : (analyze (ofRoutine r) precision).defUse.map DefUse.definition =
      (definitionsIn r).map Prod.fst := by
    rw [analyze_defUse]
    exact map_definition_defUses ..
  have hwrites : ∀ l ∈ (definitionsIn r).map Prod.fst, r.Locates l := by
    intro l hl
    obtain ⟨c, -, hreached, -⟩ := mem_map_definitionsIn_iff.1 hl
    exact ⟨c, hreached⟩
  have hreads : ∀ l ∈ (readsIn r).map UseDef.location, r.Locates l := by
    intro l hl
    obtain ⟨c, -, -, hreached, -⟩ := mem_map_readsIn_iff.1 hl
    exact ⟨c, hreached⟩
  refine
    { defUse_listed := hdefUse ▸ definitionsIn_listed r
      useDef_listed := analyze_useDef r precision ▸ readsIn_listed r
      defUse_ascending_iff := ?_
      useDef_ascending_iff := ?_ }
  · rw [hdefUse, pairwise_index_lt_iff hwrites (definitionsIn_listed r)]
    simp only [mem_map_definitionsIn_iff]
    rfl
  · rw [analyze_useDef, pairwise_index_iff hreads (readsIn_listed r)]
    simp only [mem_map_readsIn_iff]
    rfl

/-- Two branches that do not meet again. -/
def twoArms : Routine where
  name := "arms"
  instructions := [⟨0, .branchIfTrue, [.temp 0, .label "b"], none, none, none⟩,
    ⟨1, .loadImmediate, [.localVar "x" .byte, .ofByte 1], none, none, none⟩,
    ⟨2, .ret, [.localVar "x" .byte], none, none, none⟩,
    ⟨3, .label, [.label "b"], none, none, none⟩,
    ⟨4, .loadImmediate, [.localVar "y" .byte, .ofByte 2], none, none, none⟩,
    ⟨5, .ret, [.localVar "y" .byte], none, none, none⟩]

/-- **Chains are not always in the order of the instructions.** Reverse postorder takes the second
branch first: definitions are listed at 4 and 1, and reads at 0, 5 and 2. -/
theorem chains_not_ascending :
    ¬((analyze (ofRoutine twoArms) .precise).defUse.map DefUse.definition).Pairwise
        (fun a b ↦ a.index < b.index) ∧
      ¬((analyze (ofRoutine twoArms) .precise).useDef.map UseDef.location).Pairwise
        (fun a b ↦ a.index ≤ b.index) := by
  have hdefUse : (analyze (ofRoutine twoArms) .precise).defUse.map DefUse.definition =
      [⟨2, 4⟩, ⟨1, 1⟩] := by decide +kernel
  have huseDef : (analyze (ofRoutine twoArms) .precise).useDef.map UseDef.location =
      [⟨0, 0⟩, ⟨2, 5⟩, ⟨1, 2⟩] := by decide +kernel
  rw [hdefUse, huseDef]
  decide

end DataFlow

end FlowGauge
