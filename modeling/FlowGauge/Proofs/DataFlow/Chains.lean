import FlowGauge.DataFlow.Summary
import FlowGauge.Proofs.DataFlow.Reaching
import Mathlib.Data.List.Forall2

/-!
# Chains between definitions and reads are exact

The summary of a routine links every read to the definitions that reach it, and every definition to
the reads that it reaches. Reads are listed operand by operand in the order of the located
instructions (`keys_readsIn`), with the definitions that are carried to the instruction
(`mem_definitions_readsIn_iff`).

An instruction that reads a variable twice has two reads with the same definitions, told apart by
their place and their role. An instruction that reads and writes a variable reads what reaches it
from before; what it writes itself reaches it only around a cycle.
-/

namespace FlowGauge

namespace Instruction

/-- The operand at a position is read as the variable: it has the name of the variable, and it is
not the first operand of an opcode that defines it. -/
def Reads (i : Instruction) (position : Nat) (v : String) : Prop :=
  (i.result = none → i.opcode.definesFirstOperand = true → position ≠ 0) ∧
    ∃ o, i.operands[position]? = some o ∧ o.key? = some v

/-- The tracked operands that are read, with their positions, names and roles. -/
def readOperands (i : Instruction) : List (Nat × String × UseRole) :=
  (i.operands.zipIdx.drop i.firstRead).filterMap fun (operand, position) ↦
    operand.key?.map fun key ↦ (position, key, .ofOperand i.opcode position)

theorem uses_eq_map_readOperands (i : Instruction) : i.uses = i.readOperands.map Prod.snd := by
  rw [uses, readOperands, List.map_filterMap]
  refine congrArg (fun f ↦ List.filterMap f _) (funext fun (operand, position) ↦ ?_)
  simp only [Option.map_map, Function.comp_def]

/-- The first operand is not read when it is what the instruction defines. -/
theorem firstRead_le_iff {i : Instruction} {position : Nat} : i.firstRead ≤ position ↔
    (i.result = none → i.opcode.definesFirstOperand = true → position ≠ 0) := by
  rw [firstRead]
  rcases i.result with - | o
  · cases i.opcode.definesFirstOperand
    · simp
    · simp [Nat.one_le_iff_ne_zero]
  · simp

/-- What is read, at which place, and in which role. -/
theorem mem_readOperands_iff {i : Instruction} {position : Nat} {v : String} {role : UseRole} :
    (position, v, role) ∈ i.readOperands ↔
      i.Reads position v ∧ role = .ofOperand i.opcode position := by
  have hzip : ∀ o, (o, position) ∈ i.operands.zipIdx.drop i.firstRead ↔
      i.firstRead ≤ position ∧ i.operands[position]? = some o := by
    intro o
    rw [List.mem_iff_getElem?]
    simp only [List.getElem?_drop, List.getElem?_zipIdx, Nat.zero_add, Option.map_eq_some_iff,
      Prod.mk.injEq]
    constructor
    · rintro ⟨j, o', ho', rfl, rfl⟩
      exact ⟨Nat.le_add_right .., ho'⟩
    · rintro ⟨hle, ho⟩
      exact ⟨position - i.firstRead, o, by rwa [Nat.add_sub_cancel' hle], rfl,
        Nat.add_sub_cancel' hle⟩
  rw [readOperands, List.mem_filterMap, Reads, ← firstRead_le_iff]
  constructor
  · rintro ⟨⟨o, p⟩, hmem, heq⟩
    obtain ⟨key, hkey, heq⟩ := Option.map_eq_some_iff.1 heq
    obtain ⟨rfl, rfl, rfl⟩ : p = position ∧ key = v ∧ UseRole.ofOperand i.opcode p = role := by
      simpa using heq
    obtain ⟨hle, ho⟩ := (hzip o).1 hmem
    exact ⟨⟨hle, o, ho, hkey⟩, rfl⟩
  · rintro ⟨⟨hle, o, ho, hkey⟩, rfl⟩
    exact ⟨(o, position), (hzip o).2 ⟨hle, ho⟩, Option.map_eq_some_iff.2 ⟨v, hkey, rfl⟩⟩

/-- Operands are listed by ascending position. -/
theorem readOperands_ascending (i : Instruction) :
    i.readOperands.Pairwise fun a b ↦ a.1 < b.1 := by
  have hpositions : (i.operands.zipIdx.map Prod.snd).Pairwise (· < ·) := by
    rw [List.zipIdx_map_snd]
    exact List.pairwise_lt_range'
  have hdrop := (List.pairwise_map.1 hpositions).drop (i := i.firstRead)
  rw [readOperands, List.pairwise_filterMap]
  refine hdrop.imp fun {p q} hlt a ha b hb ↦ ?_
  obtain ⟨v, -, rfl⟩ := Option.map_eq_some_iff.1 ha
  obtain ⟨w, -, rfl⟩ := Option.map_eq_some_iff.1 hb
  exact hlt

/-- An operand is listed once, even when two operands are the same variable. -/
theorem readOperands_pairwise (i : Instruction) :
    i.readOperands.Pairwise fun a b ↦ a.1 ≠ b.1 :=
  i.readOperands_ascending.imp Nat.ne_of_lt

end Instruction

namespace Reaching

open FlowGraph Routine

/-! ### Reads of a run of instructions -/

/-- What a read says about itself. -/
def key (u : UseDef) : Location × String × UseRole :=
  (u.location, u.variableName, u.role)

/-- What the reads of a run of instructions say about themselves does not depend on what reaches
it. -/
theorem keys_replay (all : List Definition) (code : List (Location × Instruction)) :
    ∀ s, (replay all s code).map key =
      code.flatMap fun p ↦ p.2.readOperands.map fun o ↦ (p.1, o.2) := by
  induction code with
  | nil => exact fun _ ↦ rfl
  | cons p code ih =>
    intro s
    have hhead : (readsAt all s p.1 p.2).map key = p.2.readOperands.map fun o ↦ (p.1, o.2) := by
      rw [readsAt, List.map_map, Instruction.uses_eq_map_readOperands, List.map_map]
      rfl
    rw [List.flatMap_cons, ← hhead, ← ih (after all s p.1 p.2), ← List.map_append]
    rfl

/-- A read of a run belongs to an instruction, at which the earlier instructions of the run have
been replayed. -/
theorem exists_of_mem_replay {all : List Definition} {code : List (Location × Instruction)}
    {u : UseDef} : ∀ {s : BitSet}, u ∈ replay all s code → ∃ offset l c,
      code[offset]? = some (l, c) ∧ u ∈ readsAt all (flow all s (code.take offset)) l c := by
  induction code with
  | nil => exact fun h ↦ absurd h List.not_mem_nil
  | cons p code ih =>
    intro s h
    rcases List.mem_append.1 h with hhead | hrest
    · exact ⟨0, p.1, p.2, rfl, hhead⟩
    · obtain ⟨offset, l, c, hget, hmem⟩ := ih hrest
      exact ⟨offset + 1, l, c, hget, hmem⟩

theorem mem_definitions_readsAt {all : List Definition} {s : BitSet} {l : Location}
    {c : Instruction} {u : UseDef} (h : u ∈ readsAt all s l c) : u.location = l ∧
      ∀ d, d ∈ u.definitions ↔
        ∃ i : Nat, all[i]? = some (d, u.variableName) ∧ s.contains i = true := by
  obtain ⟨⟨name, role⟩, -, rfl⟩ := List.mem_map.1 h
  refine ⟨rfl, fun d ↦ ?_⟩
  simp only [Std.ExtTreeSet.mem_ofList, List.contains_iff_mem, List.mem_map, List.mem_filter]
  constructor
  · rintro ⟨⟨⟨_, name'⟩, i⟩, ⟨hmem, hcontains⟩, rfl⟩
    obtain ⟨hget, rfl⟩ := mem_numbered_iff.1 hmem
    exact ⟨i, hget, hcontains⟩
  · rintro ⟨i, hget, hcontains⟩
    exact ⟨((d, name), i), ⟨mem_numbered_iff.2 ⟨hget, rfl⟩, hcontains⟩, rfl⟩

/-! ### Reads of a routine -/

variable {r : Routine}

/-- The reads of a routine. -/
def readsIn (r : Routine) : List UseDef :=
  useDefs (ofRoutine r) (ofRoutine r).reversePostorder

theorem keys_readsIn (r : Routine) : (readsIn r).map key =
    ((ofRoutine r).located (ofRoutine r).reversePostorder).flatMap fun p ↦
      p.2.readOperands.map fun o ↦ (p.1, o.2) := by
  rw [readsIn, useDefs, List.map_flatMap, located_eq_flatMap, List.flatMap_assoc]
  exact congrArg (fun f ↦ List.flatMap f _) (funext fun b ↦ keys_replay _ _ _)

/-- **The definitions of a read are those that are carried to it.** -/
theorem mem_definitions_readsIn_iff {u : UseDef} (hu : u ∈ readsIn r) (d : Location) :
    d ∈ u.definitions ↔ ∃ c, r.Reached d c ∧ c.Writes u.variableName ∧
      r.Carries u.variableName d.index u.location.index := by
  obtain ⟨k, hmem, hreplay⟩ := List.mem_flatMap.1 hu
  have hk := mem_reversePostorder_ofRoutine_iff.1 hmem
  obtain ⟨b, hb⟩ : ∃ b, (ofRoutine r).blocks[k]? = some b :=
    ⟨_, List.getElem?_eq_getElem hk.lt_size⟩
  obtain ⟨offset, l, c, hget, hreads⟩ := exists_of_mem_replay hreplay
  obtain ⟨hlocation, hdefinitions⟩ := mem_definitions_readsAt hreads
  obtain ⟨rfl, hlt⟩ : l = ⟨k, b.start + offset⟩ ∧ b.start + offset < b.stop := by
    rw [located_singleton_getElem? hb] at hget
    obtain ⟨c', hc', heq⟩ := Option.map_eq_some_iff.1 hget
    have hoffset := (List.getElem?_eq_some_iff.1 hc').1
    rw [(cut_of_getElem? hb).code_length] at hoffset
    exact ⟨(congrArg Prod.fst heq).symm, by omega⟩
  have hheld : ∀ i : Nat, (definitionsIn r)[i]? = some (d, u.variableName) →
      ((stateAt r k offset).contains i = true ↔
        r.Carries u.variableName d.index u.location.index) := by
    intro i hi
    rw [hlocation, contains_stateAt_iff hk hb hlt hi]
  calc d ∈ u.definitions
      ↔ ∃ i : Nat, (definitionsIn r)[i]? = some (d, u.variableName) ∧
          (stateAt r k offset).contains i = true := hdefinitions d
    _ ↔ (∃ i : Nat, (definitionsIn r)[i]? = some (d, u.variableName)) ∧
          r.Carries u.variableName d.index u.location.index := by
        rw [← exists_and_right]
        exact exists_congr fun i ↦ and_congr_right (hheld i)
    _ ↔ _ := by
        rw [← List.mem_iff_getElem?, mem_definitionsIn_iff, ← exists_and_right]
        simp only [and_assoc]

/-- The tracked operands that are read, with the instruction they belong to. -/
def operandsIn (r : Routine) : List (Location × Instruction × Nat × String × UseRole) :=
  ((ofRoutine r).located (ofRoutine r).reversePostorder).flatMap fun p ↦
    p.2.readOperands.map fun o ↦ (p.1, p.2, o)

theorem mem_operandsIn_iff {l : Location} {c : Instruction} {position : Nat} {v : String}
    {role : UseRole} : (l, c, position, v, role) ∈ operandsIn r ↔
      r.Reached l c ∧ c.Reads position v ∧ role = .ofOperand c.opcode position := by
  rw [operandsIn, List.mem_flatMap, ← Instruction.mem_readOperands_iff]
  constructor
  · rintro ⟨⟨l', c'⟩, hp, hmem⟩
    obtain ⟨o, ho, heq⟩ := List.mem_map.1 hmem
    obtain ⟨rfl, rfl, rfl⟩ : l' = l ∧ c' = c ∧ o = (position, v, role) := by simpa using heq
    exact ⟨mem_located_iff_reached.1 hp, ho⟩
  · rintro ⟨hreached, ho⟩
    exact ⟨(l, c), mem_located_iff_reached.2 hreached, List.mem_map.2 ⟨_, ho, rfl⟩⟩

/-- No operand is listed twice. -/
theorem operandsIn_pairwise (r : Routine) :
    (operandsIn r).Pairwise fun a b ↦ (a.1, a.2.2.1) ≠ (b.1, b.2.2.1) := by
  rw [operandsIn, List.pairwise_flatMap]
  constructor
  · intro p _
    rw [List.pairwise_map]
    exact p.2.readOperands_pairwise.imp fun hne heq ↦ hne (congrArg Prod.snd heq)
  · refine (located_pairwise (ofRoutine r).reversePostorder_nodup).imp ?_
    intro p q hne a ha b hb heq
    obtain ⟨o, -, rfl⟩ := List.mem_map.1 ha
    obtain ⟨o', -, rfl⟩ := List.mem_map.1 hb
    exact hne (Prod.mk.inj heq).1

/-- The reads of a routine follow its operands one by one. -/
theorem forall₂_operandsIn_readsIn (r : Routine) :
    List.Forall₂ (fun o u ↦ (o.1, o.2.2.2) = key u) (operandsIn r) (readsIn r) := by
  have hkeys : (operandsIn r).map (fun o ↦ (o.1, o.2.2.2)) = (readsIn r).map key := by
    rw [keys_readsIn, operandsIn, List.map_flatMap]
    simp only [List.map_map, Function.comp_def]
  rw [← List.forall₂_eq_eq_eq, List.forall₂_map_left_iff, List.forall₂_map_right_iff] at hkeys
  exact hkeys

/-- **Every tracked operand that is read has its own read in the list.** An operand is named by its
location and its position. -/
theorem exists_operands_readsIn (r : Routine) :
    ∃ operands : List (Location × Nat), operands.Nodup ∧
      (∀ l p, (l, p) ∈ operands ↔ ∃ c v, r.Reached l c ∧ c.Reads p v) ∧
      List.Forall₂ (fun o (u : UseDef) ↦ u.location = o.1 ∧ ∃ c, r.Reached o.1 c ∧
        c.Reads o.2 u.variableName ∧ u.role = .ofOperand c.opcode o.2) operands (readsIn r) := by
  refine ⟨(operandsIn r).map fun o ↦ (o.1, o.2.2.1),
    List.pairwise_map.2 (operandsIn_pairwise r), fun l p ↦ ?_, ?_⟩
  · rw [List.mem_map]
    constructor
    · rintro ⟨⟨_, c, _, v, role⟩, ho, heq⟩
      obtain ⟨rfl, rfl⟩ := Prod.mk.inj heq
      obtain ⟨hreached, hreads, -⟩ := mem_operandsIn_iff.1 ho
      exact ⟨c, v, hreached, hreads⟩
    · rintro ⟨c, v, hreached, hreads⟩
      exact ⟨(l, c, p, v, .ofOperand c.opcode p),
        mem_operandsIn_iff.2 ⟨hreached, hreads, rfl⟩, rfl⟩
  · rw [List.forall₂_map_left_iff]
    refine ((List.forall₂_and_left _ _).2
      ⟨fun _ ho ↦ ho, forall₂_operandsIn_readsIn r⟩).imp ?_
    rintro ⟨l, c, p, v, role⟩ u ⟨ho, hkey⟩
    obtain ⟨rfl, rfl, rfl⟩ : l = u.location ∧ v = u.variableName ∧ role = u.role := by
      simpa [key] using hkey
    exact ⟨rfl, c, mem_operandsIn_iff.1 ho⟩

/-! ### Uses of definitions -/

/-- Every definition has its chain, also one that nothing reads. -/
theorem exists_mem_defUses_iff {g : FlowGraph} {blocks : List Nat} {reads : List UseDef}
    {l : Location} {v : String} :
    (∃ e ∈ defUses g blocks reads, e.definition = l ∧ e.variableName = v) ↔
      (l, v) ∈ definitions g blocks := by
  rw [defUses]
  constructor
  · rintro ⟨e, he, rfl, rfl⟩
    obtain ⟨d, hd, rfl⟩ := List.mem_map.1 he
    exact hd
  · exact fun hd ↦ ⟨_, List.mem_map.2 ⟨(l, v), hd, rfl⟩, rfl, rfl⟩

/-- The uses of a definition are the reads that list it. The chains are inverse to each other by
construction. -/
theorem mem_uses_defUses_iff {g : FlowGraph} {blocks : List Nat} {reads : List UseDef} {e : DefUse}
    (he : e ∈ defUses g blocks reads) (l : Location) : l ∈ e.uses ↔
      ∃ u ∈ reads, u.location = l ∧ u.variableName = e.variableName ∧
        e.definition ∈ u.definitions := by
  obtain ⟨⟨place, name⟩, -, rfl⟩ := List.mem_map.1 he
  simp only [Std.ExtTreeSet.mem_ofList, List.contains_iff_mem, List.mem_map, List.mem_filter,
    Bool.and_eq_true, beq_iff_eq, Std.ExtTreeSet.contains_iff_mem]
  constructor
  · rintro ⟨u, ⟨hu, hname, hplace⟩, hl⟩
    exact ⟨u, hu, hl, hname, hplace⟩
  · rintro ⟨u, hu, hl, hname, hplace⟩
    exact ⟨u, ⟨hu, hname, hplace⟩, hl⟩

end Reaching

/-! ### The summary -/

namespace DataFlow

open FlowGraph

/-- The chains of a summary are exact for a routine. -/
structure ChainsExact (r : Routine) (d : DataFlow) : Prop where
  /-- No definition has two entries. -/
  nodup_defUse : (d.defUse.map DefUse.definition).Nodup
  /-- The definitions with an entry are the reached instructions that write a variable. -/
  mem_defUse_iff : ∀ l v, (∃ e ∈ d.defUse, e.definition = l ∧ e.variableName = v) ↔
    ∃ c, r.Reached l c ∧ c.Writes v
  /-- The entries for reads correspond one to one to the operands that are read. -/
  useDef_operands : ∃ operands : List (Location × Nat), operands.Nodup ∧
    (∀ l p, (l, p) ∈ operands ↔ ∃ c v, r.Reached l c ∧ c.Reads p v) ∧
    List.Forall₂ (fun o (u : UseDef) ↦ u.location = o.1 ∧ ∃ c, r.Reached o.1 c ∧
      c.Reads o.2 u.variableName ∧ u.role = .ofOperand c.opcode o.2) operands d.useDef
  /-- The definitions of a read are those that are carried to it. -/
  mem_definitions_iff : ∀ u ∈ d.useDef, ∀ l, l ∈ u.definitions ↔ ∃ c, r.Reached l c ∧
    c.Writes u.variableName ∧ r.Carries u.variableName l.index u.location.index
  /-- The uses of a definition are the reads that have it among their definitions. -/
  mem_uses_iff : ∀ e ∈ d.defUse, ∀ l, l ∈ e.uses ↔ ∃ u ∈ d.useDef, u.location = l ∧
    u.variableName = e.variableName ∧ e.definition ∈ u.definitions

/-- The chains do not depend on the precision. -/
theorem analyze_useDef (r : Routine) (precision : Precision) :
    (analyze (ofRoutine r) precision).useDef = Reaching.readsIn r := by
  cases precision <;> rfl

/-- Neither do their inverses. -/
theorem analyze_defUse (r : Routine) (precision : Precision) :
    (analyze (ofRoutine r) precision).defUse = Reaching.defUses (ofRoutine r)
      (ofRoutine r).reversePostorder (Reaching.readsIn r) := by
  cases precision <;> rfl

/-- **Def-use and use-def chains are exact**, for every routine and both precisions. -/
theorem chains_exact (r : Routine) (precision : Precision) :
    ChainsExact r (analyze (ofRoutine r) precision) := by
  refine
    { nodup_defUse := ?nodup
      mem_defUse_iff := ?defUse
      useDef_operands := ?operands
      mem_definitions_iff := ?definitions
      mem_uses_iff := ?uses }
  case nodup =>
    rw [analyze_defUse, Reaching.defUses, List.map_map]
    exact List.pairwise_map.2 (Reaching.definitionsIn_distinct r)
  case defUse =>
    intro l v
    rw [analyze_defUse, Reaching.exists_mem_defUses_iff]
    exact Reaching.mem_definitionsIn_iff
  case operands =>
    rw [analyze_useDef]
    exact Reaching.exists_operands_readsIn r
  case definitions =>
    rw [analyze_useDef]
    exact fun u hu l ↦ Reaching.mem_definitions_readsIn_iff hu l
  case uses =>
    rw [analyze_defUse, analyze_useDef]
    exact fun e he l ↦ Reaching.mem_uses_defUses_iff he l

end DataFlow

end FlowGauge
