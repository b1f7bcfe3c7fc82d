import FlowGauge.Flow.Graph

/-!
# Control transfers between instructions

`Routine.Step` says where control can go from one instruction, and by which transfer, without
mentioning blocks. A jump goes to the first instruction that defines its label, if there is one;
everything but a jump and a return goes on with the next instruction, if there is one.

An opcode decides two things about its transfers: the kind of a jump that is taken
(`Opcode.takenKind?`) and the kind of going on (`Opcode.nextKind?`). Both the steps of a routine
(`Routine.step_iff`) and the edges that a block gets from its last instruction
(`FlowGraph.mem_edgesAfter_iff`) are read off these two, and that is what makes them comparable.
-/

namespace FlowGauge

namespace Opcode

/-- The kind of the transfer to the target of a jump. -/
def takenKind? : Opcode → Option EdgeKind
  | .branch => some .unconditional
  | .branchIfTrue => some .conditionalTrue
  | .branchIfFalse => some .conditionalFalse
  | _ => none

/-- The kind of the transfer to the next instruction. -/
def nextKind? : Opcode → Option EdgeKind
  | .branch | .ret => none
  | .branchIfTrue => some .conditionalFalse
  | .branchIfFalse => some .conditionalTrue
  | .call => some .callContinuation
  | _ => some .fallThrough

/-- An opcode that does not end a block goes on with the next instruction and nowhere else. -/
theorem kinds_of_not_endsBlock {op : Opcode} (h : op.endsBlock = false) :
    op.takenKind? = none ∧ op.nextKind? = some .fallThrough := by
  revert h
  cases op <;> decide

end Opcode

namespace Instruction

/-- The instruction defines a label. -/
def Defines (i : Instruction) (name : String) : Prop :=
  i.opcode = .label ∧ i.operands[0]? = some (.label name)

theorem bind_label?_eq_some_iff {operand : Option Operand} {name : String} :
    operand.bind Operand.label? = some name ↔ operand = some (.label name) := by
  rcases operand with - | operand
  · simp
  · cases operand <;> simp [Operand.label?]

theorem labelName?_eq_some_iff {i : Instruction} {name : String} :
    i.labelName? = some name ↔ i.Defines name := by
  unfold labelName? Defines
  split
  · next h => rw [bind_label?_eq_some_iff, and_iff_right h]
  · next h => simp [h]

/-- A jump names its label in its first operand, a conditional jump in its second. -/
theorem branchTarget?_eq_some_iff {i : Instruction} {name : String} :
    i.branchTarget? = some name ↔
      i.opcode = .branch ∧ i.operands[0]? = some (.label name) ∨
        (i.opcode = .branchIfTrue ∨ i.opcode = .branchIfFalse) ∧
          i.operands[1]? = some (.label name) := by
  unfold branchTarget?
  split
  · next h => simp [h, bind_label?_eq_some_iff]
  · next h => simp [h, bind_label?_eq_some_iff]
  · next h => simp [h, bind_label?_eq_some_iff]
  · simp_all

end Instruction

namespace Routine

/-- `t` is the index of the first instruction that defines the label. -/
def DefinesFirst (r : Routine) (name : String) (t : Nat) : Prop :=
  (∃ i, r.instructions[t]? = some i ∧ i.Defines name) ∧
    ∀ j < t, ∀ i, r.instructions[j]? = some i → ¬i.Defines name

/-- Control can go from the instruction at one index to the instruction at another, by a transfer of
the given kind. -/
inductive Step (r : Routine) (i : Nat) : EdgeKind → Nat → Prop
  /-- A jump goes to its label. -/
  | branch {c : Instruction} {name : String} {t : Nat} : r.instructions[i]? = some c →
      c.opcode = .branch → c.operands[0]? = some (.label name) → r.DefinesFirst name t →
      r.Step i .unconditional t
  /-- A jump on true goes to its label when the condition holds. -/
  | whenTrue {c : Instruction} {name : String} {t : Nat} : r.instructions[i]? = some c →
      c.opcode = .branchIfTrue → c.operands[1]? = some (.label name) → r.DefinesFirst name t →
      r.Step i .conditionalTrue t
  /-- A jump on true goes on when the condition does not hold. -/
  | notTrue {c : Instruction} : r.instructions[i]? = some c → c.opcode = .branchIfTrue →
      i + 1 < r.size → r.Step i .conditionalFalse (i + 1)
  /-- A jump on false goes to its label when the condition does not hold. -/
  | whenFalse {c : Instruction} {name : String} {t : Nat} : r.instructions[i]? = some c →
      c.opcode = .branchIfFalse → c.operands[1]? = some (.label name) → r.DefinesFirst name t →
      r.Step i .conditionalFalse t
  /-- A jump on false goes on when the condition holds. -/
  | notFalse {c : Instruction} : r.instructions[i]? = some c → c.opcode = .branchIfFalse →
      i + 1 < r.size → r.Step i .conditionalTrue (i + 1)
  /-- A call goes on when it returns. -/
  | call {c : Instruction} : r.instructions[i]? = some c → c.opcode = .call →
      i + 1 < r.size → r.Step i .callContinuation (i + 1)
  /-- All instructions but jumps, calls and returns go on. -/
  | next {c : Instruction} : r.instructions[i]? = some c →
      c.opcode ∉ [.branch, .branchIfTrue, .branchIfFalse, .call, .ret] →
      i + 1 < r.size → r.Step i .fallThrough (i + 1)

/-! ### Targets of jumps -/

/-- A label that is defined more than once stands for its first definition. -/
theorem labelPosition?_eq_some_iff {r : Routine} {name : String} {t : Nat} :
    r.labelPosition? name = some t ↔ r.DefinesFirst name t := by
  have hdef : ∀ i : Instruction, (i.labelName? == some name) = true ↔ i.Defines name := fun i ↦ by
    rw [beq_iff_eq, Instruction.labelName?_eq_some_iff]
  rw [labelPosition?, List.findIdx?_eq_some_iff_getElem]
  constructor
  · rintro ⟨ht, hhere, hbefore⟩
    refine ⟨⟨_, List.getElem?_eq_getElem ht, (hdef _).1 hhere⟩, fun j hj i hi hi' ↦ ?_⟩
    obtain ⟨hlt, rfl⟩ := List.getElem?_eq_some_iff.1 hi
    exact hbefore j hj ((hdef _).2 hi')
  · rintro ⟨⟨i, hi, hi'⟩, hbefore⟩
    obtain ⟨ht, rfl⟩ := List.getElem?_eq_some_iff.1 hi
    refine ⟨ht, (hdef _).2 hi', fun j hj h ↦ ?_⟩
    exact hbefore j hj _ (List.getElem?_eq_getElem (by omega)) ((hdef _).1 h)

theorem DefinesFirst.lt_size {r : Routine} {name : String} {t : Nat} (h : r.DefinesFirst name t) :
    t < r.size := by
  obtain ⟨⟨i, hi, -⟩, -⟩ := h
  exact (List.getElem?_eq_some_iff.1 hi).1

/-- A jump goes to the first definition of its label. -/
theorem target?_eq_some_iff {r : Routine} {c : Instruction} {t : Nat} :
    r.target? c = some t ↔ ∃ name, c.branchTarget? = some name ∧ r.DefinesFirst name t := by
  simp only [target?, Option.bind_eq_some_iff, labelPosition?_eq_some_iff]

/-- Jumps stay in the routine. -/
theorem target?_lt_size {r : Routine} {c : Instruction} {t : Nat} (h : r.target? c = some t) :
    t < r.size := by
  obtain ⟨name, -, hname⟩ := target?_eq_some_iff.1 h
  exact hname.lt_size

/-! ### Steps by taken and by next -/

/-- **A step takes a jump or goes on**, and its kind is the one the opcode gives to it. -/
theorem step_iff {r : Routine} {i j : Nat} {kind : EdgeKind} :
    r.Step i kind j ↔ ∃ c, r.instructions[i]? = some c ∧
      (c.opcode.takenKind? = some kind ∧ r.target? c = some j ∨
        c.opcode.nextKind? = some kind ∧ i + 1 < r.size ∧ j = i + 1) := by
  constructor
  · rintro (⟨hc, hop, harg, hname⟩ | ⟨hc, hop, harg, hname⟩ | ⟨hc, hop, hlt⟩ |
      ⟨hc, hop, harg, hname⟩ | ⟨hc, hop, hlt⟩ | ⟨hc, hop, hlt⟩ | ⟨hc, hop, hlt⟩)
    · refine ⟨_, hc, Or.inl ⟨by rw [hop]; rfl, target?_eq_some_iff.2 ⟨_, ?_, hname⟩⟩⟩
      exact Instruction.branchTarget?_eq_some_iff.2 (Or.inl ⟨hop, harg⟩)
    · refine ⟨_, hc, Or.inl ⟨by rw [hop]; rfl, target?_eq_some_iff.2 ⟨_, ?_, hname⟩⟩⟩
      exact Instruction.branchTarget?_eq_some_iff.2 (Or.inr ⟨Or.inl hop, harg⟩)
    · exact ⟨_, hc, Or.inr ⟨by rw [hop]; rfl, hlt, rfl⟩⟩
    · refine ⟨_, hc, Or.inl ⟨by rw [hop]; rfl, target?_eq_some_iff.2 ⟨_, ?_, hname⟩⟩⟩
      exact Instruction.branchTarget?_eq_some_iff.2 (Or.inr ⟨Or.inr hop, harg⟩)
    · exact ⟨_, hc, Or.inr ⟨by rw [hop]; rfl, hlt, rfl⟩⟩
    · exact ⟨_, hc, Or.inr ⟨by rw [hop]; rfl, hlt, rfl⟩⟩
    · refine ⟨_, hc, Or.inr ⟨?_, hlt, rfl⟩⟩
      unfold Opcode.nextKind?
      split <;> simp_all
  · rintro ⟨c, hc, ⟨hkind, htarget⟩ | ⟨hkind, hlt, rfl⟩⟩
    · obtain ⟨name, hbranch, hname⟩ := target?_eq_some_iff.1 htarget
      rw [Instruction.branchTarget?_eq_some_iff] at hbranch
      unfold Opcode.takenKind? at hkind
      split at hkind
      · next hop =>
        exact Option.some.inj hkind ▸ .branch hc hop (by simpa [hop] using hbranch) hname
      · next hop =>
        exact Option.some.inj hkind ▸ .whenTrue hc hop (by simpa [hop] using hbranch) hname
      · next hop =>
        exact Option.some.inj hkind ▸ .whenFalse hc hop (by simpa [hop] using hbranch) hname
      · exact absurd hkind (by simp)
    · unfold Opcode.nextKind? at hkind
      split at hkind
      · exact absurd hkind (by simp)
      · exact absurd hkind (by simp)
      · next hop => exact Option.some.inj hkind ▸ .notTrue hc hop hlt
      · next hop => exact Option.some.inj hkind ▸ .notFalse hc hop hlt
      · next hop => exact Option.some.inj hkind ▸ .call hc hop hlt
      · exact Option.some.inj hkind ▸ .next hc (by simp_all) hlt

/-- Control stays in the routine. -/
theorem Step.lt_size {r : Routine} {i j : Nat} {kind : EdgeKind} (h : r.Step i kind j) :
    i < r.size ∧ j < r.size := by
  obtain ⟨c, hc, ⟨-, htarget⟩ | ⟨-, hlt, rfl⟩⟩ := step_iff.1 h
  · exact ⟨(List.getElem?_eq_some_iff.1 hc).1, target?_lt_size htarget⟩
  · exact ⟨by omega, hlt⟩

end Routine

namespace FlowGraph

/-- **The edges behind a block take a jump or go on**, with the kinds its last opcode gives them. -/
theorem mem_edgesAfter_iff {r : Routine} {leaders : List Nat} {k : BlockId} {last : Instruction}
    {e : Edge} : e ∈ edgesAfter r leaders k last ↔ e.source = k ∧
      (last.opcode.takenKind? = some e.kind ∧
          (r.target? last).bind leaders.idxOf? = some e.target ∨
        last.opcode.nextKind? = some e.kind ∧ next? leaders.length k = some e.target) := by
  have hmem : ∀ (dest : Option BlockId) (kind : EdgeKind),
      e ∈ dest.toList.map (fun t ↦ (⟨k, t, kind⟩ : Edge)) ↔
        e.source = k ∧ some kind = some e.kind ∧ dest = some e.target := by
    intro dest kind
    obtain ⟨source, target, kind'⟩ := e
    rcases dest with - | dest
    · simp
    · simp [eq_comm, and_comm]
  unfold edgesAfter
  cases hop : last.opcode <;>
    simp [hmem, Opcode.takenKind?, Opcode.nextKind?, and_or_left]

end FlowGraph

end FlowGauge
