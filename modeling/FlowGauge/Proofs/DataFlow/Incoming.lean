import FlowGauge.Proofs.DataFlow.Interference

/-!
# Incoming values

A routine that reads a variable before it writes it expects a value from its caller. Such incoming
values are needed at the same time, at the first instruction. A conflict, however, is recorded only
where an instruction writes a variable, and the values that come in are written nowhere. So two
incoming values are in conflict exactly when the routine overwrites one of them while it still needs
the other one.

This is the only gap but for copies. Going back from an instruction in front of which two variables
are live, either some instruction on the way writes one of them, and the conflict is recorded there,
or both are live all the way back to the first instruction
(`DataFlow.interferes_or_liveBefore_zero`).

The gap does not depend on how the analysis is computed, only on where conflicts are recorded: a
solver that was exact at every point would leave it, too.
-/

namespace FlowGauge

namespace Routine

variable {r : Routine} {v a b : String} {i : Nat}

/-! ### What comes in -/

/-- The variable is live in front of the entry block. -/
def Incoming (r : Routine) (v : String) : Prop :=
  ∃ entry live, (FlowGraph.ofRoutine r).entry = some entry ∧
    (DataFlow.analyze (.ofRoutine r) .precise).blockLiveness[entry]? = some live ∧ v ∈ live.liveIn

/-- Nothing is live in an empty routine. -/
theorem LiveBefore.size_pos (h : r.LiveBefore v i) : 0 < r.size := by
  obtain ⟨-, u, -, -, -, c, hcode, -⟩ := h
  exact Nat.zero_lt_of_lt (List.getElem?_eq_some_iff.1 hcode).1

/-- **Incoming is what is live at the first instruction.** -/
theorem incoming_iff : r.Incoming v ↔ r.LiveBefore v 0 := by
  have hliveness : (DataFlow.analyze (.ofRoutine r) .precise).blockLiveness =
      (Liveness.resultIn r).blocks := rfl
  rw [Incoming, hliveness]
  constructor
  · intro ⟨entry, live, hentry, hlive, hv⟩
    rw [FlowGraph.ofRoutine_entry] at hentry
    split at hentry
    · cases hentry
    · next hsize =>
      obtain rfl : 0 = entry := Option.some.inj hentry
      obtain ⟨b, hb⟩ : ∃ b, (FlowGraph.ofRoutine r).blocks[0]? = some b :=
        ⟨_, List.getElem?_eq_getElem (Nat.pos_of_ne_zero hsize)⟩
      rw [← start_of_first hb]
      exact ((Liveness.resultIn_exact r).mem_liveIn_iff 0 live b hlive hb v).1 hv
  · intro h
    obtain ⟨b, hb, hstart⟩ := FlowGraph.exists_block (leaders_zero h.size_pos)
    have hsize : 0 < (FlowGraph.ofRoutine r).size := (List.getElem?_eq_some_iff.1 hb).1
    have hentry : (FlowGraph.ofRoutine r).entry = some 0 := by
      rw [FlowGraph.ofRoutine_entry, if_neg (Nat.ne_of_gt hsize)]
    have hlive := Liveness.resultIn_blocks_getElem?.2 ⟨.refl hsize, rfl⟩
    refine ⟨0, _, hentry, hlive, ?_⟩
    rw [← hstart] at h
    exact ((Liveness.resultIn_exact r).mem_liveIn_iff 0 _ b hlive hb v).2 h

/-! ### Where conflicts are missed -/

/-- A reached instruction copies one of two variables to the other. -/
def Copied (r : Routine) (a b : String) : Prop :=
  ∃ l c, r.Reached l c ∧ c.CopiesBetween a b

/-- A reached instruction writes one of two variables while the other is live behind it, and does
not copy one to the other. -/
def Overwritten (r : Routine) (a b : String) : Prop :=
  ∃ l c, r.Reached l c ∧ r.WritesAcross l c a b ∧ ¬c.CopiesBetween a b

/-- A value that is overwritten is written by a reached instruction. -/
theorem Overwritten.writes (h : r.Overwritten a b) :
    ∃ l c, r.Reached l c ∧ (c.Writes a ∨ c.Writes b) := by
  obtain ⟨l, c, hreached, hacross, -⟩ := h
  exact ⟨l, c, hreached, hacross.imp And.left And.left⟩

end Routine

namespace DataFlow

open FlowGraph Routine

variable {r : Routine} {a b : String} {p : Nat}

/-- **What is live at the same time is in conflict, copied or incoming.** -/
theorem interferes_or_liveBefore_zero (hne : a ≠ b) (h : r.ReachedAt p) :
    r.LiveBefore a p → r.LiveBefore b p →
      (analyze (ofRoutine r) .precise).interference.interferes a b = true ∨ r.Copied a b ∨
        r.LiveBefore a 0 ∧ r.LiveBefore b 0 := by
  refine h.induction (motive := fun p ↦ r.LiveBefore a p → r.LiveBefore b p → _)
    (fun ha hb ↦ Or.inr (Or.inr ⟨ha, hb⟩)) fun i j hi hnext ih ha hb ↦ ?_
  by_cases hfree : ¬r.WritesAt a i ∧ ¬r.WritesAt b i
  · exact ih (ha.of_next hfree.1 hnext) (hb.of_next hfree.2 hnext)
  · obtain ⟨l, c, hreached, rfl⟩ := hi
    have hwrites : c.Writes a ∨ c.Writes b := by
      simpa [WritesAt, hreached.code, or_iff_not_imp_left] using hfree
    by_cases hcopy : c.CopiesBetween a b
    · exact Or.inr (Or.inl ⟨l, c, hreached, hcopy⟩)
    · refine Or.inl ((interferes_iff hne).2 ⟨l, c, hreached, ?_, hcopy⟩)
      exact hwrites.imp (fun h ↦ ⟨h, j, hnext, hb⟩) fun h ↦ ⟨h, j, hnext, ha⟩

/-- **Incoming values conflict exactly when one of them is overwritten while the other is needed**,
in every routine. Two incoming values are needed at the first instruction, but if the routine writes
neither of them they do not conflict. Together with copies these are the only conflicts that are
missed: any two other variables that are live in front of the same instruction do conflict. -/
theorem incoming_conflicts (r : Routine) (a b : String) (hne : a ≠ b) :
    (r.Incoming a → r.Incoming b → (r.LiveBefore a 0 ∧ r.LiveBefore b 0) ∧
      ((analyze (ofRoutine r) .precise).interference.interferes a b = true ↔ r.Overwritten a b) ∧
      ((∀ l c, r.Reached l c → ¬c.Writes a ∧ ¬c.Writes b) →
        (analyze (ofRoutine r) .precise).interference.interferes a b = false)) ∧
    ∀ p, r.ReachedAt p → r.LiveBefore a p → r.LiveBefore b p →
      ¬(r.Incoming a ∧ r.Incoming b) → ¬r.Copied a b →
        (analyze (ofRoutine r) .precise).interference.interferes a b = true := by
  simp only [incoming_iff]
  have hiff : (analyze (ofRoutine r) .precise).interference.interferes a b = true ↔
      r.Overwritten a b := interferes_iff hne
  refine ⟨fun ha hb ↦ ⟨⟨ha, hb⟩, hiff, fun hfree ↦ ?_⟩, fun p hp ha hb hincoming hcopy ↦ ?_⟩
  · rw [← Bool.not_eq_true, hiff]
    intro h
    obtain ⟨l, c, hreached, hwrites⟩ := h.writes
    exact hwrites.elim (hfree l c hreached).1 (hfree l c hreached).2
  · rcases interferes_or_liveBefore_zero hne hp ha hb with h | h | h
    · exact h
    · exact absurd h hcopy
    · exact absurd h hincoming

/-- Two incoming values, one of which is changed before both are added up. -/
def changedArgument : Routine where
  name := "next_sum"
  parameters := [⟨"x", .byte⟩, ⟨"y", .byte⟩]
  instructions := [⟨0, .add, [.localVar "x" .byte, .localVar "x" .byte, .ofByte 1], none, none,
      none⟩,
    ⟨1, .add, [.temp 0, .localVar "x" .byte, .localVar "y" .byte], none, none, none⟩,
    ⟨2, .ret, [.temp 0], none, none, none⟩]

theorem incoming_conflicts_changedArgument : changedArgument.Incoming "x" ∧
    changedArgument.Incoming "y" ∧ changedArgument.Overwritten "x" "y" ∧
      (analyze (ofRoutine changedArgument) .precise).interference.interferes "x" "y" = true := by
  have hlive : (analyze (ofRoutine changedArgument) .precise).blockLiveness[0]? =
      some ⟨.ofList ["x", "y"], ∅⟩ := by decide +kernel
  have hx : changedArgument.Incoming "x" := ⟨0, _, by decide +kernel, hlive, by decide⟩
  have hy : changedArgument.Incoming "y" := ⟨0, _, by decide +kernel, hlive, by decide⟩
  have hconflict : (analyze (ofRoutine changedArgument) .precise).interference.interferes
      "x" "y" = true := by decide +kernel
  have hiff := ((incoming_conflicts changedArgument "x" "y" (by decide)).1 hx hy).2.1
  exact ⟨hx, hy, hiff.1 hconflict, hconflict⟩

/-- Two incoming values that are added up. -/
def addedArguments : Routine where
  name := "sum"
  parameters := [⟨"x", .byte⟩, ⟨"y", .byte⟩]
  instructions := [⟨0, .add, [.temp 0, .localVar "x" .byte, .localVar "y" .byte], none, none, none⟩,
    ⟨1, .ret, [.temp 0], none, none, none⟩]

/-- **Incoming values that are only read do not conflict.** -/
theorem incoming_without_conflict : addedArguments.Incoming "x" ∧ addedArguments.Incoming "y" ∧
    (analyze (ofRoutine addedArguments) .precise).maxLive = 2 ∧
      (analyze (ofRoutine addedArguments) .precise).interference.interferes "x" "y" = false := by
  have hlive : (analyze (ofRoutine addedArguments) .precise).blockLiveness[0]? =
      some ⟨.ofList ["x", "y"], ∅⟩ := by decide +kernel
  exact ⟨⟨0, _, by decide +kernel, hlive, by decide⟩, ⟨0, _, by decide +kernel, hlive, by decide⟩,
    by decide +kernel, by decide +kernel⟩

end DataFlow

end FlowGauge
