import FlowGauge.Proofs.DataFlow.ConflictGraph

/-!
# Precise interference is sound and tight

With precise conflicts two variables interfere when some reached instruction writes one of them
while the other is live behind it, except that a copy does not set its target against what it copies
(`DataFlow.interferes_iff`). That is tight by itself. It is also sound at every other point: where
two variables are live at the same time, both have been live since the last instruction on the way
that wrote one of them (`Routine.LiveBefore.liveAfter`), and there the conflict was recorded.

## Soundness along paths

The question that interference answers is whether two variables may share a place. They may not when
some instruction has both live and they hold different values. The proof goes back along a path to
the last instruction that wrote one of the two. From there on both are live and neither is written,
so the conflict was recorded at that instruction, unless it copies one to the other. Then their
values agree, and the exemption is sound (`interference_sound_and_tight`).

A variable that is written and never read afterwards conflicts with what is live behind the write:
the write would destroy it.
-/

namespace FlowGauge

/-! ### What a copy copies -/

namespace Instruction

variable {c : Instruction} {v : String}

/-- The first operand that is read as a tracked variable is read as this one. -/
def ReadsFirst (c : Instruction) (v : String) : Prop :=
  ∃ position, c.Reads position v ∧ ∀ q < position, ∀ w, ¬c.Reads q w

theorem head?_uses_eq_some_iff : c.uses.head?.map Prod.fst = some v ↔ c.ReadsFirst v := by
  have hmem : ∀ {q w}, c.Reads q w → (q, w, .ofOperand c.opcode q) ∈ c.readOperands :=
    fun hreads ↦ mem_readOperands_iff.2 ⟨hreads, rfl⟩
  have hsorted := c.readOperands_ascending
  rw [uses_eq_map_readOperands, List.head?_map, Option.map_map]
  cases hops : c.readOperands with
  | nil =>
    refine ⟨fun h ↦ absurd h (by simp), fun ⟨_, hreads, _⟩ ↦ ?_⟩
    exact absurd (hops ▸ hmem hreads) List.not_mem_nil
  | cons first rest =>
    rw [hops] at hsorted
    have hrest := (List.pairwise_cons.1 hsorted).1
    have hfirst : c.Reads first.1 first.2.1 :=
      (mem_readOperands_iff.1 (hops ▸ List.mem_cons_self ..)).1
    show some first.2.1 = some v ↔ _
    rw [Option.some.injEq]
    constructor
    · intro hv
      refine ⟨first.1, hv ▸ hfirst, fun q hlt w hreads ↦ ?_⟩
      rcases List.mem_cons.1 (hops ▸ hmem hreads) with heq | hq
      · exact Nat.ne_of_lt hlt (congrArg Prod.fst heq)
      · exact Nat.lt_asymm hlt (hrest _ hq)
    · intro ⟨position, hreads, hleast⟩
      rcases List.mem_cons.1 (hops ▸ hmem hreads) with heq | hposition
      · exact (congrArg (·.2.1) heq).symm
      · exact absurd hfirst (hleast _ (hrest _ hposition) _)

/-- An instruction writes one variable at most. -/
theorem Writes.unique {w : String} (h : c.Writes v) (h' : c.Writes w) : v = w :=
  Option.some.inj ((defined?_eq_some_iff.2 h).symm.trans (defined?_eq_some_iff.2 h'))

/-- The instruction copies one of two variables to the other. -/
def CopiesBetween (c : Instruction) (a b : String) : Prop :=
  c.opcode = .copy ∧ (c.Writes a ∧ c.ReadsFirst b ∨ c.Writes b ∧ c.ReadsFirst a)

/-- A copy goes between its two variables, whichever is named first. -/
theorem copiesBetween_comm {a b : String} : c.CopiesBetween a b ↔ c.CopiesBetween b a :=
  and_congr_right fun _ ↦ or_comm

/-- An instruction that writes one of the variables can only copy the other one. -/
theorem Writes.copiesBetween_iff {a b : String} (h : c.Writes a) (hne : a ≠ b) :
    c.CopiesBetween a b ↔ c.opcode = .copy ∧ c.ReadsFirst b := by
  refine and_congr_right fun _ ↦ ⟨fun hcopy ↦ ?_, fun hreads ↦ Or.inl ⟨h, hreads⟩⟩
  rcases hcopy with hcopy | hcopy
  · exact hcopy.2
  · exact absurd (h.unique hcopy.1) hne

end Instruction

/-! ### Recorded conflicts -/

namespace Liveness

open Routine FlowGraph

variable {r : Routine} {p : LivePoint} {c : Instruction}

/-- A point is taken of a reached instruction. -/
theorem exists_reached_of_mem_points (hp : p ∈ (resultIn r).points) :
    ∃ l c, r.Reached l c ∧ p = pointOf l.index c p.after := by
  rw [resultIn_points] at hp
  obtain ⟨k, hk, hp⟩ := List.mem_flatMap.1 hp
  obtain ⟨offset, hoffset⟩ := List.mem_iff_getElem?.1 hp
  obtain ⟨b, hb⟩ : ∃ b, (ofRoutine r).blocks[k]? = some b :=
    ⟨_, List.getElem?_eq_getElem (lt_size_of_mem_reversePostorder hk)⟩
  rw [pointsOf, block?, hb, Option.elim_some, points_getElem?, indexed_getElem?,
    Option.map_map] at hoffset
  obtain ⟨c, hc, rfl⟩ := Option.map_eq_some_iff.1 hoffset
  have hlocated : (⟨k, b.start + offset⟩, c) ∈ (ofRoutine r).located [k] := by
    refine List.mem_of_getElem? (i := offset) ?_
    rw [located_singleton_getElem? hb, hc]
    rfl
  exact ⟨⟨k, b.start + offset⟩, c, mem_located_iff_reached.1 (mem_located_iff.2 ⟨hk, hlocated⟩),
    rfl⟩

/-- A reached instruction has a point. -/
theorem exists_mem_points_of_reached {l : Location} (h : r.Reached l c) :
    ∃ p ∈ (resultIn r).points, p = pointOf l.index c p.after := by
  obtain ⟨p, hp, hindex⟩ := exists_point_iff.2 ⟨l, c, h, rfl⟩
  obtain ⟨l', c', h', heq⟩ := exists_reached_of_mem_points hp
  obtain ⟨rfl, rfl⟩ := h'.unique h ((congrArg LivePoint.index heq).symm.trans hindex)
  exact ⟨p, hp, heq⟩

/-- At a point, what is written is set against what is live behind, but for what is copied. -/
theorem mem_conflictsAt_iff {x y : String} : (x, y) ∈ DataFlow.conflictsAt p ↔
    p.written = some x ∧ y ∈ p.after ∧ y ≠ x ∧ some y ≠ p.copied := by
  unfold DataFlow.conflictsAt
  split
  · next hnone => simp [hnone]
  · next written hwritten =>
    simp only [List.mem_map, List.mem_filter, Std.ExtTreeSet.mem_toList, Bool.and_eq_true,
      decide_eq_true_eq, Prod.mk.injEq, hwritten, Option.some.injEq]
    constructor
    · intro ⟨other, ⟨hafter, hne, hcopied⟩, hx, hy⟩
      subst hx hy
      exact ⟨rfl, hafter, hne, hcopied⟩
    · intro ⟨hx, hafter, hne, hcopied⟩
      subst hx
      exact ⟨y, ⟨hafter, hne, hcopied⟩, rfl, rfl⟩

/-- **At a point the written variable is set against what is live behind it**, unless it is a copy
of it. -/
theorem mem_conflictsAt_pointOf_iff {index : Nat} {after : NameSet} {x y : String} :
    (x, y) ∈ DataFlow.conflictsAt (pointOf index c after) ↔
      c.Writes x ∧ y ∈ after ∧ y ≠ x ∧ ¬(c.opcode = .copy ∧ c.ReadsFirst y) := by
  have hcopied : some y ≠ (pointOf index c after).copied ↔
      ¬(c.opcode = .copy ∧ c.ReadsFirst y) := by
    rw [← Instruction.head?_uses_eq_some_iff, pointOf]
    split
    · next hcopy => simp [hcopy, eq_comm]
    · next hcopy => simp [hcopy]
  rw [mem_conflictsAt_iff, hcopied, ← Instruction.defined?_eq_some_iff]
  rfl

end Liveness

namespace Routine

variable {r : Routine} {v a b : String}

/-- The instruction writes one of two variables while the other is live behind it. -/
def WritesAcross (r : Routine) (l : Location) (c : Instruction) (a b : String) : Prop :=
  c.Writes a ∧ r.LiveAfter b l.index ∨ c.Writes b ∧ r.LiveAfter a l.index

/-- Control can go along the listed indices from the first instruction to the one at `p`. -/
def LeadsTo (r : Routine) (π : List Nat) (p : Nat) : Prop :=
  (π ++ [p]).head? = some 0 ∧ (π ++ [p]).IsChain r.Next

/-- The instruction is the last one of the listed indices that writes one of two variables. -/
def LastWriter (r : Routine) (a b : String) (π : List Nat) (c : Instruction) : Prop :=
  ∃ before i between, π = before ++ i :: between ∧ r.instructions[i]? = some c ∧
    (c.Writes a ∨ c.Writes b) ∧ ∀ m ∈ between, ¬r.WritesAt a m ∧ ¬r.WritesAt b m

/-- What lies on a path from the first instruction is reached. -/
theorem LeadsTo.reachedAt {π : List Nat} {p m : Nat} (h : r.LeadsTo π p) (hsize : 0 < r.size)
    (hm : m ∈ π) : r.ReachedAt m := by
  obtain ⟨hhead, hchain⟩ := h
  have hm : m ∈ π ++ [p] := List.mem_append_left _ hm
  obtain ⟨rest, hrest⟩ := List.head?_eq_some_iff.1 hhead
  rw [hrest] at hchain hm
  exact (reachedAt_zero hsize).of_mem_path hchain hm

/-- **What is live at the end of a path that does not write it has been live since its start.** -/
theorem LiveBefore.liveAfter {i p : Nat} {between : List Nat} (h : r.LiveBefore v p)
    (hchain : (i :: (between ++ [p])).IsChain r.Next) (hfree : ∀ m ∈ between, ¬r.WritesAt v m) :
    r.LiveAfter v i := by
  induction between generalizing i with
  | nil => exact ⟨p, (List.isChain_cons_cons.1 hchain).1, h⟩
  | cons m between ih =>
    obtain ⟨hnext, hchain⟩ := List.isChain_cons_cons.1 hchain
    obtain ⟨hm, hfree⟩ := List.forall_mem_cons.1 hfree
    obtain ⟨j, hnext', hlive⟩ := ih hchain hfree
    exact ⟨m, hnext, hlive.of_next hm hnext'⟩

end Routine

namespace DataFlow

open FlowGraph Liveness Routine

variable {r : Routine} {a b : String}

theorem graphOf_eq_build (names : List String) (conflicts : List (String × String)) :
    graphOf names conflicts = .build (names.map .node ++ conflicts.map fun c ↦ .edge c.1 c.2) := by
  rw [InterferenceGraph.build, List.foldl_append, List.foldl_map, List.foldl_map]
  rfl

/-- **Two variables interfere in a graph when it is made with their conflict**, in either order. -/
theorem interferes_graphOf_iff {names : List String} {conflicts : List (String × String)}
    (hne : a ≠ b) : (graphOf names conflicts).interferes a b = true ↔
      (a, b) ∈ conflicts ∨ (b, a) ∈ conflicts := by
  have hmem : ∀ x y, .edge x y ∈ names.map InterferenceGraph.Addition.node ++
      conflicts.map (fun c ↦ .edge c.1 c.2) ↔ (x, y) ∈ conflicts := by
    simp
  rw [graphOf_eq_build, InterferenceGraph.interferes_build_iff, and_iff_right hne, hmem, hmem]

/-- The conflicts are those of the points; further names bring variables without conflicts. -/
theorem interference_eq (r : Routine) : ∃ names, (analyze (ofRoutine r) .precise).interference =
    graphOf names ((resultIn r).points.flatMap conflictsAt) :=
  ⟨_, rfl⟩

/-- The conflicts recorded at all points. -/
theorem mem_conflicts_iff (hne : a ≠ b) : (a, b) ∈ (resultIn r).points.flatMap conflictsAt ↔
    ∃ l c, r.Reached l c ∧ (c.Writes a ∧ r.LiveAfter b l.index) ∧ ¬c.CopiesBetween a b := by
  rw [List.mem_flatMap]
  constructor
  · intro ⟨p, hp, hmem⟩
    obtain ⟨l, c, hreached, heq⟩ := exists_reached_of_mem_points hp
    rw [heq, mem_conflictsAt_pointOf_iff] at hmem
    obtain ⟨hwrites, hafter, -, hcopy⟩ := hmem
    have hlive : r.LiveAfter b p.index := ((mem_points_spec hp).2 b).1 hafter
    rw [congrArg LivePoint.index heq] at hlive
    exact ⟨l, c, hreached, ⟨hwrites, hlive⟩, mt (hwrites.copiesBetween_iff hne).1 hcopy⟩
  · intro ⟨l, c, hreached, ⟨hwrites, hlive⟩, hcopy⟩
    obtain ⟨p, hp, heq⟩ := exists_mem_points_of_reached hreached
    have hindex : p.index = l.index := congrArg LivePoint.index heq
    have hafter : b ∈ p.after := ((mem_points_spec hp).2 b).2 (hindex ▸ hlive)
    refine ⟨p, hp, ?_⟩
    rw [heq, mem_conflictsAt_pointOf_iff]
    exact ⟨hwrites, hafter, Ne.symm hne, mt (hwrites.copiesBetween_iff hne).2 hcopy⟩

/-- **Two variables interfere exactly when a reached instruction writes one of them while the other
is live behind it**, copies between the two apart. -/
theorem interferes_iff (hne : a ≠ b) :
    (analyze (ofRoutine r) .precise).interference.interferes a b = true ↔
      ∃ l c, r.Reached l c ∧ r.WritesAcross l c a b ∧ ¬c.CopiesBetween a b := by
  obtain ⟨names, hgraph⟩ := interference_eq r
  rw [hgraph, interferes_graphOf_iff hne, mem_conflicts_iff hne, mem_conflicts_iff (Ne.symm hne)]
  simp only [WritesAcross, Instruction.copiesBetween_comm (a := b), ← exists_or, ← and_or_left,
    ← or_and_right]

/-- **Precise interference is sound and tight**, for any two variables of any routine. Where both
are live, they interfere on account of the last instruction that has written one of them, unless
that instruction copies one to the other; and interfering variables have an instruction that writes
one of them while the other is live behind it. -/
theorem interference_sound_and_tight (r : Routine) (a b : String) (hne : a ≠ b) :
    (∀ (p : Nat) (π : List Nat) (c : Instruction), r.LiveBefore a p → r.LiveBefore b p →
      r.LeadsTo π p → r.LastWriter a b π c → ¬c.CopiesBetween a b →
        (analyze (ofRoutine r) .precise).interference.interferes a b = true) ∧
    ((analyze (ofRoutine r) .precise).interference.interferes a b = true →
      ∃ l c, r.Reached l c ∧ r.WritesAcross l c a b) := by
  refine ⟨fun p π c ha hb hpath hlast hcopy ↦ ?_, fun h ↦ ?_⟩
  · obtain ⟨before, i, between, rfl, hcode, hwrites, hfree⟩ := hlast
    have hsize : 0 < r.size := Nat.zero_lt_of_lt (List.getElem?_eq_some_iff.1 hcode).1
    have hi : i ∈ before ++ i :: between := List.mem_append_right _ List.mem_cons_self
    obtain ⟨l, c', hreached, rfl⟩ := hpath.reachedAt hsize hi
    obtain rfl : c' = c := Option.some.inj (hreached.code.symm.trans hcode)
    have hchain : (l.index :: (between ++ [p])).IsChain r.Next := by
      have hwhole := hpath.2
      rw [List.append_assoc] at hwhole
      exact hwhole.right_of_append
    refine (interferes_iff hne).2 ⟨l, c', hreached, ?_, hcopy⟩
    -- Between the last writer and `p` nothing is written, so both are live since the last writer.
    rcases hwrites with hwrites | hwrites
    · exact Or.inl ⟨hwrites, hb.liveAfter hchain fun m hm ↦ (hfree m hm).2⟩
    · exact Or.inr ⟨hwrites, ha.liveAfter hchain fun m hm ↦ (hfree m hm).1⟩
  · obtain ⟨l, c, hreached, hacross, -⟩ := (interferes_iff hne).1 h
    exact ⟨l, c, hreached, hacross⟩

/-- A copy that is changed while the original is still needed. -/
def changedCopy : Routine where
  name := "copied"
  instructions := [⟨0, .loadImmediate, [.localVar "x" .byte, .ofByte 1], none, none, none⟩,
    ⟨1, .copy, [.localVar "y" .byte, .localVar "x" .byte], none, none, none⟩,
    ⟨2, .add, [.localVar "y" .byte, .localVar "y" .byte, .ofByte 1], none, none, none⟩,
    ⟨3, .add, [.localVar "z" .byte, .localVar "x" .byte, .localVar "y" .byte], none, none, none⟩]

theorem changedCopy_next {i : Nat} (h : i < 3) : changedCopy.Next i (i + 1) := by
  have hopcode : ∀ i < 3, changedCopy.instructions[i]?.bind (·.opcode.nextKind?) =
      some .fallThrough := by decide
  obtain ⟨c, hc, hkind⟩ := Option.bind_eq_some_iff.1 (hopcode i h)
  exact ⟨.fallThrough, step_iff.2 ⟨c, hc, Or.inr ⟨hkind, Nat.succ_lt_succ h, rfl⟩⟩⟩

theorem interference_sound_and_tight_changedCopy :
    (analyze (ofRoutine changedCopy) .precise).interference.interferes "x" "y" = true ∧
      ∃ l c, changedCopy.Reached l c ∧ changedCopy.WritesAcross l c "x" "y" := by
  have hexact := interference_sound_and_tight changedCopy "x" "y" (by decide)
  have hx : changedCopy.LiveBefore "x" 3 :=
    .of_reads ⟨_, rfl, 1, fun _ _ ↦ by decide, _, rfl, rfl⟩
  have hy : changedCopy.LiveBefore "y" 3 :=
    .of_reads ⟨_, rfl, 2, fun _ _ ↦ by decide, _, rfl, rfl⟩
  have hpath : changedCopy.LeadsTo [0, 1, 2] 3 := by
    refine ⟨rfl, ?_⟩
    show [0, 1, 2, 3].IsChain changedCopy.Next
    simp only [List.isChain_cons_cons, List.isChain_singleton, and_true]
    exact ⟨changedCopy_next (by decide), changedCopy_next (by decide),
      changedCopy_next (by decide)⟩
  have hlast : changedCopy.LastWriter "x" "y" [0, 1, 2]
      ⟨2, .add, [.localVar "y" .byte, .localVar "y" .byte, .ofByte 1], none, none, none⟩ :=
    ⟨[0, 1], 2, [], rfl, rfl, Or.inr ⟨_, rfl, Or.inr ⟨rfl, rfl, rfl⟩⟩,
      fun _ hm ↦ absurd hm List.not_mem_nil⟩
  have hinterferes := hexact.1 3 [0, 1, 2] _ hx hy hpath hlast fun hcopy ↦
    absurd hcopy.1 (by decide)
  exact ⟨hinterferes, hexact.2 hinterferes⟩

end DataFlow

end FlowGauge
