import FlowGauge.Proofs.Checked
import FlowGauge.Proofs.Timing.CycleSums
import FlowGauge.Timing

/-!
# Timing runs stay in bounds

A timing run is given a flow analysis that may be of another routine, with any graph and any loops.
It looks up loop depths and cycles at the indices that the blocks and the latches name, and a
look-up outside of a list stops it. `TimingContext.of` checks three things first: the name, the
number of instructions and the span of every block. That is enough for every look-up to lie inside
(`TimingContext.inBounds_of_eq_ok`), whatever the graph and the loops are.

What is left to stop a run is a word that is too narrow. The sections settle one by one on what they
compute, and on the sums that have to fit for it (`Checked.Settles`); a run puts them in sequence
(`Timing.run_settles`). `Timing.ofRoutine_soft` says what is answered to any pair of inputs.

## Which sums have to fit

`TimingContext.WithinWords` lists them section by section, each with the width of its word, and only
for the sections that are asked for. The total of all cycles and the sums along paths have 64 bits;
the sums of the memory, of the latches and of the accesses to a variable have 32. The totals of the
recommendations have 64 again. Where a section caps a product instead of stopping there is nothing
to ask for.

The condition is not only sufficient. A run comes to its end exactly when it holds, and otherwise
the fault is one of arithmetic, never a look-up.
-/

namespace FlowGauge

/-! ### Analyses that fit a routine -/

namespace TimingContext

/-- What is checked of an analysis before it is used for a routine. -/
structure Fits (r : Routine) (a : Analysis) : Prop where
  name_eq : a.routineName = r.name
  count_eq : a.graph.instructionCount = r.size
  within : ∀ b ∈ a.graph.blocks, b.start ≤ b.stop ∧ b.stop ≤ r.size

variable {r : Routine} {a : Analysis} {hardware : Hardware} {c : TimingContext}

/-- **There is a context exactly when the analysis fits**, and it holds the depths of the blocks. -/
theorem of_eq_ok_iff :
    TimingContext.of r a hardware = .ok c ↔ Fits r a ∧ c = fitting r a hardware := by
  rw [TimingContext.of]
  split
  · next hname => exact iff_of_false (by simp) fun h ↦ hname h.1.name_eq
  split
  · next hcount => exact iff_of_false (by simp) fun h ↦ hcount h.1.count_eq
  next hname hcount =>
  split
  · next b hfound =>
    have hspan : r.size < b.stop ∨ b.stop < b.start := by simpa using List.find?_some hfound
    refine iff_of_false (by simp) fun h ↦ ?_
    have hwithin := h.1.within b (List.mem_of_find?_eq_some hfound)
    omega
  · next hnone =>
    have hwithin : ∀ b ∈ a.graph.blocks, b.start ≤ b.stop ∧ b.stop ≤ r.size := by
      simpa [and_comm] using hnone
    simp only [depths?_eq hwithin, Option.getD_some]
    constructor
    · intro h
      exact ⟨⟨not_not.1 hname, not_not.1 hcount, hwithin⟩, (Except.ok.inj h).symm⟩
    · rintro ⟨-, rfl⟩
      rfl

/-! ### Every look-up lies inside -/

/-- Every look-up of a run in the context lies inside of its list: those of the depths that are
written, of the rows, of the cycles of the blocks, and of the cycles at the latches of any loop. An
advice to unroll a loop counts the cycles at its latches three times, as far as a word goes. -/
structure InBounds (c : TimingContext) : Prop where
  depths : depths? c.analysis c.routine.size = some c.depths
  rows : c.rows? = some c.rows
  blockCycles : ∀ b, c.blockCycles? b = some (c.blockCycles b)
  latches : ∀ l, ∃ reads, c.latchCycles? l = some reads ∧
    ∀ advice, Recommendations.unrolling? c l = some advice →
      advice.cycleBenefit = min (total reads * 3) (Word.bound 32 - 1)

/-- The benefit of unrolling is three times the cycles at the latches, at most what a word holds. -/
theorem cycleBenefit_of_unrolling? {l : Loop} {reads : List Nat} {advice : Recommendation}
    (hreads : c.latchCycles? l = some reads)
    (h : Recommendations.unrolling? c l = some advice) :
    advice.cycleBenefit = min (total reads * 3) (Word.bound 32 - 1) := by
  rw [Recommendations.unrolling?] at h
  split at h
  · obtain ⟨header, -, hheader⟩ := Option.bind_eq_some_iff.1 h
    rw [← Option.some.inj hheader, hreads, Option.getD_some]
  · cases h

/-- **In the context of an analysis that fits, every look-up lies inside**, whatever the graph and
the loops are. -/
theorem inBounds_of_eq_ok (h : TimingContext.of r a hardware = .ok c) : c.InBounds := by
  obtain ⟨hfits, rfl⟩ := of_eq_ok_iff.1 h
  have hdepths : (fitting r a hardware).depths.length = r.size := length_depthsOf a r.size
  have hcycles : (fitting r a hardware).cycles.length = r.size := List.length_map _
  have hrows := rows?_eq (c := fitting r a hardware) hdepths hcycles
  have hstops : ∀ b ∈ a.graph.blocks, b.stop ≤ r.size := fun b hb ↦ (hfits.within b hb).2
  exact {
    depths := depths?_eq hfits.within
    rows := by rw [TimingContext.rows, hrows, Option.getD_some]
    blockCycles := (covers_fitting hstops hardware).blockCycles?
    latches := fun l ↦ by
      obtain ⟨reads, hreads⟩ := exists_latchCycles? (c := fitting r a hardware)
        (fun b hb ↦ hcycles ▸ hstops b hb) l
      exact ⟨reads, hreads, fun advice hadvice ↦ cycleBenefit_of_unrolling? hreads hadvice⟩ }

/-! ### Sums that fit their words -/

/-- None of the sums that the options ask for is too great for its word. The bytes of the memory
regions and of the stack, the number of times a variable is used in loops, and the cycles at the
latches of a loop that is worth unrolling are kept in 32 bits; the cycles of the routine and of a
path and the two totals of the recommendations in 64 bits. -/
structure WithinWords (o : TimingOptions) (c : TimingContext) : Prop where
  memory : o.memoryLayout = true → ∃ totals, MemoryLayout.totals c.routine = .ok totals
  stack : o.constraints = true → ∃ bytes, Constraints.stackLocalBytes c.routine = .ok bytes
  accesses : o.recommendations = true → ∀ name,
    (Recommendations.loopAccesses c).countP (·.name == name) < Word.bound 32
  latches : o.recommendations = true → ∀ l ∈ c.analysis.loops,
    (Recommendations.unrolling? c l).isSome = true →
      ∀ reads, c.latchCycles? l = some reads → total reads < Word.bound 32
  cycles : o.cycleTiming = true → (CycleTiming.analyze c).totalCycles < Word.bound 64
  paths : o.cycleTiming = true ∨ o.constraints = true →
    ∀ n ∈ CycleTiming.pathSums c, n < Word.bound 64
  benefits : o.recommendations = true →
    (Recommendations.analyze c).totalCycleBenefit < Word.bound 64 ∧
      (Recommendations.analyze c).totalByteBenefit < Word.bound 64

end TimingContext

/-! ### The sections -/

open Checked (Settles)

variable {c : TimingContext}

/-- A size may be too large, but it looks nothing up. -/
theorem DataType.size_ne_outside (t : DataType) : t.size ≠ .error .outside := by
  induction t with
  | array element length ih =>
    refine Checked.bind_ne_outside ih fun bytes ↦ ?_
    rw [Checked.mul32]
    split <;> nofun
  | _ => nofun

namespace CycleTiming

/-- **The critical path is found when the sums along the paths fit.** -/
theorem walk_settles (h : c.InBounds) :
    Settles (walk c) (∀ n ∈ pathSums c, n < Word.bound 64) (· = worstPath c) := by
  have hcosts : costs? c = some ((List.range c.analysis.graph.size).map c.blockCycles) :=
    TimingContext.mapM_eq_some fun b _ ↦ h.blockCycles b
  refine ((Settles.inside hcosts).bind fun _ _ ↦
    (Settles.mapM fun n _ ↦ Settles.fit64 n).bind fun _ _ ↦ .pure (worstPath c)).congr ?_
      fun _ hn ↦ hn
  simp only [true_and, and_true]

/-- The cycles are counted when their sum and all path sums fit 64-bit words. -/
theorem run_settles (h : c.InBounds) : Settles (run c)
    ((analyze c).totalCycles < Word.bound 64 ∧ ∀ n ∈ pathSums c, n < Word.bound 64)
    (· = analyze c) := by
  refine ((Settles.inside h.rows).bind fun _ _ ↦ (Settles.fit64 _).bind fun _ _ ↦
    (walk_settles h).bind fun _ _ ↦ .pure (analyze c)).congr ?_ fun _ ht ↦ ht
  simp only [true_and, and_true]

end CycleTiming

theorem Hotspots.run_settles (h : c.InBounds) : Settles (run c) True (· = analyze c) :=
  ((Settles.inside h.rows).bind fun _ _ ↦ .pure (analyze c)).congr (by simp) fun _ ht ↦ ht

/-- The bytes of the regions are the only sums of the memory layout. -/
theorem MemoryLayout.analyze_settles (c : TimingContext) : Settles (analyze c)
    (∃ totals, MemoryLayout.totals c.routine = .ok totals) (analyze c = .ok ·) := by
  have hcharge : ∀ t charged, charge t charged ≠ .error .outside := by
    intro t charged
    refine Checked.bind_ne_outside charged.2.size_ne_outside fun size ↦ ?_
    obtain ⟨_ | _ | _ | _, type⟩ := charged
    · nofun
    all_goals exact Checked.bind_ne_outside (Checked.add32_ne_outside _ _) fun _ ↦ nofun
  have htotals : totals c.routine ≠ .error .outside :=
    Checked.foldlM_ne_outside (fun t charged _ ↦ hcharge t charged) _
  rw [analyze]
  exact .of_bind htotals fun _ ↦ ⟨_, rfl⟩

namespace Constraints

/-- Constraints are checked when the locals on the stack can be counted. -/
theorem analyze_settles (c : TimingContext) (interruptBudget : Nat) (frameBudget : Option Nat) :
    Settles (analyze c interruptBudget frameBudget)
      (∃ bytes, stackLocalBytes c.routine = .ok bytes)
      (analyze c interruptBudget frameBudget = .ok ·) := by
  have hbytes : stackLocalBytes c.routine ≠ .error .outside := by
    refine Checked.foldlM_ne_outside (fun sum size hsize ↦ ?_) 0
    obtain ⟨l, -, rfl⟩ := List.mem_map.1 hsize
    exact Checked.bind_ne_outside l.type.size_ne_outside fun _ ↦ Checked.add32_ne_outside _ _
  rw [analyze]
  exact .of_bind hbytes fun _ ↦ ⟨_, rfl⟩

theorem run_settles (h : c.InBounds) (interruptBudget : Nat) (frameBudget : Option Nat) :
    Settles (run c interruptBudget frameBudget)
      ((∃ bytes, stackLocalBytes c.routine = .ok bytes) ∧
        ∀ n ∈ CycleTiming.pathSums c, n < Word.bound 64)
      (analyze c interruptBudget frameBudget = .ok ·) := by
  refine (analyze_settles c interruptBudget frameBudget).bind fun found hfound ↦ ?_
  refine ((CycleTiming.walk_settles h).bind fun _ _ ↦ (Settles.pure found)).congr
    (and_iff_left trivial) fun y hy ↦ ?_
  rw [hy]
  exact hfound

end Constraints

namespace Recommendations

/-- A variable that is used in no loop has no access to count. -/
theorem countAccesses_iff : (∀ name ∈ (loopVariables c).toList,
    ((loopAccesses c).filter (·.name == name)).length < Word.bound 32) ↔
      ∀ name, (loopAccesses c).countP (·.name == name) < Word.bound 32 := by
  simp only [← List.countP_eq_length_filter]
  refine ⟨fun h name ↦ ?_, fun h name _ ↦ h name⟩
  by_cases hname : name ∈ (loopVariables c).toList
  · exact h name hname
  · rw [List.countP_eq_zero.2]
    · decide
    · intro access haccess heq
      rw [Std.ExtTreeSet.mem_toList, loopVariables, Std.ExtTreeSet.mem_ofList,
        List.contains_iff_mem] at hname
      exact hname (List.mem_map.2 ⟨access, haccess, beq_iff_eq.1 heq⟩)

/-- The cycles at the latches of a loop are summed in 32-bit words. -/
theorem sumLatches_settles (h : c.InBounds) (l : Loop) : Settles (sumLatches c l)
    (∀ reads, c.latchCycles? l = some reads → total reads < Word.bound 32)
    (· = total ((c.latchCycles? l).getD [])) := by
  obtain ⟨reads, hreads, -⟩ := h.latches l
  have hsum : ∀ found, found = reads → Settles (Checked.sum32 (found.map .ok))
      (total reads < Word.bound 32) (· = total reads) := by
    rintro found rfl
    exact Settles.sum32 found
  exact ((Settles.inside hreads).bind hsum).congr (by simp [hreads]) (by simp [hreads])

theorem run_settles (h : c.InBounds) : Settles (run c)
    ((∀ name, (loopAccesses c).countP (·.name == name) < Word.bound 32) ∧
      (∀ l ∈ c.analysis.loops, (unrolling? c l).isSome = true →
        ∀ reads, c.latchCycles? l = some reads → total reads < Word.bound 32) ∧
      (analyze c).totalCycleBenefit < Word.bound 64 ∧ (analyze c).totalByteBenefit < Word.bound 64)
    (· = analyze c) := by
  refine ((Settles.inside h.rows).bind fun _ _ ↦
    (Settles.mapM fun name _ ↦ Settles.count _).bind fun _ _ ↦
    (Settles.mapM fun l _ ↦ sumLatches_settles h l).bind fun _ _ ↦
    (Settles.fit64 _).bind fun _ _ ↦ (Settles.fit64 _).bind fun _ _ ↦
    .pure (analyze c)).congr ?_ fun _ ht ↦ ht
  rw [← countAccesses_iff]
  simp only [true_and, and_true, List.mem_filter, and_imp]

end Recommendations

/-! ### What a run answers -/

namespace Timing

/-- No section is computed. -/
structure Bare (t : Timing) : Prop where
  cycleTiming : t.cycleTiming = {}
  memoryLayout : t.memoryLayout = {}
  registers : t.registers = {}
  hotspots : t.hotspots = {}
  constraints : t.constraints = {}
  recommendations : t.recommendations = {}

/-- The sections that are asked for are those of the context and the others are empty; the issues
are those found on the way, and the result is valid when none of them is an error. -/
structure Reports (o : TimingOptions) (c : TimingContext) (t : Timing) : Prop where
  target : t.routineName = c.routine.name ∧ t.platform = o.platform ∧ t.variant = o.variant
  isValid_iff : t.isValid = true ↔ ∀ i ∈ t.issues, i.severity ≠ .error
  cycleTiming : t.cycleTiming = if o.cycleTiming then CycleTiming.analyze c else {}
  hotspots : t.hotspots = if o.hotspots then Hotspots.analyze c else {}
  recommendations : t.recommendations = if o.recommendations then Recommendations.analyze c else {}
  issues : ∃ memory registers constraints, t.issues = memory ++ registers ++ constraints ∧
    (if o.memoryLayout then MemoryLayout.analyze c else .ok ({}, [])) =
      .ok (t.memoryLayout, memory) ∧
    (if o.registers then RegisterDemand.analyze c else ({}, [])) = (t.registers, registers) ∧
    (if o.constraints then Constraints.analyze c o.interruptBudget o.frameBudget
      else .ok ({}, [])) = .ok (t.constraints, constraints)

variable {o : TimingOptions} {registry : Registry} {r : Routine} {a : Analysis}

/-- A result that only says why there is none has no sections. -/
theorem failed_bare (r : Routine) (o : TimingOptions) (m : Misfit) : (failed r o m).Bare :=
  ⟨rfl, rfl, rfl, rfl, rfl, rfl⟩

/-- **A run reports on its context exactly when its sums fit their words**, and nothing is looked up
outside. -/
theorem run_settles {c : TimingContext} (h : c.InBounds) :
    Settles (run o c) (c.WithinWords o) (·.Reports o c) := by
  refine ((Settles.onRequest_eq _ _ (CycleTiming.run_settles h)).bind fun cycleTiming hcycles ↦
    (Settles.onRequest_ok _ _ (MemoryLayout.analyze_settles c)).bind fun memory hmemory ↦
    (Settles.onRequest_eq _ _ (Hotspots.run_settles h)).bind fun hotspots hhotspots ↦
    (Settles.onRequest_ok _ _ (Constraints.run_settles h _ _)).bind fun limits hlimits ↦
    (Settles.onRequest_eq _ _ (Recommendations.run_settles h)).bind fun advice hadvice ↦
    (Settles.pure _).congr (Q := Reports o c) Iff.rfl ?_).congr ?_ fun _ ht ↦ ht
  · rintro _ rfl
    refine ⟨⟨rfl, rfl, rfl⟩, ?_, hcycles, hhotspots, hadvice, memory.2, _, limits.2, rfl, hmemory,
      rfl, hlimits⟩
    show (!List.any _ Issue.isError) = true ↔ _
    rw [Bool.not_eq_true', List.any_eq_false]
    simp only [Issue.isError, beq_iff_eq, ne_eq]
  · constructor
    · rintro ⟨hcycles, hmemory, -, hstack, hadvice, -⟩
      exact ⟨hmemory, fun hasked ↦ (hstack hasked).1, fun hasked ↦ (hadvice hasked).1,
        fun hasked ↦ (hadvice hasked).2.1, fun hasked ↦ (hcycles hasked).1,
        fun hasked ↦ hasked.elim (fun hasked ↦ (hcycles hasked).2) fun hasked ↦ (hstack hasked).2,
        fun hasked ↦ (hadvice hasked).2.2⟩
    · intro hwords
      exact ⟨fun hasked ↦ ⟨hwords.cycles hasked, hwords.paths (.inl hasked)⟩, hwords.memory,
        fun _ ↦ trivial, fun hasked ↦ ⟨hwords.stack hasked, hwords.paths (.inr hasked)⟩,
        fun hasked ↦ ⟨hwords.accesses hasked, hwords.latches hasked, hwords.benefits hasked⟩,
        trivial⟩

/-! ### Refusals -/

/-- The target cannot be used: its platform does not come with its variant, a budget is empty, or
no hardware is registered for the variant. -/
def Unusable (o : TimingOptions) (registry : Registry) : Prop :=
  o.platform.supports o.variant = false ∨ o.interruptBudget = 0 ∨ o.frameBudget = some 0 ∨
    registry.profile? o.variant = none

/-- Options that cannot be used are refused before the analysis is looked at. -/
theorem ofRoutine_of_unusable (h : Unusable o registry) :
    ∃ e, ofRoutine o registry r a = .error e ∧ e.isConfiguration = true := by
  rw [ofRoutine, TimingOptions.validate]
  split
  · exact ⟨_, rfl, rfl⟩
  split
  · exact ⟨_, rfl, rfl⟩
  split
  · exact ⟨_, rfl, rfl⟩
  next hsupports hinterrupt hframe =>
  have hnone : registry.profile? o.variant = none := by
    rw [Bool.not_eq_true', Bool.not_eq_false] at hsupports
    simpa [Unusable, hsupports, hinterrupt, hframe] using h
  rw [Registry.find, hnone]
  exact ⟨_, rfl, rfl⟩

/-- **Usable options always give an answer**: a run, or a result that names the misfit. -/
theorem ofRoutine_of_usable (h : ¬Unusable o registry) : ∃ hardware answer,
    registry.profile? o.variant = some hardware ∧ ofRoutine o registry r a = .ok answer ∧
      (∀ c, TimingContext.of r a hardware = .ok c → answer = run o c) ∧
      ∀ m, TimingContext.of r a hardware = .error m → answer = .ok (failed r o m) := by
  obtain ⟨hsupports, hinterrupt, hframe, hsome⟩ : o.platform.supports o.variant = true ∧
      o.interruptBudget ≠ 0 ∧ o.frameBudget ≠ some 0 ∧ registry.profile? o.variant ≠ none := by
    simpa [Unusable] using h
  obtain ⟨hardware, hhardware⟩ := Option.ne_none_iff_exists'.1 hsome
  rw [ofRoutine, TimingOptions.validate, if_neg (by simp [hsupports]), if_neg hinterrupt,
    if_neg hframe, Registry.find, hhardware]
  cases hof : TimingContext.of r a hardware with
  | ok c =>
    refine ⟨hardware, run o c, rfl, ?_, by simp [hof], by simp [hof]⟩
    simp only [bind, Except.bind, hof]
    rfl
  | error m =>
    refine ⟨hardware, .ok (failed r o m), rfl, ?_, by simp [hof], by simp [hof]⟩
    simp only [bind, Except.bind, hof]
    rfl

/-- Whether there is a timing can be found out by computing it. -/
theorem exists_of_isOk (o : TimingOptions) (registry : Registry) (r : Routine) (a : Analysis)
    (h : (ofRoutine o registry r a).toOption.any Except.isOk = true) :
    ∃ t, ofRoutine o registry r a = .ok (.ok t) := by
  rcases hresult : ofRoutine o registry r a with e | answer
  · rw [hresult] at h
    cases h
  · rw [hresult] at h
    obtain ⟨t, ht⟩ := Checked.exists_eq_ok_of_isOk h
    exact ⟨t, congrArg Except.ok ht⟩

/-- **A timing run fails soft and stays in bounds**, on any routine with any analysis. It is refused
exactly when the target cannot be used, and the configuration is to blame. An analysis that does not
fit the routine yields an invalid result with a single error and no section. For an analysis that
fits, every look-up lies inside; there is a result exactly when the sums fit their words, and it has
the sections that are asked for. -/
theorem ofRoutine_soft (o : TimingOptions) (registry : Registry) (r : Routine) (a : Analysis) :
    ((∃ e, ofRoutine o registry r a = .error e) ↔ Unusable o registry) ∧
    (∀ e, ofRoutine o registry r a = .error e → e.isConfiguration = true) ∧
    ∀ result, ofRoutine o registry r a = .ok result →
      (¬TimingContext.Fits r a → ∃ t, result = .ok t ∧ t.isValid = false ∧
        (∃ i, t.issues = [i] ∧ i.kind = .analysisError ∧ i.severity = .error) ∧ t.Bare) ∧
      (TimingContext.Fits r a → ∃ hardware c, registry.profile? o.variant = some hardware ∧
        TimingContext.of r a hardware = .ok c ∧ c.InBounds ∧
          ((∃ t, result = .ok t) ↔ c.WithinWords o) ∧
            (∀ t, result = .ok t → t.Reports o c) ∧ result ≠ .error .outside) := by
  by_cases hunusable : Unusable o registry
  · obtain ⟨e, he, hconfiguration⟩ := ofRoutine_of_unusable (r := r) (a := a) hunusable
    rw [he]
    refine ⟨⟨fun _ ↦ hunusable, fun _ ↦ ⟨e, rfl⟩⟩, fun e' he' ↦ ?_,
      fun _ h ↦ absurd h (by simp)⟩
    rwa [← Except.error.inj he']
  obtain ⟨hardware, answer, hhardware, hanswer, hrun, hfailed⟩ :=
    ofRoutine_of_usable (r := r) (a := a) hunusable
  rw [hanswer]
  refine ⟨⟨nofun, fun h ↦ absurd h hunusable⟩, nofun, fun result hresult ↦ ?_⟩
  rw [← Except.ok.inj hresult]
  constructor
  · intro hmisfit
    cases hof : TimingContext.of r a hardware with
    | ok c => exact absurd (TimingContext.of_eq_ok_iff.1 hof).1 hmisfit
    | error m => exact ⟨_, hfailed m hof, rfl, ⟨_, rfl, rfl, rfl⟩, failed_bare r o m⟩
  · intro hfits
    have hof : TimingContext.of r a hardware = .ok (.fitting r a hardware) :=
      TimingContext.of_eq_ok_iff.2 ⟨hfits, rfl⟩
    have hbounds := TimingContext.inBounds_of_eq_ok hof
    have hsettles := run_settles (o := o) hbounds
    rw [hrun _ hof]
    exact ⟨hardware, _, hhardware, hof, hbounds, hsettles.exists_ok_iff, hsettles.holds_of_ok,
      hsettles.ne_outside⟩

/-- A loop that belongs to no graph: of its three latches one is a block that spans a routine, one a
block that spans nothing, and one no block at all. -/
def strayLoop : Loop where
  id := 0
  header := 0
  backEdges := [(0, 0)]
  latches := .ofList [0, 1, 9]
  body := .ofList [0, 7]
  exits := ∅
  preheader := none
  depth := 2
  kind := .complex
  traits := {}

/-- An analysis with two blocks, which overlap, and the loop. -/
def stray : Analysis :=
  { Analysis.run {} CycleTiming.loopInLoop with
    graph :=
      { routineName := "nested"
        blocks := [{ id := 0, start := 0, stop := 5, code := CycleTiming.loopInLoop.instructions },
          { id := 1, start := 0, stop := 0, code := [] }]
        edges := []
        entry := some 0
        exits := ∅ }
    loops := [strayLoop] }

theorem ofRoutine_soft_stray :
    (∃ c t, TimingContext.of CycleTiming.loopInLoop stray (.ofVariant .mos6510) = .ok c ∧
      c.InBounds ∧ c.WithinWords {} ∧
      ofRoutine {} .standard CycleTiming.loopInLoop stray = .ok (.ok t) ∧ t.Reports {} c ∧
        t.recommendations.totalCycleBenefit = 18) ∧
    (∃ t, ofRoutine {} .standard { name := "other" } stray = .ok (.ok t) ∧ t.isValid = false ∧
      t.Bare) ∧
    ∃ e, ofRoutine { interruptBudget := 0 } .standard CycleTiming.loopInLoop stray = .error e ∧
      e.isConfiguration = true := by
  refine ⟨?_, ?_, ?_⟩
  · obtain ⟨-, -, hanswer⟩ := ofRoutine_soft {} .standard CycleTiming.loopInLoop stray
    obtain ⟨t, ht⟩ := exists_of_isOk {} .standard CycleTiming.loopInLoop stray (by decide +kernel)
    have hfits : TimingContext.Fits CycleTiming.loopInLoop stray :=
      ⟨rfl, by decide +kernel, by decide +kernel⟩
    obtain ⟨hardware, c, hhardware, hc, hbounds, hwords, hreports, -⟩ := (hanswer _ ht).2 hfits
    obtain rfl : Hardware.ofVariant .mos6510 = hardware := Option.some.inj hhardware
    have hreports := hreports t rfl
    refine ⟨c, t, hc, hbounds, hwords.1 ⟨t, rfl⟩, ht, hreports, ?_⟩
    rw [hreports.recommendations, (TimingContext.of_eq_ok_iff.1 hc).2]
    decide +kernel
  · obtain ⟨-, -, hanswer⟩ := ofRoutine_soft {} .standard { name := "other" } stray
    have hmisfit : ¬TimingContext.Fits { name := "other" } stray := fun h ↦
      absurd h.name_eq (by decide)
    obtain ⟨t, ht, hinvalid, -, hbare⟩ := (hanswer _ rfl).1 hmisfit
    exact ⟨t, congrArg Except.ok ht, hinvalid, hbare⟩
  · obtain ⟨hrefused, hconfiguration, -⟩ :=
      ofRoutine_soft { interruptBudget := 0 } .standard CycleTiming.loopInLoop stray
    obtain ⟨e, he⟩ := hrefused.2 (.inr (.inl rfl))
    exact ⟨e, he, hconfiguration e he⟩

end Timing

end FlowGauge
