import FlowGauge.Proofs.Quality.Acceptance
import FlowGauge.Proofs.Timing.Bounds
import FlowGauge.Proofs.Timing.Recommendations

/-!
# Opportunities and recommendations

The readiness for a category counts the places where a transformation applies. The timing finds such
places on its own account, and most of what it recommends is counted: steps by one, stores of zero
and loops to unroll always are, and scalings by a power of two are when they have no explicit
result. Three kinds of places are not counted (`Overlooked`): unconditional jumps, variables that
are used without a load or a store, and scalings with an explicit result. A category that has a
recommendation has an opportunity, unless all its places are of these kinds and nothing else is
counted for it.

## Two recognisers

Recommendations and opportunities look for the same transformations in different ways. The ones are
found by generators that read opcodes, operands and depths, the others by predicates that read less.
Each comparison is stated for one kind of instruction and holds for all of them: a step by one, a
scaling, a store of zero. What one side finds and the other does not is given a name (`Overlooked`),
in terms of the routine and the target and not of the two recognisers.
-/

namespace FlowGauge

/-! ### Results that belong to a routine -/

/-- What is wrong with an instruction is not wrong with the graph. -/
theorem Routine.isStructural_of_mem_instructionIssues {r : Routine} {issue : Issue}
    (h : issue ∈ r.instructionIssues) : issue.kind.isStructural = false := by
  obtain ⟨⟨i, index⟩, -, h⟩ := List.mem_flatMap.1 h
  obtain ⟨found, hfound, rfl⟩ := List.mem_map.1 h
  rcases List.mem_append.1 hfound with hfound | hfound
  · rw [Option.mem_toList, arityIssue?] at hfound
    split at hfound
    · cases hfound
    · cases hfound
      rfl
  · rw [Option.mem_toList, targetIssue?] at hfound
    split at hfound
    · split at hfound
      · split at hfound
        · cases hfound
        · cases hfound
          rfl
      · cases hfound
        rfl
    · cases hfound

namespace Analysis

theorem run_wellFormed (o : AnalysisOptions) (r : Routine) : (run o r).graph.WellFormed := by
  have hbare := FlowGraph.ofRoutine_wellFormed r
  show FlowGraph.WellFormed (if o.loops then _ else _)
  split
  · exact hbare.markLoops _ _
  · exact hbare

/-- **An analysis finds nothing wrong with its own graph.** -/
theorem not_hasStructuralErrors (o : AnalysisOptions) (r : Routine) :
    (run o r).hasStructuralErrors = false := by
  refine List.any_eq_false.2 fun issue hissue ↦ ?_
  rw [Bool.and_eq_true, not_and, Bool.not_eq_true]
  rcases List.mem_append.1 hissue with hfound | hirreducible
  · split at hfound
    · rcases List.mem_append.1 hfound with hstructure | hcode
      · have hsound := FlowGraph.any_isError_eq_false_iff.2 (run_wellFormed o r)
        exact fun herror ↦ absurd herror (List.any_eq_false.1 hsound issue hstructure)
      · exact fun _ ↦ Routine.isStructural_of_mem_instructionIssues hcode
    · exact absurd hfound List.not_mem_nil
  · split at hirreducible
    · obtain ⟨edge, -, rfl⟩ := List.mem_map.1 hirreducible
      exact fun _ ↦ rfl
    · exact absurd hirreducible List.not_mem_nil

end Analysis

namespace Timing

/-- **The recommendations of a timing are those for the routine on the registered hardware.** -/
theorem recommendations_of_ofRoutine {o : TimingOptions} {registry : Registry} {r : Routine}
    {a : Analysis} {t : Timing} (hname : a.routineName = r.name) (hpictures : a.graph.Pictures r)
    (h : ofRoutine o registry r a = .ok (.ok t)) (hasked : o.recommendations = true) :
    ∃ hardware, registry.profile? o.variant = some hardware ∧ t.routineName = r.name ∧
      t.recommendations = Recommendations.analyze (.fitting r a hardware) := by
  have husable : ¬Unusable o registry := fun hunusable ↦ by
    obtain ⟨e, he, -⟩ := ofRoutine_of_unusable (r := r) (a := a) hunusable
    exact absurd (he.symm.trans h) (by simp)
  obtain ⟨hardware, answer, hhardware, hanswer, hrun, -⟩ :=
    ofRoutine_of_usable (r := r) (a := a) husable
  have hof : TimingContext.of r a hardware = .ok (.fitting r a hardware) :=
    TimingContext.of_eq_ok hname hpictures
  have hresult := hrun _ hof
  rw [Except.ok.inj (hanswer.symm.trans h)] at hresult
  have hreports := (run_settles (TimingContext.inBounds_of_eq_ok hof)).holds_of_ok t hresult.symm
  refine ⟨hardware, hhardware, hreports.target.1, ?_⟩
  rw [hreports.recommendations, if_pos hasked]

end Timing

/-! ### What is recommended and what is counted -/

namespace OptimizationCategory

open Recommendations TimingContext

variable {i : Instruction}

/-- A third operand is read, with and without an explicit result. -/
theorem mem_reads_of_third {o : Operand} (h : i.operands[2]? = some o) : o ∈ i.reads := by
  have hfirst : i.firstRead ≤ 1 := by
    rw [Instruction.firstRead]
    split <;> decide
  refine List.mem_of_getElem? (i := 2 - i.firstRead) ?_
  rw [Instruction.reads, List.getElem?_drop, Nat.add_sub_cancel' (by omega), h]

/-- **Steps by one are counted.** -/
theorem isCheapArithmetic_of_stepsByOne (h : i.StepsByOne) : isCheapArithmetic i = true := by
  obtain ⟨hopcode, d, hd, hvalue⟩ := h
  have hone : (i.reads.filterMap Operand.constant?).any
      (fun c ↦ c.value == 1 || c.value == -1) = true := by
    refine List.any_eq_true.2 ⟨d, List.mem_filterMap.2 ⟨_, mem_reads_of_third hd, rfl⟩, ?_⟩
    have heq : d.value = 1 := Int32.toInt_inj.1 hvalue
    simp [heq]
  rcases hopcode with h | h
  · rw [isCheapArithmetic, h]
    exact hone
  · rw [isCheapArithmetic, h]
    exact hone

/-- **Scalings by a power of two are counted when they have no explicit result.** -/
theorem isCheapArithmetic_of_scalesByPower (h : i.ScalesByPower) (hresult : i.result = none) :
    isCheapArithmetic i = true := by
  obtain ⟨hopcode, d, hd, hpower, -⟩ := h
  have hsecond (hdefines : i.opcode.definesFirstOperand = true) :
      ((i.reads[1]?).bind Operand.constant?).any Constant.isPowerOfTwo = true := by
    rw [Instruction.reads, Instruction.firstRead, hresult, hdefines, List.getElem?_drop]
    simp [hd, Operand.constant?, hpower]
  rcases hopcode with h | h | h
  all_goals
    rw [isCheapArithmetic, h]
    exact hsecond (h ▸ rfl)

/-- **Stores of zero are counted.** -/
theorem storesZero_of_storesZero (h : i.StoresZero) : storesZero i = true := by
  obtain ⟨hopcode, d, hd, hvalue⟩ := h
  have heq : d.value = 0 := Int32.toInt_inj.1 hvalue
  simp [storesZero, hopcode, hd, Operand.constant?, heq]

/-- The category has a place of a kind that is recommended and not counted, and nothing else is
counted for it either. -/
def Overlooked (r : Routine) (a : Analysis) (v : Variant) : OptimizationCategory → Prop
  | .arithmetic => (∃ i ∈ r.instructions, i.ScalesByPower ∧ i.result.isSome = true) ∧
    ∀ i ∈ r.instructions, ¬isCheapArithmetic i = true
  | .memory => (∃ name, (occurrences r a name).Nonempty) ∧
    ∀ i ∈ r.instructions, ¬movesData i = true
  | .hardwareSpecific => (.branchAlways ∈ v.features ∧ ∃ i ∈ r.instructions, i.opcode = .branch) ∧
    ∀ i ∈ r.instructions, ¬storesZero i = true ∧ ¬changesFlag i = true
  | .controlFlow | .register | .constant => False

variable {r : Routine} {a : Analysis} {category : OptimizationCategory}

/-- Some recommendation is covered by the category. -/
def Recommended (category : OptimizationCategory) (s : Recommendations) : Prop :=
  ∃ x ∈ s.recommendations, category.covers x.kind = true

/-- A category has a recommendation when the generator of a kind that it covers finds something. -/
theorem recommended_analyze_iff {c : TimingContext} : category.Recommended (analyze c) ↔
    ∃ kind, category.covers kind = true ∧ ∃ x, x ∈ generated c kind := by
  constructor
  · intro ⟨x, hx, hcovers⟩
    exact ⟨x.kind, hcovers, x, mem_generated_iff.2 ⟨hx, rfl⟩⟩
  · intro ⟨kind, hcovers, x, hx⟩
    obtain ⟨hmem, rfl⟩ := mem_generated_iff.1 hx
    exact ⟨x, hmem, hcovers⟩

/-- **What is overlooked is recommended.** -/
theorem Overlooked.recommended (h : a.graph.Pictures r) {hardware : Hardware}
    (hoverlooked : category.Overlooked r a hardware.variant) :
    category.Recommended (analyze (fitting r a hardware)) := by
  refine recommended_analyze_iff.2 ?_
  cases category with
  | arithmetic =>
    obtain ⟨⟨i, hi, hscales, -⟩, -⟩ := hoverlooked
    exact ⟨.strengthReduction, rfl, (exists_mem_suggestions_iff h hardware).2 ⟨i, hi, hscales⟩⟩
  | memory =>
    exact ⟨.zeroPagePromotion, rfl, (exists_mem_promotions_iff h hardware).2 hoverlooked.1⟩
  | hardwareSpecific =>
    obtain ⟨⟨hfeature, i, hi, hopcode⟩, -⟩ := hoverlooked
    exact ⟨.branchAlways, rfl,
      (exists_mem_suggestions_iff h hardware).2 ⟨i, hi, hfeature, hopcode⟩⟩
  | controlFlow | register | constant => exact hoverlooked.elim

/-- **What is overlooked is not counted.** -/
theorem Overlooked.places_eq_zero {v : Variant} (h : category.Overlooked r a v) :
    category.places r a = 0 := by
  cases category with
  | arithmetic => exact List.countP_eq_zero.2 h.2
  | memory => exact List.countP_eq_zero.2 h.2
  | hardwareSpecific =>
    show List.countP storesZero _ + List.countP changesFlag _ = 0
    rw [List.countP_eq_zero.2 fun i hi ↦ (h.2 i hi).1,
      List.countP_eq_zero.2 fun i hi ↦ (h.2 i hi).2]
  | controlFlow | register | constant => exact h.elim

/-- **What is recommended and not overlooked is counted.** -/
theorem Recommended.places_pos (h : a.graph.Pictures r) {hardware : Hardware}
    (hrecommended : category.Recommended (analyze (fitting r a hardware)))
    (hnot : ¬category.Overlooked r a hardware.variant) : 1 ≤ category.places r a := by
  obtain ⟨kind, hcovers, hfound⟩ := recommended_analyze_iff.1 hrecommended
  by_contra hzero
  have hnone : category.places r a = 0 := by omega
  cases category with
  | arithmetic =>
    have huncounted := List.countP_eq_zero.1 hnone
    cases kind with
    | strengthReduction =>
      obtain ⟨i, hi, hscales⟩ := (exists_mem_suggestions_iff h hardware).1 hfound
      rcases hresult : i.result with - | result
      · exact huncounted i hi (isCheapArithmetic_of_scalesByPower hscales hresult)
      · exact hnot ⟨⟨i, hi, hscales, hresult ▸ rfl⟩, huncounted⟩
    | incrementDecrement =>
      obtain ⟨i, hi, hsteps⟩ := (exists_mem_suggestions_iff h hardware).1 hfound
      exact huncounted i hi (isCheapArithmetic_of_stepsByOne hsteps)
    | _ => cases hcovers
  | memory =>
    cases kind with
    | zeroPagePromotion =>
      exact hnot ⟨(exists_mem_promotions_iff h hardware).1 hfound, List.countP_eq_zero.1 hnone⟩
    | _ => cases hcovers
  | hardwareSpecific =>
    obtain ⟨hstores, hflags⟩ := Nat.add_eq_zero_iff.1 hnone
    have huncounted := List.countP_eq_zero.1 hstores
    cases kind with
    | storeZero =>
      obtain ⟨i, hi, -, hstoresZero⟩ := (exists_mem_suggestions_iff h hardware).1 hfound
      exact huncounted i hi (storesZero_of_storesZero hstoresZero)
    | branchAlways =>
      obtain ⟨i, hi, hfeature, hopcode⟩ := (exists_mem_suggestions_iff h hardware).1 hfound
      exact hnot ⟨⟨hfeature, i, hi, hopcode⟩,
        fun j hj ↦ ⟨huncounted j hj, List.countP_eq_zero.1 hflags j hj⟩⟩
    | _ => cases hcovers
  | controlFlow =>
    have hloops := List.eq_nil_of_length_eq_zero (Nat.add_eq_zero_iff.1 hnone).2
    cases kind with
    | loopUnrolling =>
      obtain ⟨x, hx⟩ := hfound
      obtain ⟨l, hl, -⟩ := List.mem_filterMap.1 hx
      exact absurd (hloops ▸ hl : l ∈ []) List.not_mem_nil
    | _ => cases hcovers
  | register => cases kind <;> cases hcovers
  | constant => cases kind <;> cases hcovers

end OptimizationCategory

/-! ### The report -/

namespace QualityReport

/-- Results for a routine belong to it, so they are judged. -/
theorem ofRoutine_eq_run {o : AnalysisOptions} {r : Routine} {t : Timing}
    (hname : t.routineName = r.name) (q : QualityOptions) :
    ofRoutine q r (some (.run o r)) (some t) = run q r (.run o r) (some t) := by
  have hbelongs : (Analysis.run o r).Belongs r (some t) :=
    ⟨rfl, rfl, fun timed htimed ↦ Option.some.inj htimed ▸ hname⟩
  rw [ofRoutine, if_neg (by simp [Analysis.not_hasStructuralErrors]),
    Mismatch.find?_eq_none_iff.2 hbelongs]

/-- **A category with a recommendation has an opportunity, unless all of its places are
overlooked**: for every routine with the analysis and the timing computed for it, on every target,
and every category. There is a report exactly when the places of the categories can be counted. -/
theorem opportunities_exact (o : AnalysisOptions) (r : Routine) (a : Analysis)
    (ha : Analysis.ofRoutine o r = .ok a) (target : TimingOptions) (registry : Registry)
    (t : Timing) (ht : Timing.ofRoutine target registry r a = .ok (.ok t))
    (hrecommendations : target.recommendations = true) (q : QualityOptions)
    (hreadiness : q.readiness = true) :
    ∃ hardware, registry.profile? target.variant = some hardware ∧
      ((∃ report, ofRoutine q r (some a) (some t) = .ok report) ↔ a.Countable r) ∧
      ∀ report, ofRoutine q r (some a) (some t) = .ok report →
        ∀ category : OptimizationCategory, ∃ entry,
          report.readiness.category? category = some entry ∧
            ((category.Recommended t.recommendations → 1 ≤ entry.opportunities) ↔
              ¬category.Overlooked r a hardware.variant) := by
  obtain ⟨rfl, -⟩ := Analysis.eq_run_of_ofRoutine ha
  have hpictures := Analysis.run_pictures o r
  obtain ⟨hardware, hhardware, hname, hanalyze⟩ :=
    Timing.recommendations_of_ofRoutine rfl hpictures ht hrecommendations
  have hsettles := run_settles q r (.run o r) (some t)
  rw [ofRoutine_eq_run hname]
  refine ⟨hardware, hhardware, ?_, fun report hreport category ↦ ?_⟩
  · rw [hsettles.exists_ok_iff]
    exact forall_prop_of_true hreadiness
  obtain ⟨readiness, rfl, hentries⟩ := hsettles.holds_of_ok report hreport
  obtain ⟨entry, hentry, hcount⟩ := hentries hreadiness category
  refine ⟨entry, hentry, ?_⟩
  rw [hcount, hanalyze]
  constructor
  · intro hcounted hoverlooked
    have hpos := hcounted (hoverlooked.recommended hpictures)
    exact absurd hoverlooked.places_eq_zero (by omega)
  · exact fun hnot hrecommended ↦ hrecommended.places_pos hpictures hnot

/-- A platform whose variant can store zero and jump always. -/
def x16 : TimingOptions where
  platform := .x16
  variant := .wdc65C02

/-- A count by one. -/
def countUp : Routine where
  name := "count"
  instructions := [⟨0, .add, [.temp 0, .temp 0, .ofByte 1], none, none, none⟩,
    ⟨1, .ret, [.temp 0], none, none, none⟩]

theorem opportunities_exact_countUp : ∃ a t report, Analysis.ofRoutine {} countUp = .ok a ∧
    Timing.ofRoutine x16 .standard countUp a = .ok (.ok t) ∧
      OptimizationCategory.arithmetic.Recommended t.recommendations ∧
        ofRoutine {} countUp (some a) (some t) = .ok report ∧
          ∃ entry, report.readiness.category? .arithmetic = some entry ∧
            1 ≤ entry.opportunities := by
  have hpictures := Analysis.run_pictures {} countUp
  obtain ⟨t, ht⟩ := Timing.exists_of_isOk x16 .standard countUp (.run {} countUp)
    (by decide +kernel)
  obtain ⟨hardware, -, hreport, hexact⟩ :=
    opportunities_exact {} countUp _ rfl x16 .standard t ht rfl {} rfl
  obtain ⟨report, hreport⟩ := hreport.2 (by intro category; cases category <;> decide +kernel)
  obtain ⟨entry, hentry, hiff⟩ := hexact report hreport .arithmetic
  have hnot : ¬OptimizationCategory.arithmetic.Overlooked countUp (.run {} countUp)
      hardware.variant := fun h ↦ h.2 _ List.mem_cons_self (by decide)
  obtain ⟨hardware, -, -, hanalyze⟩ := Timing.recommendations_of_ofRoutine rfl hpictures ht rfl
  have hrecommended : OptimizationCategory.arithmetic.Recommended t.recommendations := by
    rw [hanalyze, OptimizationCategory.recommended_analyze_iff]
    refine ⟨.incrementDecrement, rfl,
      (Recommendations.exists_mem_suggestions_iff hpictures _).2 ?_⟩
    exact ⟨_, List.mem_cons_self, Or.inl rfl, _, rfl, by decide⟩
  exact ⟨_, t, report, rfl, ht, hrecommended, hreport, entry, hentry, hiff.2 hnot hrecommended⟩

/-- A jump to the next instruction. -/
def skip : Routine where
  name := "skip"
  instructions := [⟨0, .branch, [.label "end"], none, none, none⟩,
    ⟨1, .label, [.label "end"], none, none, none⟩, ⟨2, .ret, [], none, none, none⟩]

/-- **A jump that the timing recommends to shorten is no opportunity.** -/
theorem branch_overlooked : ∃ a t report, Analysis.ofRoutine {} skip = .ok a ∧
    Timing.ofRoutine x16 .standard skip a = .ok (.ok t) ∧
      OptimizationCategory.hardwareSpecific.Recommended t.recommendations ∧
        ofRoutine {} skip (some a) (some t) = .ok report ∧
          ∃ entry, report.readiness.category? .hardwareSpecific = some entry ∧
            entry.opportunities = 0 := by
  have hpictures := Analysis.run_pictures {} skip
  obtain ⟨t, ht⟩ := Timing.exists_of_isOk x16 .standard skip (.run {} skip) (by decide +kernel)
  obtain ⟨hardware, hhardware, hname, hanalyze⟩ :=
    Timing.recommendations_of_ofRoutine rfl hpictures ht rfl
  obtain rfl : Hardware.ofVariant .wdc65C02 = hardware := Option.some.inj hhardware
  have hoverlooked : OptimizationCategory.hardwareSpecific.Overlooked skip (.run {} skip)
      .wdc65C02 :=
    ⟨⟨by decide, _, List.mem_cons_self, rfl⟩, by decide⟩
  have hsettles := run_settles {} skip (.run {} skip) (some t)
  obtain ⟨report, hreport⟩ := hsettles.exists_ok_iff.2 fun _ category ↦ by
    cases category <;> decide +kernel
  obtain ⟨readiness, rfl, hentries⟩ := hsettles.holds_of_ok report hreport
  obtain ⟨entry, hentry, hcount⟩ := hentries rfl .hardwareSpecific
  exact ⟨_, t, _, rfl, ht, hanalyze ▸ hoverlooked.recommended hpictures,
    (ofRoutine_eq_run hname {}).trans hreport, entry, hentry,
    hcount.trans hoverlooked.places_eq_zero⟩

end QualityReport

end FlowGauge
