import FlowGauge.Proofs.Checked
import FlowGauge.Quality
import Mathlib.Tactic.Common

/-!
# A report is acceptable exactly when nothing is wrong

A report comes into being in one of two ways (`QualityReport.ofRoutine_cases`). Results that cannot
be used leave a report without sections, with the score zero and with something critical in it.
Results that can be used are judged, and then the critical findings are the mandatory gates that
fail and the errors of the flow analysis and of the timing, none of them dropped
(`QualitySummary.critical_of_eq_nil_iff`). Nothing is assumed about the results: they may carry any
issues, belong to another routine or be missing.

One thing keeps a report from coming into being at all. The readiness counts the places where
transformations apply, in one category with the variables that are live at once added to them, and
the analysis may name any number of these. `Analysis.Countable` says that the counts fit their
words; when they do, and when nobody asks for the readiness, there is a report.

## Findings and texts

Whether a report is acceptable is decided by its list of critical messages, and messages are texts.
So the question is which findings leave a text and which leave none, not what the texts say. A gate
that is mandatory and fails leaves one, and so does each error of the analysis and of the timing;
warnings and gates of less importance go into lists of their own.

Gates judge numbers that the report holds, doubles among them, and nothing is said here about what
the numbers are. A gate passes, warns, fails or has nothing to measure, and that is all that counts.
-/

namespace FlowGauge

/-! ### Findings in words -/

namespace Gate

/-- A gate does not block as long as it is not mandatory or does not fail. -/
theorem not_blocks_iff {g : Gate} :
    ¬g.blocks = true ↔ (g.rule.importance = .mandatory → g.status ≠ .fail) := by
  rw [blocks, Bool.and_eq_true, beq_iff_eq, beq_iff_eq, not_and]

end Gate

namespace Issue

theorem isError_iff {i : Issue} : i.isError = true ↔ i.severity = .error :=
  beq_iff_eq

end Issue

/-- No issue of a list is an error. -/
def NoErrors (issues : List Issue) : Prop :=
  ∀ i ∈ issues, i.severity ≠ .error

instance (issues : List Issue) : Decidable (NoErrors issues) :=
  inferInstanceAs (Decidable (∀ i ∈ issues, i.severity ≠ .error))

namespace QualitySummary

/-- No error message means no error. -/
theorem messages_error_eq_nil_iff {issues : List Issue} :
    messages .error issues = [] ↔ NoErrors issues := by
  simp [messages, NoErrors]

/-- No critical message of a gate means that no gate blocks. -/
theorem criticalGates_eq_nil_iff {gates : List Gate} :
    criticalGates gates = [] ↔ ∀ g ∈ gates, ¬g.blocks = true := by
  simp [criticalGates]

/-- **Nothing is critical exactly when no gate blocks and there is no error**, in the analysis or in
the timing. -/
theorem critical_of_eq_nil_iff {a : Analysis} {t : Option Timing} {c : Complexity}
    {p : Performance} {r : Readiness} {g : GateResults} :
    (of a t c p r g).critical = [] ↔ (∀ gate ∈ g.gates, ¬gate.blocks = true) ∧
      NoErrors a.issues ∧ ∀ timed, t = some timed → NoErrors timed.issues := by
  have htiming : NoErrors (t.elim [] Timing.issues) ↔
      ∀ timed, t = some timed → NoErrors timed.issues := by
    cases t with
    | none => simp [NoErrors]
    | some timed => simp
  show criticalGates g.gates ++ messages .error a.issues ++
    messages .error (t.elim [] Timing.issues) = [] ↔ _
  rw [List.append_eq_nil_iff, List.append_eq_nil_iff, criticalGates_eq_nil_iff,
    messages_error_eq_nil_iff, messages_error_eq_nil_iff, htiming, and_assoc]

end QualitySummary

/-! ### Readiness -/

/-- In every category the number of places where a transformation applies fits a word. -/
def Analysis.Countable (a : Analysis) (r : Routine) : Prop :=
  ∀ category : OptimizationCategory, category.places r a < Word.bound 64

namespace Readiness

open Checked (Settles)

variable {r : Routine} {a : Analysis} {complexity confidence : Float} {t : Option Timing}

/-- A category is assessed when its count fits a word, and then as it would be without words. -/
theorem assessCategory_settles (c : OptimizationCategory) :
    Settles (assessCategory r a complexity t c) (c.places r a < Word.bound 64)
      (· = rate complexity t c (c.places r a)) := by
  refine ((Settles.fit64 (c.places r a)).bind fun n hn ↦
    (Settles.pure (rate complexity t c n)).congr Iff.rfl fun entry hentry ↦ ?_).congr
      (and_iff_left trivial) fun _ h ↦ h
  rw [hentry, hn]

/-- **The readiness has an entry for each category**, with the places that are counted for it. -/
theorem assess_settles : Settles (assess r a complexity confidence t) (a.Countable r)
    fun s ↦ ∀ category, s.category? category =
      some (rate complexity t category (category.places r a)) := by
  have hall : (∀ category ∈ (Vocabulary.all : List OptimizationCategory),
      category.places r a < Word.bound 64) ↔ a.Countable r :=
    ⟨fun h category ↦ h category (by cases category <;> decide), fun h category _ ↦ h category⟩
  refine ((Settles.mapM fun c _ ↦ assessCategory_settles c).bind fun categories hcategories ↦
    (Settles.pure _).congr Iff.rfl fun s hs category ↦ ?_).congr
      ((and_iff_left trivial).trans hall) fun _ h ↦ h
  rw [hs, hcategories]
  cases category <;> rfl

end Readiness

/-! ### Results that can be used -/

/-- The analysis and the timing, if there is one, are of the routine. -/
structure Analysis.Belongs (a : Analysis) (r : Routine) (t : Option Timing) : Prop where
  name_eq : a.routineName = r.name
  count_eq : a.figures.instructionCount = r.size
  timing_eq : ∀ timed, t = some timed → timed.routineName = r.name

/-- Results without a mismatch belong to the routine. -/
theorem Mismatch.find?_eq_none_iff {r : Routine} {a : Analysis} {t : Option Timing} :
    find? r a t = none ↔ a.Belongs r t := by
  have htiming : (t.filter (·.routineName != r.name)).map
      (fun timed ↦ timingName timed.routineName r.name) = none ↔
        ∀ timed, t = some timed → timed.routineName = r.name := by
    simp [Option.filter_eq_none_iff]
  rw [find?]
  split
  · next hname => exact iff_of_false (by simp) fun h ↦ hname h.name_eq
  · next hname =>
    split
    · next hcount => exact iff_of_false (by simp) fun h ↦ hcount h.count_eq
    · next hcount =>
      rw [htiming]
      exact ⟨fun h ↦ ⟨not_not.1 hname, not_not.1 hcount, h⟩, fun h ↦ h.timing_eq⟩

namespace QualityReport

/-- The results cannot be used: there is no analysis, an error breaks its graph, or it or the timing
is of another routine. -/
def Unusable (r : Routine) (a : Option Analysis) (t : Option Timing) : Prop :=
  ∀ found, a = some found →
    (∃ i ∈ found.issues, i.severity = .error ∧ i.kind.isStructural = true) ∨ ¬found.Belongs r t

/-- Nothing is judged by the report: its sections are those that are not asked for. -/
structure Unjudged (q : QualityReport) : Prop where
  score_eq : q.score = 0.0
  critical_ne_nil : q.summary.critical ≠ []
  complexity_eq : q.complexity = {}
  performance_eq : q.performance = {}
  readiness_eq : q.readiness = {}
  gates_eq : q.gates = {}

/-- A report that says only what is wrong has judged nothing. -/
theorem malformed_unjudged {routine : String} {critical : List String} (h : critical ≠ []) :
    (malformed routine critical).Unjudged :=
  ⟨rfl, h, rfl, rfl, rfl, rfl⟩

/-- What has not been judged is not acceptable. -/
theorem Unjudged.not_isAcceptable {q : QualityReport} (h : q.Unjudged) :
    ¬q.isAcceptable = true := by
  have hcritical : q.hasCriticalIssues = true := by
    rw [hasCriticalIssues, Bool.not_eq_true', List.isEmpty_eq_false_iff]
    exact h.critical_ne_nil
  simp [isAcceptable, hcritical]

/-- Structural errors are errors of a structural kind, whatever else the analysis reports. -/
theorem hasStructuralErrors_iff {a : Analysis} : a.hasStructuralErrors = true ↔
    ∃ i ∈ a.issues, i.severity = .error ∧ i.kind.isStructural = true := by
  simp [Analysis.hasStructuralErrors, Issue.isError_iff]

/-- A broken graph is reported with the errors that break it. -/
theorem structuralFaults_ne_nil {a : Analysis} (h : a.hasStructuralErrors = true) :
    structuralFaults a ≠ [] := by
  obtain ⟨i, hi, herror⟩ := List.any_eq_true.1 h
  exact List.ne_nil_of_mem (List.mem_map_of_mem (List.mem_filter.2 ⟨hi, herror⟩))

/-- **A report comes into being in one of two ways.** Either the results cannot be used and nothing
is judged, or they can and all of them are judged. -/
theorem ofRoutine_cases (o : QualityOptions) (r : Routine) (a : Option Analysis)
    (t : Option Timing) :
    Unusable r a t ∧ (∃ report, ofRoutine o r a t = .ok report ∧ report.Unjudged) ∨
      ∃ found, a = some found ∧ found.Belongs r t ∧ found.hasStructuralErrors = false ∧
        ofRoutine o r a t = run o r found t := by
  cases a with
  | none => exact Or.inl ⟨fun _ h ↦ absurd h (by simp), _, rfl, malformed_unjudged (by simp)⟩
  | some found =>
    rw [ofRoutine]
    split
    · next hbroken =>
      refine Or.inl ⟨fun _ h ↦ Or.inl ?_, _, rfl,
        malformed_unjudged (structuralFaults_ne_nil hbroken)⟩
      exact Option.some.inj h ▸ hasStructuralErrors_iff.1 hbroken
    · next hbroken =>
      split
      · next m hm =>
        refine Or.inl ⟨fun _ h ↦ Or.inr fun hbelongs ↦ ?_, _, rfl, malformed_unjudged (by simp)⟩
        rw [← Option.some.inj h] at hbelongs
        exact absurd (Mismatch.find?_eq_none_iff.2 hbelongs) (by simp [hm])
      · next hm =>
        exact Or.inr ⟨found, rfl, Mismatch.find?_eq_none_iff.1 hm, by simpa using hbroken, rfl⟩

/-- Results that belong to the routine and have no structural errors can be used. -/
theorem not_unusable {r : Routine} {a : Analysis} {t : Option Timing} (h : a.Belongs r t)
    (hsound : a.hasStructuralErrors = false) : ¬Unusable r (some a) t := by
  intro hunusable
  rcases hunusable a rfl with hbroken | hother
  · exact absurd (hasStructuralErrors_iff.2 hbroken) (by simp [hsound])
  · exact hother h

/-! ### Judged reports -/

/-- **Results that can be used are judged when their places can be counted**, or when nobody asks
for the readiness. -/
theorem run_settles (o : QualityOptions) (r : Routine) (a : Analysis) (t : Option Timing) :
    Checked.Settles (run o r a t) (o.readiness = true → a.Countable r) fun report ↦
      ∃ readiness, report = compose o r a t readiness ∧ (o.readiness = true →
        ∀ category : OptimizationCategory, ∃ entry, readiness.category? category = some entry ∧
          entry.opportunities = category.places r a) := by
  refine ((Readiness.assess_settles.onRequest o.readiness _).bind fun readiness hreadiness ↦
    (Checked.Settles.pure _).congr Iff.rfl fun report hreport ↦ ⟨readiness, hreport, ?_⟩).congr
      (and_iff_left trivial) fun _ h ↦ h
  intro hasked category
  rw [if_pos hasked] at hreadiness
  exact ⟨_, hreadiness category, rfl⟩

section

variable {o : QualityOptions} {r : Routine} {a : Analysis} {t : Option Timing}
  {readiness : Readiness}

/-- The gates of a judged report fail exactly when one of them blocks, also when they are not asked
for. -/
theorem compose_gates_status_eq_fail_iff : (compose o r a t readiness).gates.status = .fail ↔
    ∃ g ∈ (compose o r a t readiness).gates.gates, g.blocks = true := by
  -- What the gates look at does not matter here, only that they are evaluated or left empty.
  have hgates : ∃ inputs : GateInputs, (compose o r a t readiness).gates =
      if o.gates then inputs.evaluate o.rules else {} := ⟨_, rfl⟩
  obtain ⟨inputs, hinputs⟩ := hgates
  rw [hinputs]
  split
  · exact GateResults.ofGates_status_eq_fail_iff
  · simp

/-- **A judged report is acceptable when no error was found and no mandatory gate fails.** -/
theorem compose_isAcceptable_iff : (compose o r a t readiness).isAcceptable = true ↔
    NoErrors a.issues ∧ (∀ timed, t = some timed → NoErrors timed.issues) ∧
      ∀ g ∈ (compose o r a t readiness).gates.gates,
        g.rule.importance = .mandatory → g.status ≠ .fail := by
  have hcritical : (compose o r a t readiness).summary.critical = [] ↔
      (∀ g ∈ (compose o r a t readiness).gates.gates, ¬g.blocks = true) ∧ NoErrors a.issues ∧
        ∀ timed, t = some timed → NoErrors timed.issues :=
    QualitySummary.critical_of_eq_nil_iff
  have hstatus : (compose o r a t readiness).gates.status ≠ .fail ↔
      ∀ g ∈ (compose o r a t readiness).gates.gates, ¬g.blocks = true := by
    rw [ne_eq, compose_gates_status_eq_fail_iff]
    simp
  simp only [← Gate.not_blocks_iff]
  rw [isAcceptable, Bool.and_eq_true, hasCriticalIssues, Bool.not_not, List.isEmpty_iff,
    bne_iff_ne, hcritical, hstatus]
  tauto

end

end QualityReport

namespace QualityAnalyzer

open QualityReport

variable {analyzer next : QualityAnalyzer} {r : Routine} {a : Option Analysis} {t : Option Timing}
  {report : QualityReport}

/-- The count of the analyzer does not show in the report. -/
theorem ofRoutine_of_analyzeRoutine (h : analyzer.analyzeRoutine r a t = .ok (report, next)) :
    ofRoutine analyzer.options r a t = .ok report := by
  obtain ⟨report', hreport', heq⟩ := Checked.bind_eq_ok_iff.1 h
  rw [hreport', (Prod.mk.inj (Except.ok.inj heq)).1]

/-- The analyzer answers when there is a report. -/
theorem exists_answer_iff : (∃ answer, analyzer.analyzeRoutine r a t = .ok answer) ↔
    ∃ report, ofRoutine analyzer.options r a t = .ok report := by
  simp only [analyzeRoutine, Checked.bind_eq_ok_iff]
  exact ⟨fun ⟨_, report, hreport, _⟩ ↦ ⟨report, hreport⟩,
    fun ⟨report, hreport⟩ ↦ ⟨_, report, hreport, rfl⟩⟩

/-- Gates that are not asked for are not there. -/
theorem gates_eq_empty (hgates : analyzer.options.gates = false)
    (h : analyzer.analyzeRoutine r a t = .ok (report, next)) : report.gates = {} := by
  have hreport := ofRoutine_of_analyzeRoutine h
  rcases ofRoutine_cases analyzer.options r a t with ⟨-, found, hfound, hunjudged⟩ |
    ⟨found, rfl, -, -, heq⟩
  · rw [Except.ok.inj (hreport.symm.trans hfound)]
    exact hunjudged.gates_eq
  · obtain ⟨readiness, rfl, -⟩ :=
      (run_settles analyzer.options r found t).holds_of_ok report (heq ▸ hreport)
    show (if analyzer.options.gates then GateInputs.evaluate _ _ else {}) = ({} : GateResults)
    rw [hgates]
    rfl

/-- **A report is acceptable exactly when nothing is wrong**, whatever the options and the results
are: the analysis is there, it and the timing are of the routine, neither has an error, and no
mandatory gate of the report fails. Results that cannot be used leave a report with the score zero,
with something critical and without sections. A report is missing only when results that can be used
have too many places to count for the readiness. -/
theorem analyzeRoutine_isAcceptable_iff (analyzer : QualityAnalyzer) (r : Routine)
    (a : Option Analysis) (t : Option Timing) :
    ((∃ answer, analyzer.analyzeRoutine r a t = .ok answer) ↔ Unusable r a t ∨
      (analyzer.options.readiness = true → ∀ found, a = some found → found.Countable r)) ∧
    ∀ report next, analyzer.analyzeRoutine r a t = .ok (report, next) →
      (report.isAcceptable = true ↔
        (∃ found, a = some found ∧ found.Belongs r t ∧ NoErrors found.issues) ∧
          (∀ timed, t = some timed → NoErrors timed.issues) ∧
            ∀ g ∈ report.gates.gates, g.rule.importance = .mandatory → g.status ≠ .fail) ∧
      (Unusable r a t → report.Unjudged) := by
  rw [exists_answer_iff]
  rcases ofRoutine_cases analyzer.options r a t with ⟨hunusable, found, hfound, hunjudged⟩ |
    ⟨found, rfl, hbelongs, hsound, heq⟩
  · refine ⟨iff_of_true ⟨found, hfound⟩ (.inl hunusable), fun report next h ↦ ?_⟩
    rw [Except.ok.inj ((ofRoutine_of_analyzeRoutine h).symm.trans hfound)]
    refine ⟨iff_of_false hunjudged.not_isAcceptable ?_, fun _ ↦ hunjudged⟩
    rintro ⟨⟨found, rfl, hbelongs, herrors⟩, -⟩
    rcases hunusable found rfl with ⟨i, hi, herror, -⟩ | hother
    · exact herrors i hi herror
    · exact hother hbelongs
  · have husable := not_unusable hbelongs hsound
    have hsettles := run_settles analyzer.options r found t
    refine ⟨?_, fun report next h ↦ ?_⟩
    · rw [heq, hsettles.exists_ok_iff]
      simp [husable]
    · obtain ⟨readiness, rfl, -⟩ := hsettles.holds_of_ok report
        (heq ▸ ofRoutine_of_analyzeRoutine h)
      refine ⟨?_, fun hunusable ↦ absurd hunusable husable⟩
      rw [compose_isAcceptable_iff]
      simp [hbelongs]

/-- Four copies, which could all be places to keep a value in a register. -/
def fourCopies : Routine where
  name := "copies"
  instructions := [⟨0, .copy, [.temp 1, .temp 0], none, none, none⟩,
    ⟨1, .copy, [.temp 2, .temp 1], none, none, none⟩,
    ⟨2, .copy, [.temp 3, .temp 2], none, none, none⟩,
    ⟨3, .copy, [.temp 4, .temp 3], none, none, none⟩, ⟨4, .ret, [.temp 4], none, none, none⟩]

/-- An analysis in which as many variables are live at once as a word can say. -/
def crowded : Analysis :=
  { Analysis.run {} fourCopies with
    dataFlow := { precision := .precise, maxLive := Word.bound 64 - 1 } }

theorem analyzeRoutine_isAcceptable_iff_fourCopies :
    (∃ report next, analyzeRoutine { options := { gates := false } } fourCopies
      (some (.run {} fourCopies)) none = .ok (report, next) ∧ report.isAcceptable = true) ∧
    (∃ report next, analyzeRoutine {} fourCopies none none = .ok (report, next) ∧
      report.Unjudged ∧ ¬report.isAcceptable = true) ∧
    ∀ answer, analyzeRoutine {} fourCopies (some crowded) none ≠ .ok answer := by
  refine ⟨?_, ?_, fun answer hanswer ↦ ?_⟩
  · obtain ⟨hsome, hiff⟩ := analyzeRoutine_isAcceptable_iff { options := { gates := false } }
      fourCopies (some (.run {} fourCopies)) none
    have hcountable : (Analysis.run {} fourCopies).Countable fourCopies := fun category ↦ by
      cases category <;> decide +kernel
    obtain ⟨⟨report, next⟩, hreport⟩ := hsome.2 <| .inr fun _ found hfound ↦ by
      rwa [← Option.some.inj hfound]
    refine ⟨report, next, hreport, (hiff report next hreport).1.2 ⟨⟨_, rfl, ?_, ?_⟩, ?_, ?_⟩⟩
    · exact ⟨rfl, by decide +kernel, by simp⟩
    · decide +kernel
    · simp
    · simp [gates_eq_empty rfl hreport]
  · obtain ⟨hsome, hiff⟩ := analyzeRoutine_isAcceptable_iff {} fourCopies none none
    have hunusable : Unusable fourCopies none none := nofun
    obtain ⟨⟨report, next⟩, hreport⟩ := hsome.2 (.inl hunusable)
    have hunjudged := (hiff report next hreport).2 hunusable
    exact ⟨report, next, hreport, hunjudged, hunjudged.not_isAcceptable⟩
  · have hbelongs : crowded.Belongs fourCopies none := ⟨rfl, by decide +kernel, by simp⟩
    have hsound : crowded.hasStructuralErrors = false := by decide +kernel
    have hcrowded : ¬OptimizationCategory.register.places fourCopies crowded < Word.bound 64 := by
      decide +kernel
    obtain ⟨hsome, -⟩ := analyzeRoutine_isAcceptable_iff {} fourCopies (some crowded) none
    rcases hsome.1 ⟨answer, hanswer⟩ with hunusable | hcountable
    · exact not_unusable hbelongs hsound hunusable
    · exact hcrowded (hcountable rfl crowded rfl .register)

end QualityAnalyzer

end FlowGauge
