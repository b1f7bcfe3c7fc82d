import FlowGauge.Analysis
import Mathlib.Logic.Relation
import Mathlib.Tactic.Common

/-!
# Analysing a batch is analysing one by one

The routines of a program may be analysed side by side, with one count for all of them. A `Batch` is
such a run between two steps: how far every routine has come, the count, and a refusal if there was
one. `Batch.Step` lets any routine go on that can, so that a run of steps is any order in which the
analyses begin, are counted, hand over their results and stop after a refusal.

Whatever the order, the answer and the count at the end are those of `Analyzer.analyzeAll`
(`Batch.over_eq_analyzeAll`). That rests on one fact about the analysis itself: whether a routine is
refused is decided by the options alone (`Analysis.ofRoutine_eq`), so that a batch is refused as a
whole or not at all. The count of an analyzer is then a sum over the history of its calls.

## Steps

What a routine may do next is one relation (`Progress.Advances`). A routine begins, is counted,
hands over its result, or is refused; after a refusal elsewhere it need not begin. Where there are
two refusals either may be kept. This is as much freedom as workers have that share a count and a
place for a refusal, and no more is assumed of them: neither how many there are nor which routine
they take.

`Batch.Sound` holds at the start and is kept by every step, so by every run. With every step a
routine comes nearer to its end, and as long as one is not over there is a step; a run can therefore
be completed from wherever it stands, and no run is infinite.

## Histories

An analyzer goes through a sequence of calls with one count (`Served`). A call on a batch is
answered by any of the runs above, so a history leaves the order open at each of its calls, and
still there is only one possible answer.
-/

namespace FlowGauge

namespace Analysis

/-- A routine is refused exactly when the options are. -/
theorem ofRoutine_eq (o : AnalysisOptions) (r : Routine) :
    ofRoutine o r = o.check.map fun _ ↦ run o r := by
  rw [ofRoutine]
  cases o.check <;> rfl

/-- A refusal comes from the options. -/
theorem check_eq_error_of_ofRoutine {o : AnalysisOptions} {r : Routine} {e : Refusal}
    (h : ofRoutine o r = .error e) : o.check = .error e := by
  rw [ofRoutine_eq] at h
  cases hcheck : o.check with
  | error e' => simpa [hcheck, Except.map] using h
  | ok => simp [hcheck, Except.map] at h

/-- Options that are refused are refused for every routine. -/
theorem ofRoutine_of_check_error {o : AnalysisOptions} {e : Refusal} (h : o.check = .error e)
    (r : Routine) : ofRoutine o r = .error e := by
  rw [ofRoutine_eq, h]
  rfl

/-- Options that are accepted are accepted for every routine. -/
theorem ofRoutine_of_check_ok {o : AnalysisOptions} (h : o.check = .ok ()) (r : Routine) :
    ofRoutine o r = .ok (run o r) := by
  rw [ofRoutine_eq, h]
  rfl

end Analysis

namespace Analyzer

variable {a : Analyzer} {p : Program}

/-- An accepted batch is analysed as a whole and counted as a whole. -/
theorem analyzeAll_of_check_ok (h : a.options.check = .ok ()) (hne : p.routines ≠ []) :
    a.analyzeAll p = (.ok (p.routines.map (Analysis.run a.options)),
      { a with analyzed := a.analyzed + p.routines.length }) := by
  have hresults : p.routines.mapM (Analysis.ofRoutine a.options) =
      .ok (p.routines.map (Analysis.run a.options)) := by
    rw [funext (Analysis.ofRoutine_of_check_ok h)]
    exact List.mapM_pure
  obtain ⟨r, rest, hroutines⟩ := List.exists_cons_of_ne_nil hne
  rw [hroutines] at hresults
  simp only [analyzeAll, hroutines, hresults, List.length_map]

/-- A refused batch leaves the count as it is. -/
theorem analyzeAll_of_check_error {e : Refusal} (h : a.options.check = .error e)
    (hne : p.routines ≠ []) : a.analyzeAll p = (.error e, a) := by
  obtain ⟨r, rest, hroutines⟩ := List.exists_cons_of_ne_nil hne
  have hrefused : (r :: rest).mapM (Analysis.ofRoutine a.options) = .error e := by
    rw [List.mapM_cons, Analysis.ofRoutine_of_check_error h]
    rfl
  simp only [analyzeAll, hroutines, hrefused]

end Analyzer

/-! ### Runs of a batch -/

/-- How far the analysis of one routine has come. -/
inductive Progress where
  /-- It has not begun. -/
  | waiting
  /-- It has begun. -/
  | running
  /-- It is done and counted, and the result is not yet handed over. -/
  | counted (result : Analysis)
  /-- The result is handed over. -/
  | delivered (result : Analysis)
  /-- There is no result: it was refused, or did not begin after a refusal elsewhere. -/
  | dropped

namespace Progress

/-- The result, once it is counted. -/
def result? : Progress → Option Analysis
  | counted x | delivered x => some x
  | _ => none

/-- Nothing is left to do. -/
def IsOver : Progress → Prop
  | delivered _ | dropped => True
  | _ => False

/-- A bound on the steps that are left. -/
def remaining : Progress → Nat
  | waiting => 3
  | running => 2
  | counted _ => 1
  | delivered _ | dropped => 0

/-- What a routine of a batch may do next, given the refusal that is kept so far: its progress and
the kept refusal afterwards, and by how much the count goes up. Of two refusals either may be
kept. -/
inductive Advances (o : AnalysisOptions) (r : Routine) :
    Option Refusal → Progress → Option Refusal → Progress → Nat → Prop where
  /-- The analysis begins. -/
  | begin {e} : Advances o r e .waiting e .running 0
  /-- The analysis succeeds and is counted. -/
  | count {e x} (h : Analysis.ofRoutine o r = .ok x) : Advances o r e .running e (.counted x) 1
  /-- The result is handed over. -/
  | deliver {e x} : Advances o r e (.counted x) e (.delivered x) 0
  /-- The analysis is refused, and its refusal is kept. -/
  | refuse {e e'} (h : Analysis.ofRoutine o r = .error e') :
    Advances o r e .running (some e') .dropped 0
  /-- The analysis is refused after another one, whose refusal is kept. -/
  | refuseAgain {e e'} (h : Analysis.ofRoutine o r = .error e') :
    Advances o r (some e) .running (some e) .dropped 0
  /-- After a refusal the analysis need not begin. -/
  | skip {e} : Advances o r (some e) .waiting (some e) .dropped 0

section Advances

variable {o : AnalysisOptions} {r : Routine} {e e' : Option Refusal} {p p' : Progress} {k : Nat}

/-- A result is made by the analysis, once, and then kept. -/
theorem Advances.result_eq (h : Advances o r e p e' p' k) {x : Analysis}
    (hx : p'.result? = some x) : p.result? = some x ∨ Analysis.ofRoutine o r = .ok x := by
  cases h <;> simp_all [result?]

/-- A refusal is the one that the options give. -/
theorem Advances.refusal_cases (h : Advances o r e p e' p' k) :
    e' = e ∨ ∃ refusal, e' = some refusal ∧ o.check = .error refusal := by
  cases h with
  | refuse he => exact Or.inr ⟨_, rfl, Analysis.check_eq_error_of_ofRoutine he⟩
  | _ => exact Or.inl rfl

theorem Advances.refusal_isSome (h : Advances o r e p e' p' k)
    (he : p' = .dropped ∨ e.isSome = true) : e'.isSome = true := by
  cases h <;> simp_all

/-- The count goes up exactly when there is a new result. -/
theorem Advances.count_eq (h : Advances o r e p e' p' k) :
    p'.result?.isSome.toNat = p.result?.isSome.toNat + k := by
  cases h <;> rfl

/-- Every step brings a routine nearer to its end. -/
theorem Advances.remaining_lt (h : Advances o r e p e' p' k) : p'.remaining < p.remaining := by
  cases h <;> simp [remaining]

/-- **A routine that is not over can go on**, whatever the others do. -/
theorem exists_advances (h : ¬p.IsOver) : ∃ e' p' k, Advances o r e p e' p' k := by
  cases p with
  | waiting => exact ⟨_, _, _, .begin⟩
  | running =>
    cases hr : Analysis.ofRoutine o r with
    | ok x => exact ⟨_, _, _, .count hr⟩
    | error refusal => exact ⟨_, _, _, .refuse hr⟩
  | counted x => exact ⟨_, _, _, .deliver⟩
  | delivered x => exact absurd trivial h
  | dropped => exact absurd trivial h

end Advances

end Progress

/-- A batch between two steps. -/
structure Batch where
  /-- The routines in the order of the program, each with its progress. -/
  tasks : List (Routine × Progress)
  /-- The count that all of them share. -/
  analyzed : Nat
  /-- A refusal, if some routine was refused. -/
  refusal : Option Refusal

namespace Batch

/-- Nothing has begun. -/
def start (analyzed : Nat) (routines : List Routine) : Batch :=
  ⟨routines.map fun r ↦ (r, .waiting), analyzed, none⟩

/-- Any one routine advances, and the others stay where they are. -/
inductive Step (o : AnalysisOptions) : Batch → Batch → Prop where
  | advance {before after r n e e' p p' k} (h : Progress.Advances o r e p e' p' k) :
    Step o ⟨before ++ (r, p) :: after, n, e⟩ ⟨before ++ (r, p') :: after, n + k, e'⟩

/-- Any number of steps. -/
def Steps (o : AnalysisOptions) : Batch → Batch → Prop :=
  Relation.ReflTransGen (Step o)

/-- Nothing is left to do. -/
def Over (s : Batch) : Prop :=
  ∀ task ∈ s.tasks, task.2.IsOver

/-- The results in the order of the program, or the refusal. -/
def answer (s : Batch) : Except Refusal (List Analysis) :=
  match s.refusal with
  | some e => .error e
  | none => .ok (s.tasks.filterMap (·.2.result?))

/-- A bound on the steps that are left. -/
def remaining (s : Batch) : Nat :=
  total (s.tasks.map (·.2.remaining))

/-! ### What every order keeps -/

/-- What holds between any two steps of a batch. -/
structure Sound (o : AnalysisOptions) (routines : List Routine) (n : Nat) (s : Batch) : Prop where
  /-- The routines keep their places. -/
  routines_eq : s.tasks.map Prod.fst = routines
  /-- A result is that of its routine. -/
  result_eq : ∀ task ∈ s.tasks, ∀ x, task.2.result? = some x →
    Analysis.ofRoutine o task.1 = .ok x
  /-- A refusal is that of the options. -/
  refusal_eq : ∀ e, s.refusal = some e → o.check = .error e
  /-- Nothing is dropped without a refusal. -/
  dropped_refused : ∀ task ∈ s.tasks, task.2 = .dropped → s.refusal.isSome = true
  /-- Every result is counted once. -/
  analyzed_eq : s.analyzed = n + total (s.tasks.map (·.2.result?.isSome.toNat))

section

variable {o : AnalysisOptions} {routines : List Routine} {n : Nat} {s s' : Batch}

theorem start_sound : (start n routines).Sound o routines n where
  routines_eq := by simp [start, Function.comp_def]
  result_eq task htask x hx := by
    obtain ⟨r, -, rfl⟩ := List.mem_map.1 htask
    exact absurd hx (by simp [Progress.result?])
  refusal_eq e he := absurd he (by simp [start])
  dropped_refused task htask hdropped := by
    obtain ⟨r, -, rfl⟩ := List.mem_map.1 htask
    exact absurd hdropped (by simp)
  analyzed_eq := by
    have hnone : total ((start n routines).tasks.map (·.2.result?.isSome.toNat)) = 0 := by
      refine total_eq_zero fun k hk ↦ ?_
      obtain ⟨task, htask, rfl⟩ := List.mem_map.1 hk
      obtain ⟨r, -, rfl⟩ := List.mem_map.1 htask
      rfl
    rw [hnone]
    rfl

/-- **One step of any routine keeps the invariant.** -/
theorem Sound.step (h : s.Sound o routines n) (hstep : Step o s s') : s'.Sound o routines n := by
  obtain ⟨hgo⟩ := hstep
  -- Only one task moves; what the invariant says of the others carries over as it is, but for the
  -- refusal, which is never taken back.
  have hothers := h.result_eq
  have hdropped := h.dropped_refused
  simp only [List.mem_append, List.mem_cons, or_imp, forall_and, forall_eq] at hothers hdropped
  constructor
  · simpa using h.routines_eq
  · simp only [List.mem_append, List.mem_cons, or_imp, forall_and, forall_eq]
    exact ⟨hothers.1, fun x hx ↦ (hgo.result_eq hx).elim (hothers.2.1 x) id, hothers.2.2⟩
  · intro e he
    rcases hgo.refusal_cases with hsame | ⟨refusal, hnew, hcheck⟩
    · exact h.refusal_eq e (hsame ▸ he)
    · exact Option.some.inj (he.symm.trans hnew) ▸ hcheck
  · simp only [List.mem_append, List.mem_cons, or_imp, forall_and, forall_eq]
    exact ⟨fun task ht hd ↦ hgo.refusal_isSome (Or.inr (hdropped.1 task ht hd)),
      fun hd ↦ hgo.refusal_isSome (Or.inl hd),
      fun task ht hd ↦ hgo.refusal_isSome (Or.inr (hdropped.2.2 task ht hd))⟩
  · have hanalyzed := h.analyzed_eq
    have hcount := hgo.count_eq
    simp only [List.map_append, List.map_cons, total_append, total_cons] at hanalyzed ⊢
    omega

/-- **So does a run of steps, in any order.** -/
theorem Sound.steps (h : s.Sound o routines n) (hsteps : Steps o s s') :
    s'.Sound o routines n := by
  induction hsteps with
  | refl => exact h
  | tail _ hstep ih => exact ih.step hstep

/-! ### Every order comes to an end -/

/-- Every step brings the batch nearer to its end, so a run cannot go on for ever. -/
theorem Step.remaining_lt (h : Step o s s') : s'.remaining < s.remaining := by
  obtain ⟨hgo⟩ := h
  have hlt := hgo.remaining_lt
  simp only [remaining, List.map_append, List.map_cons, total_append, total_cons]
  omega

/-- A batch that is not over can go on. There is no deadlock. -/
theorem exists_step (h : ¬s.Over) : ∃ s', Step o s s' := by
  obtain ⟨tasks, n, e⟩ := s
  obtain ⟨⟨r, p⟩, htask, hp⟩ : ∃ task ∈ tasks, ¬task.2.IsOver := by simpa [Over] using h
  obtain ⟨before, after, rfl⟩ := List.append_of_mem htask
  obtain ⟨e', p', k, hgo⟩ := Progress.exists_advances (o := o) (r := r) (e := e) hp
  exact ⟨_, .advance hgo⟩

/-- **No order gets stuck, and none goes on for ever.** -/
theorem exists_over (o : AnalysisOptions) (s : Batch) : ∃ s', Steps o s s' ∧ s'.Over := by
  by_cases hover : s.Over
  · exact ⟨s, .refl, hover⟩
  · obtain ⟨s₁, hstep⟩ := exists_step (o := o) hover
    have hlt := hstep.remaining_lt
    obtain ⟨s₂, hsteps, hover₂⟩ := exists_over o s₁
    exact ⟨s₂, .head hstep hsteps, hover₂⟩
termination_by s.remaining

/-! ### The end of a batch -/

/-- After a refusal there is no result, and the count is what it was. -/
theorem Sound.analyzed_eq_of_refusal (h : s.Sound o routines n) {e : Refusal}
    (he : s.refusal = some e) : s.analyzed = n := by
  have hnone : total (s.tasks.map (·.2.result?.isSome.toNat)) = 0 := by
    refine total_eq_zero fun k hk ↦ ?_
    obtain ⟨task, htask, rfl⟩ := List.mem_map.1 hk
    cases hx : task.2.result? with
    | none => rfl
    | some x =>
      have hrefused := Analysis.ofRoutine_of_check_error (h.refusal_eq e he) task.1
      exact absurd (hrefused.symm.trans (h.result_eq task htask x hx)) (by simp)
  rw [h.analyzed_eq, hnone, Nat.add_zero]

/-- A result is counted only when the options are accepted. -/
theorem Sound.result_spec (h : s.Sound o routines n) {task : Routine × Progress}
    (htask : task ∈ s.tasks) {x : Analysis} (hx : task.2.result? = some x) :
    o.check = .ok () ∧ x = Analysis.run o task.1 := by
  have hr := h.result_eq task htask x hx
  rw [Analysis.ofRoutine_eq] at hr
  cases hcheck : o.check with
  | error e => simp [hcheck, Except.map] at hr
  | ok =>
    rw [hcheck] at hr
    exact ⟨rfl, (Except.ok.inj hr).symm⟩

/-- Without a refusal every routine has its result at the end. -/
theorem Sound.exists_result_of_over (h : s.Sound o routines n) (hover : s.Over)
    (hnone : s.refusal = none) {task : Routine × Progress} (htask : task ∈ s.tasks) :
    ∃ x, task.2.result? = some x := by
  have hkept : task.2 ≠ .dropped := fun hdropped ↦ by
    simpa [hnone] using h.dropped_refused task htask hdropped
  have hend := hover task htask
  cases hp : task.2 with
  | delivered x => exact ⟨x, rfl⟩
  | dropped => exact absurd hp hkept
  | _ => exact absurd hend (by simp [hp, Progress.IsOver])

/-- The results of tasks that all have one, and how many are counted. -/
theorem results_of_forall {tasks : List (Routine × Progress)} {f : Routine → Analysis}
    (h : ∀ task ∈ tasks, task.2.result? = some (f task.1)) :
    tasks.filterMap (·.2.result?) = tasks.map (f ·.1) ∧
      total (tasks.map (·.2.result?.isSome.toNat)) = tasks.length := by
  induction tasks with
  | nil => exact ⟨rfl, rfl⟩
  | cons task rest ih =>
    obtain ⟨hresults, hcount⟩ := ih fun t ht ↦ h t (.tail task ht)
    have htask := h task List.mem_cons_self
    simp only [List.filterMap_cons, List.map_cons, total_cons, htask, hresults, hcount]
    exact ⟨trivial, Nat.add_comm 1 rest.length⟩

/-- All results are there and counted at the end, unless there is a refusal. -/
theorem Sound.results_of_over (h : s.Sound o routines n) (hover : s.Over)
    (hnone : s.refusal = none) :
    s.tasks.filterMap (·.2.result?) = routines.map (Analysis.run o) ∧
      s.analyzed = n + routines.length := by
  have hresult : ∀ task ∈ s.tasks, task.2.result? = some (Analysis.run o task.1) := by
    intro task htask
    obtain ⟨x, hx⟩ := h.exists_result_of_over hover hnone htask
    rw [hx, (h.result_spec htask hx).2]
  obtain ⟨hresults, hcount⟩ := results_of_forall hresult
  rw [hresults, h.analyzed_eq, hcount, ← h.routines_eq, List.map_map, List.length_map]
  exact ⟨rfl, rfl⟩

/-- **At the end of a batch, its answer and its count are those of analysing one by one**, whatever
the order was. -/
theorem over_eq_analyzeAll {a : Analyzer} {p : Program} (hne : p.routines ≠ [])
    (hsteps : Steps a.options (start a.analyzed p.routines) s) (hover : s.Over) :
    (s.answer, { a with analyzed := s.analyzed }) = a.analyzeAll p := by
  have hsound : s.Sound a.options p.routines a.analyzed := start_sound.steps hsteps
  rw [answer]
  cases hrefusal : s.refusal with
  | some e =>
    rw [Analyzer.analyzeAll_of_check_error (hsound.refusal_eq e hrefusal) hne,
      hsound.analyzed_eq_of_refusal hrefusal]
  | none =>
    obtain ⟨hresults, hcount⟩ := hsound.results_of_over hover hrefusal
    -- There is a routine, and its result shows that the options were accepted.
    have hcheck : a.options.check = .ok () := by
      obtain ⟨task, htask⟩ : ∃ task, task ∈ s.tasks := by
        refine List.exists_mem_of_ne_nil _ fun hnil ↦ hne ?_
        rw [← hsound.routines_eq, hnil, List.map_nil]
      obtain ⟨x, hx⟩ := hsound.exists_result_of_over hover hrefusal htask
      exact (hsound.result_spec htask hx).1
    rw [Analyzer.analyzeAll_of_check_ok hcheck hne, hresults, hcount]

end

end Batch

/-! ### Histories of calls -/

/-- A call on an analyzer. -/
inductive Call where
  /-- Analyse a routine. -/
  | routine (r : Routine)
  /-- Analyse the first routine of a program. -/
  | first (p : Program)
  /-- Analyse all routines of a program. -/
  | all (p : Program)

/-- What a call returns. -/
inductive Answer where
  | one (result : Except Refusal Analysis)
  | many (results : Except Refusal (List Analysis))

namespace Answer

/-- The number of results that are returned. -/
def returned : Answer → Nat
  | one (.ok _) => 1
  | many (.ok results) => results.length
  | _ => 0

end Answer

/-- What a call ought to return under some options. -/
def Call.Expects (o : AnalysisOptions) : Call → Answer → Prop
  | routine r, .one x => x = Analysis.ofRoutine o r
  | first p, .one x =>
    match p.routines with
    | [] => x = .error (.missingInput p.name)
    | r :: _ => x = Analysis.ofRoutine o r
  | all p, .many x =>
    match p.routines with
    | [] => x = .error (.missingInput p.name)
    | r :: rest =>
      (∃ results, x = .ok results ∧
        results.map Except.ok = (r :: rest).map (Analysis.ofRoutine o)) ∨
      ∃ e, o.check = .error e ∧ x = .error e
  | _, _ => False

namespace Analyzer

/-- A call that is answered one routine after the other. -/
def serve (a : Analyzer) : Call → Answer × Analyzer
  | .routine r => (.one (a.analyzeRoutine r).1, (a.analyzeRoutine r).2)
  | .first p => (.one (a.analyzeFirst p).1, (a.analyzeFirst p).2)
  | .all p => (.many (a.analyzeAll p).1, (a.analyzeAll p).2)

/-- A call that is answered, the routines of a program in any order. -/
inductive Serves (a : Analyzer) : Call → Answer → Analyzer → Prop where
  | routine (r) : Serves a (.routine r) (.one (a.analyzeRoutine r).1) (a.analyzeRoutine r).2
  | first (p) : Serves a (.first p) (.one (a.analyzeFirst p).1) (a.analyzeFirst p).2
  | none {p} (h : p.routines = []) : Serves a (.all p) (.many (.error (.missingInput p.name))) a
  | batch {p s} (h : p.routines ≠ [])
    (hsteps : Batch.Steps a.options (.start a.analyzed p.routines) s) (hover : s.Over) :
    Serves a (.all p) (.many s.answer) { a with analyzed := s.analyzed }

/-- A sequence of calls with their answers, one after the other. -/
inductive Served : Analyzer → List (Call × Answer) → Analyzer → Prop where
  | nil {a} : Served a [] a
  | cons {a b c call answer history} (h : a.Serves call answer b) (hrest : Served b history c) :
    Served a ((call, answer) :: history) c

variable {a b : Analyzer} {call : Call} {answer : Answer}

/-- An analyzer serves its calls. -/
theorem serves_serve (a : Analyzer) (call : Call) :
    a.Serves call (a.serve call).1 (a.serve call).2 := by
  cases call with
  | routine r => exact .routine r
  | first p => exact .first p
  | all p =>
    by_cases hnil : p.routines = []
    · have hall : a.analyzeAll p = (.error (.missingInput p.name), a) := by
        rw [analyzeAll, hnil]
      rw [serve, hall]
      exact .none hnil
    · obtain ⟨s, hsteps, hover⟩ :=
        Batch.exists_over a.options (.start a.analyzed p.routines)
      rw [serve, ← Batch.over_eq_analyzeAll hnil hsteps hover]
      exact .batch hnil hsteps hover

/-- **The order of a batch does not show**: a call is answered as one routine after the other. -/
theorem serves_iff : a.Serves call answer b ↔ a.serve call = (answer, b) := by
  constructor
  · intro h
    cases h with
    | routine r => rfl
    | first p => rfl
    | none hnil => simp [serve, analyzeAll, hnil]
    | batch hne hsteps hover => rw [serve, ← Batch.over_eq_analyzeAll hne hsteps hover]
  · intro h
    have hserves := a.serves_serve call
    rwa [h] at hserves

theorem analyzeRoutine_eq (a : Analyzer) (r : Routine) : a.analyzeRoutine r =
    (Analysis.ofRoutine a.options r, { a with
      analyzed := a.analyzed + (Answer.one (Analysis.ofRoutine a.options r)).returned }) := by
  rw [analyzeRoutine]
  cases Analysis.ofRoutine a.options r <;> rfl

/-- **A call returns what it ought to, and the count goes up by the results returned.** -/
theorem serve_spec (a : Analyzer) (call : Call) : call.Expects a.options (a.serve call).1 ∧
    (a.serve call).2 = { a with analyzed := a.analyzed + (a.serve call).1.returned } := by
  cases call with
  | routine r =>
    rw [serve, analyzeRoutine_eq]
    exact ⟨rfl, rfl⟩
  | first p =>
    rw [serve, analyzeFirst, Program.firstRoutine?]
    cases hroutines : p.routines with
    | nil => simp [Call.Expects, hroutines, Answer.returned]
    | cons r rest => simp [Call.Expects, hroutines, analyzeRoutine_eq]
  | all p =>
    by_cases hnil : p.routines = []
    · simp [serve, analyzeAll, Call.Expects, hnil, Answer.returned]
    obtain ⟨r, rest, hroutines⟩ := List.exists_cons_of_ne_nil hnil
    cases hcheck : a.options.check with
    | error e =>
      simp [serve, analyzeAll_of_check_error hcheck hnil, Call.Expects, hroutines, hcheck,
        Answer.returned]
    | ok =>
      simp [serve, analyzeAll_of_check_ok hcheck hnil, Call.Expects, hroutines, hcheck,
        Answer.returned, Analysis.ofRoutine_of_check_ok hcheck]

/-- **Analysing a batch is analysing one by one, and the count is exact.** From any state of an
analyzer, a call is answered in exactly one way, in whatever order the routines of a program are
analysed. Along any sequence of calls every answer is as it ought to be, and the count goes up by
the number of results that are returned; a call that is refused leaves it as it was. -/
theorem served_exact (a : Analyzer) :
    (∀ call answer b, a.Serves call answer b ↔ a.serve call = (answer, b)) ∧
    ∀ history b, a.Served history b →
      (∀ entry ∈ history, entry.1.Expects a.options entry.2) ∧
        b = { a with analyzed := a.analyzed + total (history.map (·.2.returned)) } := by
  refine ⟨fun _ _ _ ↦ serves_iff, fun history b h ↦ ?_⟩
  induction h with
  | nil => exact ⟨by simp, rfl⟩
  | @cons a b c call answer history hserves _ ih =>
    obtain ⟨hexpects, hcount⟩ := a.serve_spec call
    rw [serves_iff.1 hserves] at hexpects hcount
    have hcount : b = { a with analyzed := a.analyzed + answer.returned } := hcount
    subst hcount
    refine ⟨List.forall_mem_cons.2 ⟨hexpects, ih.1⟩, ?_⟩
    rw [ih.2, List.map_cons, total_cons, Nat.add_assoc]

/-- A routine that only returns. -/
def trivialRoutine (name : String) : Routine where
  name := name
  instructions := [⟨0, .ret, [], none, none, none⟩]

/-- A program of two units with three routines. -/
def threeRoutines : Program where
  name := "three"
  units := [{ name := "a", routines := [trivialRoutine "x", trivialRoutine "y"] },
    { name := "b", routines := [trivialRoutine "z"] }]

theorem served_exact_threeRoutines : ∃ history b, Served { options := {} } history b ∧
    history.map Prod.fst = [.all threeRoutines, .first { name := "none" },
      .routine (trivialRoutine "x")] ∧
    (∀ entry ∈ history, entry.1.Expects {} entry.2) ∧ b.analyzed = 4 := by
  have hserved := Served.cons (serves_serve { options := {} } (.all threeRoutines))
    (.cons (serves_serve _ (.first { name := "none" }))
      (.cons (serves_serve _ (.routine (trivialRoutine "x"))) .nil))
  obtain ⟨hexpects, hcount⟩ := (served_exact { options := {} }).2 _ _ hserved
  exact ⟨_, _, hserved, rfl, hexpects,
    (congrArg Analyzer.analyzed hcount).trans (by decide +kernel)⟩

end Analyzer

end FlowGauge
