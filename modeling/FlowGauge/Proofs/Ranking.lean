import FlowGauge.Proofs.Sorting
import FlowGauge.Ranking

/-!
# Rankings do not depend on the catalogue's order

The candidates of a catalogue are those of the patterns that apply, each computed from its pattern
and from results that are the same for all. So the order of the catalogue can only show where two
candidates tie. They cannot tie when the names of the patterns differ, because the name is compared
last (`Candidate.id_eq_of_order_eq_eq`).

## What is asked of the order of scores

Which order of doubles the scores are compared with does not matter, as long as it is total and
transitive: where it puts the values that are not numbers, whether it tells the two zeros apart, and
whether it tells apart all doubles or lets some of them tie. Negative benefits and scores out of
range are covered, too. The comparison of machine doubles by sign, exponent and fraction is such an
order, and so is `Score.totalOrder`, with which the rankings of an example can be computed.

Transitivity is needed for the sort to mean anything. That equal scores are the same double is not
needed: where it fails, the name decides.

## What a ranking fixes

`Candidate.Ranks` says of a list that it holds one candidate for every applicable pattern and none
for the others, and that earlier entries precede later ones. It does not mention the order of the
catalogue. Two sorted lists of the same candidates without ties are the same list, and this is why a
permuted catalogue gives the same ranking and another pattern leaves the order of the others alone.
-/

namespace FlowGauge

open scoped List

namespace Pattern

/-- The readiness that a report gives for the category of the pattern, zero when it gives none. -/
def readinessIn (p : Pattern) (report : QualityReport) : Float :=
  match report.readiness.category? p.category with
  | some category => category.score
  | none => 0.0

/-- The variant has every feature the pattern requires, and the readiness for its category is not
below its minimum. -/
def Applies (p : Pattern) (report : QualityReport) (t : Timing) : Prop :=
  (∀ f ∈ p.required, f ∈ t.variant.features) ∧ ¬p.readinessIn report < p.minReadiness

end Pattern

namespace Candidate

variable {report : QualityReport} {a : Analysis} {t : Timing} {p : Pattern}
  {catalogue : List Pattern}

/-! ### Candidates -/

/-- The test of a pattern, spelled out: it reads the pattern, the report and the timing, never the
other patterns. -/
theorem admits_iff : (RankingContext.of report a t).admits p = true ↔ p.Applies report t := by
  have hreadiness : (RankingContext.of report a t).readinessFor p = p.readinessIn report := by
    show (report.readiness.category? p.category).elim 0.0 CategoryReadiness.score = _
    rw [Pattern.readinessIn]
    cases report.readiness.category? p.category <;> rfl
  rw [RankingContext.admits, hreadiness, Pattern.Applies]
  simp [RankingContext.of]

/-- The candidates of a catalogue, in the order of their patterns. -/
def unranked (report : QualityReport) (a : Analysis) (t : Timing) (catalogue : List Pattern) :
    List Candidate :=
  (catalogue.filter (RankingContext.of report a t).admits).map
    (RankingContext.of report a t).candidate

/-- A candidate before the sort is what one applicable pattern of the catalogue gives. -/
theorem mem_unranked_iff {x : Candidate} : x ∈ unranked report a t catalogue ↔
    ∃ p ∈ catalogue, p.Applies report t ∧ x = (RankingContext.of report a t).candidate p := by
  simp only [unranked, List.mem_map, List.mem_filter, admits_iff, and_assoc, eq_comm (b := x)]

/-- A catalogue may be cut anywhere: what its parts give is put together. -/
theorem unranked_append (front back : List Pattern) : unranked report a t (front ++ back) =
    unranked report a t front ++ unranked report a t back := by
  rw [unranked, List.filter_append, List.map_append]
  rfl

/-- An applicable pattern in front adds its candidate in front. -/
theorem unranked_cons_of_applies (h : p.Applies report t) : unranked report a t (p :: catalogue) =
    (RankingContext.of report a t).candidate p :: unranked report a t catalogue := by
  rw [unranked, List.filter_cons_of_pos (admits_iff.2 h), List.map_cons]
  rfl

/-- A pattern that does not apply adds nothing. -/
theorem unranked_cons_of_not_applies (h : ¬p.Applies report t) :
    unranked report a t (p :: catalogue) = unranked report a t catalogue := by
  rw [unranked, List.filter_cons_of_neg (mt admits_iff.1 h)]
  rfl

/-- Candidates are named after their patterns. -/
theorem nodup_ids_unranked (hids : (catalogue.map Pattern.id).Nodup) :
    ((unranked report a t catalogue).map Candidate.id).Nodup := by
  rw [unranked, List.map_map]
  exact hids.sublist (List.filter_sublist.map _)

/-! ### Their order -/

/-- A comparison that is read from behind, of what is looked up, is one still. -/
theorem transCmp_descending (scores : Float → Float → Ordering) [Std.TransCmp scores]
    (f : Candidate → Float) : Std.TransCmp fun x y ↦ scores (f y) (f x) where
  eq_swap := Std.OrientedCmp.eq_swap
  isLE_trans hxy hyz := Std.TransCmp.isLE_trans hyz hxy

instance (scores : Float → Float → Ordering) [Std.TransCmp scores] : Std.TransCmp (order scores) :=
  have := transCmp_descending scores applicability
  have := transCmp_descending scores benefit
  inferInstanceAs (Std.TransCmp (compareLex (compareLex
    (fun x y ↦ scores y.applicability x.applicability) fun x y ↦ scores y.benefit x.benefit)
      (compareOn id)))

/-- One candidate stands before another: it has the greater applicability; or the same, and the
greater benefit; or the same in both, and its name comes first. -/
def Precedes (scores : Float → Float → Ordering) (x y : Candidate) : Prop :=
  scores y.applicability x.applicability = .lt ∨
    scores y.applicability x.applicability = .eq ∧
      (scores y.benefit x.benefit = .lt ∨ scores y.benefit x.benefit = .eq ∧ x.id < y.id)

/-- Strictly smaller in the order means preceding in one of the three ways: by applicability, by
benefit, or by name. -/
theorem precedes_of_order_eq_lt {scores : Float → Float → Ordering} {x y : Candidate}
    (h : order scores x y = .lt) : Precedes scores x y := by
  rw [order, Ordering.then_assoc, Ordering.then_eq_lt, Ordering.then_eq_lt,
    compare_lt_iff_lt] at h
  exact h

/-- Candidates that tie have one name. -/
theorem id_eq_of_order_eq_eq {scores : Float → Float → Ordering} {x y : Candidate}
    (h : order scores x y = .eq) : x.id = y.id := by
  rw [order, Ordering.then_eq_eq] at h
  exact compare_eq_iff_eq.1 h.2

variable {scores : Float → Float → Ordering}

/-- Patterns with different names give candidates that do not tie. -/
theorem untied_unranked (hids : (catalogue.map Pattern.id).Nodup) :
    Sorting.Untied (order scores) (unranked report a t catalogue) :=
  (List.pairwise_map.1 (nodup_ids_unranked hids)).imp fun hne heq ↦ hne (id_eq_of_order_eq_eq heq)

theorem rank_eq : rank scores report a t catalogue =
    (unranked report a t catalogue).mergeSort fun x y ↦ (order scores x y).isLE :=
  rfl

/-- A ranking holds the unranked candidates and no others, each as often as before. -/
theorem rank_perm :
    (rank scores report a t catalogue).Perm (unranked report a t catalogue) :=
  List.mergeSort_perm ..

/-- The list holds one candidate for each pattern of the catalogue that applies and none for the
others, by descending applicability, then by descending benefit, then by name. -/
structure Ranks (scores : Float → Float → Ordering) (report : QualityReport) (a : Analysis)
    (t : Timing) (catalogue : List Pattern) (ranked : List Candidate) : Prop where
  sound : ∀ x ∈ ranked, ∃ p ∈ catalogue, p.Applies report t ∧
    x = (RankingContext.of report a t).candidate p
  count_eq_one : ∀ p ∈ catalogue, p.Applies report t → (ranked.map Candidate.id).count p.id = 1
  count_eq_zero : ∀ p ∈ catalogue, ¬p.Applies report t → (ranked.map Candidate.id).count p.id = 0
  sorted : ranked.Pairwise (Precedes scores)

/-- **A ranking holds what applies, in order**, when the names in the catalogue differ. -/
theorem rank_ranks [Std.TransCmp scores] (hids : (catalogue.map Pattern.id).Nodup) :
    Ranks scores report a t catalogue (rank scores report a t catalogue) := by
  have hmem : ∀ x, x ∈ rank scores report a t catalogue ↔ ∃ p ∈ catalogue, p.Applies report t ∧
      x = (RankingContext.of report a t).candidate p :=
    fun x ↦ rank_perm.mem_iff.trans mem_unranked_iff
  have hnodup : ((rank scores report a t catalogue).map Candidate.id).Nodup :=
    (rank_perm.map Candidate.id).nodup_iff.2 (nodup_ids_unranked hids)
  refine ⟨fun x ↦ (hmem x).1, fun p hp happlies ↦ ?_, fun p hp hnot ↦ ?_,
    (Sorting.pairwise_lt (untied_unranked hids)).imp precedes_of_order_eq_lt⟩
  · exact List.count_eq_one_of_mem hnodup
      (List.mem_map.2 ⟨_, (hmem _).2 ⟨p, hp, happlies, rfl⟩, rfl⟩)
  · refine List.count_eq_zero.2 fun hid ↦ ?_
    obtain ⟨x, hx, hid⟩ := List.mem_map.1 hid
    obtain ⟨q, hq, happlies, rfl⟩ := (hmem x).1 hx
    -- A candidate of that name is the candidate of the pattern itself.
    obtain rfl : q = p := List.inj_on_of_nodup_map hids hq hp hid
    exact hnot happlies

/-- **Rankings do not depend on the order of the catalogue**, for every total order of the scores,
every report with any results and every catalogue whose names differ. The list holds the candidates
of the patterns that apply, in order. Another pattern, wherever it is added, leaves the candidates
of the others and their order as they are. -/
theorem rank_exact (scores : Float → Float → Ordering) [Std.TransCmp scores]
    (report : QualityReport) (a : Analysis) (t : Timing) (catalogue : List Pattern)
    (hids : (catalogue.map Pattern.id).Nodup) :
    Ranks scores report a t catalogue (rank scores report a t catalogue) ∧
    (∀ shuffled : List Pattern, shuffled.Perm catalogue →
      rank scores report a t shuffled = rank scores report a t catalogue) ∧
    ∀ (front back : List Pattern) (p : Pattern), catalogue = front ++ back →
      (rank scores report a t catalogue).Sublist (rank scores report a t (front ++ p :: back)) ∧
      (p.Applies report t → (rank scores report a t (front ++ p :: back)).Perm
        ((RankingContext.of report a t).candidate p :: rank scores report a t catalogue)) ∧
      (¬p.Applies report t →
        rank scores report a t (front ++ p :: back) = rank scores report a t catalogue) := by
  refine ⟨rank_ranks hids, fun shuffled hperm ↦ ?_, ?_⟩
  · exact (Sorting.eq_of_perm ((hperm.symm.filter _).map _) (untied_unranked hids)).symm
  · rintro front back p rfl
    have hsub : (front ++ back).Sublist (front ++ p :: back) :=
      (List.Sublist.refl front).append (List.sublist_cons_self p back)
    refine ⟨Sorting.sublist ((hsub.filter _).map _), fun happlies ↦ ?_, fun hnot ↦ ?_⟩
    · calc rank scores report a t (front ++ p :: back)
        _ ~ unranked report a t front ++ unranked report a t (p :: back) :=
          unranked_append front (p :: back) ▸ rank_perm
        _ ~ _ :: (unranked report a t front ++ unranked report a t back) :=
          unranked_cons_of_applies happlies ▸ List.perm_middle
        _ ~ _ :: rank scores report a t (front ++ back) :=
          (unranked_append front back ▸ rank_perm.symm).cons _
    · rw [rank_eq, rank_eq, unranked_append, unranked_append, unranked_cons_of_not_applies hnot]

/-- A report that finds a routine ready for cheaper arithmetic. -/
def readyReport : QualityReport where
  routineName := "scale"
  readiness :=
    { enabled := true
      categories := [⟨.arithmetic, 40.0, 0.9, 3.0, 1⟩]
      safety := { overall := 90.0 } }
  summary := {}

/-- A timing without issues on a variant that has no instruction for storing zero. -/
def plainTiming : Timing where
  routineName := "scale"
  platform := .c64
  variant := .mos6510
  isValid := true
  issues := []

/-- A pattern of cheaper arithmetic. -/
def scaling (id : String) : Pattern :=
  ⟨id, .arithmetic, 10.0, [], 5.0⟩

/-- Two patterns that tie but for their names, and one that requires a feature. -/
def tiedPatterns : List Pattern :=
  [scaling "shift", scaling "mask", ⟨"stz", .hardwareSpecific, 0.0, [.storeZero], 5.0⟩]

theorem rank_exact_tiedPatterns : (tiedPatterns.map Pattern.id).Nodup ∧
    (rank Score.totalOrder readyReport (.run {} { name := "scale" }) plainTiming
      tiedPatterns).map Candidate.id = ["mask", "shift"] := by
  have hids : (tiedPatterns.map Pattern.id).Nodup := by decide
  refine ⟨hids, ?_⟩
  rw [← (rank_exact Score.totalOrder readyReport (.run {} { name := "scale" }) plainTiming
    tiedPatterns hids).2.1 _ (List.Perm.swap _ _ _), rank_eq,
    List.mergeSort_of_pairwise (by decide +kernel)]
  decide +kernel

end Candidate

end FlowGauge
