import Mathlib.Data.List.Sort
import Mathlib.Data.Prod.Lex
import Mathlib.Data.String.Basic

/-!
# Lists sorted by a comparison

A list that shows in an answer is sorted with a chain of comparisons, where the later ones break the
ties of the earlier ones. All that is asked of a comparison is that it is total and transitive
(`Std.TransCmp`), which a chain is as soon as its links are. It need not tell all members apart: two
doubles that compare as equal, or two candidates with the same scores, tie.

When no two members of a list tie (`Sorting.Untied`), the sorted list depends on the members only,
and not on the order in which they are found (`Sorting.eq_of_perm`). Whether they tie or not,
sorting is stable, so that a member that is added leaves the others in their order
(`Sorting.sublist`).

Many chains are the order of one key, a tuple that is compared entry by entry (`KeyOrder`). There
the members tie exactly when they share their key.
-/

namespace FlowGauge

/-! ### Comparisons -/

namespace Sorting

section

variable {α : Type} (order : α → α → Ordering) [Std.TransCmp order]

theorem isLE_trans (a b c : α) (hab : (order a b).isLE = true) (hbc : (order b c).isLE = true) :
    (order a c).isLE = true :=
  Std.TransCmp.isLE_trans hab hbc

theorem isLE_total (a b : α) : ((order a b).isLE || (order b a).isLE) = true := by
  have hswap : order b a = (order a b).swap := Std.OrientedCmp.eq_swap
  rw [hswap]
  cases order a b <;> rfl

/-- A sorted list ascends. -/
theorem pairwise_isLE (xs : List α) :
    (xs.mergeSort fun a b ↦ (order a b).isLE).Pairwise fun a b ↦ (order a b).isLE = true :=
  List.pairwise_mergeSort (isLE_trans order) (isLE_total order) xs

end

variable {α : Type} {order : α → α → Ordering} [Std.TransCmp order]

/-- No two members of the list compare as equal. -/
def Untied (order : α → α → Ordering) (xs : List α) : Prop :=
  xs.Pairwise fun a b ↦ order a b ≠ .eq

/-- It does not matter in which order members that do not tie are found. -/
theorem Untied.perm {xs ys : List α} (h : Untied order xs) (hperm : xs.Perm ys) :
    Untied order ys := by
  refine hperm.pairwise h fun {a b} hne heq ↦ hne ?_
  have hswap : order a b = (order b a).swap := Std.OrientedCmp.eq_swap
  rw [hswap, heq]
  rfl

/-- **Without a tie a sorted list ascends strictly.** -/
theorem pairwise_lt {xs : List α} (h : Untied order xs) :
    (xs.mergeSort fun a b ↦ (order a b).isLE).Pairwise fun a b ↦ order a b = .lt := by
  have hne := h.perm (List.mergeSort_perm xs fun a b ↦ (order a b).isLE).symm
  refine ((pairwise_isLE order xs).and hne).imp fun {a b} hboth ↦ ?_
  rw [Ordering.isLE_iff_eq_lt_or_eq_eq] at hboth
  exact hboth.1.resolve_right hboth.2

/-- **Without a tie the sorted list does not depend on where it starts from.** -/
theorem eq_of_perm {xs ys : List α} (hperm : xs.Perm ys) (h : Untied order xs) :
    (xs.mergeSort fun a b ↦ (order a b).isLE) = ys.mergeSort fun a b ↦ (order a b).isLE := by
  have hall : (xs.mergeSort fun a b ↦ (order a b).isLE).Perm
      (ys.mergeSort fun a b ↦ (order a b).isLE) :=
    (List.mergeSort_perm ..).trans (hperm.trans (List.mergeSort_perm ..).symm)
  refine List.Perm.eq_of_pairwise (fun a b _ _ hab hba ↦ ?_) (pairwise_lt h)
    (pairwise_lt (h.perm hperm)) hall
  have hgt : order a b = .gt := Std.OrientedCmp.gt_iff_lt.2 hba
  exact absurd (hab.symm.trans hgt) (by decide)

/-- The place of a new first member: behind all that come strictly before it. -/
theorem cons_eq (x : α) (xs : List α) : (x :: xs).mergeSort (fun a b ↦ (order a b).isLE) =
    ((xs.mergeSort fun a b ↦ (order a b).isLE).filter fun y ↦ !(order x y).isLE) ++
      x :: ((xs.mergeSort fun a b ↦ (order a b).isLE).filter fun y ↦ (order x y).isLE) := by
  obtain ⟨before, behind, hcons, hrest, hbefore⟩ :=
    List.mergeSort_cons (isLE_trans order) (isLE_total order) x xs
  have hsorted := pairwise_isLE order (x :: xs)
  rw [hcons] at hsorted
  have hbehind : ∀ y ∈ behind, (order x y).isLE = true :=
    (List.pairwise_cons.1 (List.pairwise_append.1 hsorted).2.1).1
  rw [hcons, hrest, List.filter_append, List.filter_append, List.filter_eq_self.2 hbefore,
    List.filter_eq_nil_iff.2 fun y hy ↦ by simp only [hbehind y hy]; decide,
    List.filter_eq_nil_iff.2 (by simpa using hbefore), List.filter_eq_self.2 hbehind,
    List.append_nil, List.nil_append]

/-- **What is added leaves the others in their order**, also when there are ties. -/
theorem sublist {xs ys : List α} (hsub : xs.Sublist ys) :
    (xs.mergeSort fun a b ↦ (order a b).isLE).Sublist
      (ys.mergeSort fun a b ↦ (order a b).isLE) := by
  induction hsub with
  | slnil => exact List.Sublist.refl _
  | cons y hsub ih =>
    obtain ⟨before, behind, hcons, hrest, -⟩ :=
      List.mergeSort_cons (isLE_trans order) (isLE_total order) y _
    rw [hcons]
    rw [hrest] at ih
    exact ih.middle y
  | cons_cons x hsub ih =>
    rw [cons_eq, cons_eq]
    exact (ih.filter _).append ((ih.filter _).cons_cons x)

end Sorting

/-! ### Keys -/

variable {α κ : Type} [LinearOrder κ]

/-- The comparison is the order of the keys. -/
def KeyOrder (order : α → α → Ordering) (key : α → κ) : Prop :=
  ∀ a b, order a b = compare (key a) (key b)

namespace KeyOrder

variable {order : α → α → Ordering} {key : α → κ} (h : KeyOrder order key)

include h

theorem transCmp : Std.TransCmp order := by
  obtain rfl : order = compareOn key := funext₂ h
  infer_instance

/-- Members tie when they share their key. -/
theorem untied {xs : List α} (hdistinct : (xs.map key).Nodup) : Sorting.Untied order xs := by
  refine (List.pairwise_map.1 hdistinct).imp fun {a b} hne heq ↦ hne ?_
  rw [h a b] at heq
  exact compare_eq_iff_eq.1 heq

/-- **Without a tie the keys ascend strictly.** -/
theorem sort_pairwise_lt {xs : List α} (hdistinct : (xs.map key).Nodup) :
    (xs.mergeSort fun a b ↦ (order a b).isLE).Pairwise fun a b ↦ key a < key b := by
  have := h.transCmp
  refine (Sorting.pairwise_lt (h.untied hdistinct)).imp fun {a b} hlt ↦ ?_
  rw [h a b] at hlt
  exact compare_lt_iff_lt.1 hlt

theorem sort_eq_of_perm {xs ys : List α} (hperm : xs.Perm ys) (hdistinct : (xs.map key).Nodup) :
    (xs.mergeSort fun a b ↦ (order a b).isLE) = ys.mergeSort fun a b ↦ (order a b).isLE := by
  have := h.transCmp
  exact Sorting.eq_of_perm hperm (h.untied hdistinct)

end KeyOrder

end FlowGauge
