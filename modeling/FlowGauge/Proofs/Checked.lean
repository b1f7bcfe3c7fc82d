import FlowGauge.Checked
import Mathlib.Data.List.Basic

/-!
# Computations in sequence

A sequence of checked steps stops at the first fault. It runs through exactly when every step does
(`mapM_eq_ok`, `exists_ok_of_mapM`), and what stops it is the fault of one of its steps
(`exists_error_of_mapM`).

A running sum is stopped as soon as it leaves its word. Sums only grow, so that this is decided by
the whole sum (`sum32_map_ok`): the order of the summands does not matter, and a sum that is not
stopped is the sum of the natural numbers.

What is said of a longer computation is put together from its steps. `Settles` names when it runs
through and what it then yields, and leaves open which word is too narrow otherwise. It excludes one
fault, the look-up outside of a list.
-/

namespace FlowGauge.Checked

variable {α β : Type}

/-! ### Steps -/

/-- A step runs through and so does what follows it. -/
theorem bind_eq_ok_iff {x : Checked α} {f : α → Checked β} {b : β} :
    x >>= f = .ok b ↔ ∃ a, x = .ok a ∧ f a = .ok b := by
  cases x <;> simp [bind, Except.bind]

/-- Whether a computation runs through can be found out by running it. -/
theorem exists_eq_ok_of_isOk {x : Checked α} (h : x.isOk = true) : ∃ a, x = .ok a := by
  cases x with
  | ok a => exact ⟨a, rfl⟩
  | error e => cases h

/-- A sequence of steps that all run through yields what they yield. -/
theorem mapM_eq_ok {f : α → Checked β} {g : α → β} {xs : List α}
    (h : ∀ x ∈ xs, f x = .ok (g x)) : xs.mapM f = .ok (xs.map g) := by
  induction xs with
  | nil => rfl
  | cons x xs ih =>
    rw [List.mapM_cons, h x List.mem_cons_self, ih fun y hy ↦ h y (.tail x hy)]
    rfl

/-- A sequence that runs through does so step by step. -/
theorem exists_ok_of_mapM {f : α → Checked β} {xs : List α} {ys : List β}
    (h : xs.mapM f = .ok ys) : ∀ x ∈ xs, ∃ y, f x = .ok y := by
  induction xs generalizing ys with
  | nil => exact fun x hx ↦ absurd hx List.not_mem_nil
  | cons x xs ih =>
    rw [List.mapM_cons, bind_eq_ok_iff] at h
    obtain ⟨y, hy, h⟩ := h
    obtain ⟨ys, hys, -⟩ := bind_eq_ok_iff.1 h
    exact List.forall_mem_cons.2 ⟨⟨y, hy⟩, ih hys⟩

/-- **What stops a sequence stops one of its steps.** -/
theorem exists_error_of_mapM {f : α → Checked β} {xs : List α} {e : Fault}
    (h : xs.mapM f = .error e) : ∃ x ∈ xs, f x = .error e := by
  induction xs with
  | nil => cases h
  | cons x xs ih =>
    rw [List.mapM_cons] at h
    cases hx : f x with
    | error e' =>
      rw [hx] at h
      exact ⟨x, List.mem_cons_self, hx.trans (congrArg Except.error (Except.error.inj h))⟩
    | ok y =>
      rw [hx] at h
      cases hxs : xs.mapM f with
      | error e' =>
        rw [hxs] at h
        obtain ⟨z, hz, hstops⟩ := ih (hxs.trans (congrArg Except.error (Except.error.inj h)))
        exact ⟨z, .tail x hz, hstops⟩
      | ok ys =>
        rw [hxs] at h
        cases h

/-! ### Running sums -/

/-- **A running sum is stopped exactly when the whole sum does not fit.** -/
theorem sum32_map_ok (ns : List Nat) : sum32 (ns.map .ok) =
    if total ns < Word.bound 32 then .ok (total ns) else .error .add := by
  have hrun : ∀ sum < Word.bound 32, (ns.map Except.ok).foldlM
      (fun sum size ↦ do add32 sum (← size)) sum =
      if sum + total ns < Word.bound 32 then .ok (sum + total ns) else .error .add := by
    induction ns with
    | nil =>
      intro sum hsum
      rw [total_nil, Nat.add_zero, if_pos hsum]
      rfl
    | cons n ns ih =>
      intro sum _
      rw [total_cons, ← Nat.add_assoc]
      show (add32 sum n >>= fun sum ↦ (ns.map Except.ok).foldlM _ sum) = _
      rw [add32]
      split
      · next hfits => exact ih (sum + n) hfits
      · next hwide => exact (if_neg (by omega)).symm
  simpa [sum32] using hrun 0 (by decide)

/-- Counting one by one is stopped exactly when the count does not fit. -/
theorem sum32_map_one (xs : List α) : sum32 (xs.map fun _ ↦ .ok 1) =
    if xs.length < Word.bound 32 then .ok xs.length else .error .add := by
  have hlength : total (xs.map fun _ ↦ 1) = xs.length := by
    induction xs with
    | nil => rfl
    | cons x xs ih => rw [List.map_cons, total_cons, ih, List.length_cons, Nat.add_comm]
  rw [← hlength, ← sum32_map_ok, List.map_map]
  rfl

/-- A running sum is stopped as soon as one of its parts is. -/
theorem exists_eq_ok_of_sum32 {sizes : List (Checked Nat)} {n : Nat} (h : sum32 sizes = .ok n) :
    ∀ size ∈ sizes, ∃ k, size = .ok k := by
  suffices ∀ sum, sizes.foldlM (fun sum size ↦ do add32 sum (← size)) sum = .ok n →
      ∀ size ∈ sizes, ∃ k, size = .ok k from this 0 h
  clear h
  induction sizes with
  | nil => exact fun _ _ size hsize ↦ absurd hsize List.not_mem_nil
  | cons first rest ih =>
    intro sum h
    rw [List.foldlM_cons, bind_eq_ok_iff] at h
    obtain ⟨next, hnext, hrest⟩ := h
    obtain ⟨k, hk, -⟩ := bind_eq_ok_iff.1 hnext
    exact List.forall_mem_cons.2 ⟨⟨k, hk⟩, ih next hrest⟩

/-! ### No look-up outside -/

/-- A sequence has no look-up outside when its steps have none. -/
theorem bind_ne_outside {x : Checked α} {f : α → Checked β} (hx : x ≠ .error .outside)
    (hf : ∀ a, f a ≠ .error .outside) : x >>= f ≠ .error .outside := by
  cases x with
  | ok a => exact hf a
  | error e => exact fun h ↦ hx (congrArg Except.error (Except.error.inj h))

theorem add32_ne_outside (m n : Nat) : add32 m n ≠ .error .outside := by
  rw [add32]
  split <;> nofun

/-- A loop has no look-up outside when no round of it has one. -/
theorem foldlM_ne_outside {f : β → α → Checked β} {xs : List α}
    (h : ∀ b, ∀ x ∈ xs, f b x ≠ .error .outside) (b : β) : xs.foldlM f b ≠ .error .outside := by
  induction xs generalizing b with
  | nil => nofun
  | cons x xs ih =>
    rw [List.foldlM_cons]
    exact bind_ne_outside (h b x List.mem_cons_self) fun b' ↦
      ih (fun b y hy ↦ h b y (.tail x hy)) b'

/-! ### What a computation settles on -/

/-- The computation runs through exactly under the condition, what it then yields is as it should
be, and nothing is ever looked up outside of a list. -/
structure Settles (x : Checked α) (condition : Prop) (holds : α → Prop) : Prop where
  exists_ok_iff : (∃ a, x = .ok a) ↔ condition
  holds_of_ok : ∀ a, x = .ok a → holds a
  ne_outside : x ≠ .error .outside

namespace Settles

variable {p q : Prop} {P Q : α → Prop} {R : β → Prop} {x : Checked α}

/-- A value that is at hand is settled. -/
theorem pure (a : α) : Settles (.ok a) True (· = a) where
  exists_ok_iff := iff_of_true ⟨a, rfl⟩ trivial
  holds_of_ok _ h := (Except.ok.inj h).symm
  ne_outside := nofun

/-- What is known to settle may be described in other words. -/
theorem congr (h : Settles x p P) (hpq : p ↔ q) (hPQ : ∀ a, P a → Q a) : Settles x q Q :=
  ⟨h.exists_ok_iff.trans hpq, fun a ha ↦ hPQ a (h.holds_of_ok a ha), h.ne_outside⟩

/-- **Two steps in sequence settle under both conditions.** -/
theorem bind {f : α → Checked β} (hx : Settles x p P) (hf : ∀ a, P a → Settles (f a) q R) :
    Settles (x >>= f) (p ∧ q) R := by
  cases x with
  | ok a =>
    have hp : p := hx.exists_ok_iff.1 ⟨a, rfl⟩
    exact (hf a (hx.holds_of_ok a rfl)).congr (and_iff_right hp).symm fun _ h ↦ h
  | error e =>
    have hp : ¬p := fun hp ↦ by simpa using hx.exists_ok_iff.2 hp
    show Settles (.error e) (p ∧ q) R
    exact ⟨iff_of_false nofun fun h ↦ hp h.1, nofun,
      fun h ↦ hx.ne_outside (congrArg Except.error (Except.error.inj h))⟩

/-- **A computation that only its first step can stop** settles on whatever it yields, when that step
runs through. -/
theorem of_bind {f : α → Checked β} (hx : x ≠ .error .outside) (hf : ∀ a, ∃ b, f a = .ok b) :
    Settles (x >>= f) (∃ a, x = .ok a) (x >>= f = .ok ·) where
  exists_ok_iff := by
    simp only [bind_eq_ok_iff]
    constructor
    · rintro ⟨-, a, ha, -⟩
      exact ⟨a, ha⟩
    · rintro ⟨a, ha⟩
      obtain ⟨b, hb⟩ := hf a
      exact ⟨b, a, ha, hb⟩
  holds_of_ok _ h := h
  ne_outside := bind_ne_outside hx fun a h ↦ by
    obtain ⟨b, hb⟩ := hf a
    rw [hb] at h
    cases h

/-- A look-up that lies inside settles on what it finds. -/
theorem inside {read : Option α} {a : α} (h : read = some a) :
    Settles (Checked.inside read) True (· = a) :=
  h ▸ pure a

/-- What fits is yielded, and a word is too narrow otherwise. -/
theorem fitting [Decidable p] (a : α) :
    Settles (if p then .ok a else .error .add) p (· = a) := by
  split
  · next h => exact (pure a).congr (iff_of_true trivial h) fun _ ha ↦ ha
  · next h => exact ⟨iff_of_false nofun h, nofun, nofun⟩

/-- A number settles as itself when it fits a 64-bit word. -/
theorem fit64 (n : Nat) : Settles (Checked.fit64 n) (n < Word.bound 64) (· = n) :=
  fitting n

/-- A running sum settles on the sum of the natural numbers, when that fits a 32-bit word. -/
theorem sum32 (ns : List Nat) :
    Settles (Checked.sum32 (ns.map .ok)) (total ns < Word.bound 32) (· = total ns) :=
  sum32_map_ok ns ▸ fitting _

/-- A count is a running sum of ones. -/
theorem count (xs : List α) : Settles (Checked.sum32 (xs.map fun _ ↦ .ok 1))
    (xs.length < Word.bound 32) (· = xs.length) :=
  sum32_map_one xs ▸ fitting _

/-- **A sequence settles when all of its steps do**, on what they settle on. -/
theorem mapM {f : α → Checked β} {g : α → β} {c : α → Prop} {xs : List α}
    (h : ∀ x ∈ xs, Settles (f x) (c x) (· = g x)) :
    Settles (xs.mapM f) (∀ x ∈ xs, c x) (· = xs.map g) := by
  have hok : ∀ x ∈ xs, c x → f x = .ok (g x) := by
    intro x hx hc
    obtain ⟨y, hy⟩ := (h x hx).exists_ok_iff.2 hc
    rw [hy, (h x hx).holds_of_ok y hy]
  have hall {ys : List β} (hys : xs.mapM f = .ok ys) : ∀ x ∈ xs, c x := fun x hx ↦
    (h x hx).exists_ok_iff.1 (exists_ok_of_mapM hys x hx)
  refine ⟨⟨fun ⟨_, hys⟩ ↦ hall hys, fun hc ↦ ⟨_, mapM_eq_ok fun x hx ↦ hok x hx (hc x hx)⟩⟩,
    fun ys hys ↦ ?_, fun hrun ↦ ?_⟩
  · have hmap := mapM_eq_ok fun x hx ↦ hok x hx (hall hys x hx)
    exact Except.ok.inj (hys.symm.trans hmap)
  · obtain ⟨x, hx, hstops⟩ := exists_error_of_mapM hrun
    exact (h x hx).ne_outside hstops

/-- What is not asked for has no condition. -/
theorem onRequest (asked : Bool) (empty : α) (h : Settles x p P) :
    Settles (Checked.onRequest asked x empty) (asked = true → p)
      fun y ↦ if asked then P y else y = empty := by
  cases asked with
  | false => exact (pure empty).congr (by simp) fun y hy ↦ by simpa using hy
  | true => exact h.congr (by simp) fun y hy ↦ by simpa using hy

/-- A section that is not asked for needs nothing to fit. -/
theorem onRequest_eq {a : α} (asked : Bool) (empty : α) (h : Settles x p (· = a)) :
    Settles (Checked.onRequest asked x empty) (asked = true → p)
      (· = if asked then a else empty) :=
  (h.onRequest asked empty).congr Iff.rfl fun y hy ↦ by split at hy <;> simp_all

/-- A section that yields what another computation yields does so when it is asked for. -/
theorem onRequest_ok {y : Checked α} (asked : Bool) (empty : α) (h : Settles x p (y = .ok ·)) :
    Settles (Checked.onRequest asked x empty) (asked = true → p)
      ((if asked then y else .ok empty) = .ok ·) :=
  (h.onRequest asked empty).congr Iff.rfl fun z hz ↦ by split at hz <;> simp_all

end Settles

end FlowGauge.Checked
