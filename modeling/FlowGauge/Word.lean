/-!
# Words and totals

`Word.bound n` is the number of values of a word of `n` bits. `total` is the sum of a list of
natural numbers; no word bounds it.
-/

namespace FlowGauge

/-- The numbers below the bound are those that fit a word of that many bits. -/
def Word.bound (bits : Nat) : Nat :=
  1 <<< bits

/-- The sum of a list of numbers. -/
def total (ns : List Nat) : Nat :=
  ns.foldr (· + ·) 0

@[simp] theorem total_nil : total [] = 0 :=
  rfl

@[simp] theorem total_cons (n : Nat) (ns : List Nat) : total (n :: ns) = n + total ns :=
  rfl

@[simp] theorem total_append (ms ns : List Nat) : total (ms ++ ns) = total ms + total ns := by
  induction ms with
  | nil => simp
  | cons m ms ih => rw [List.cons_append, total_cons, total_cons, ih, Nat.add_assoc]

theorem total_eq_zero {ns : List Nat} (h : ∀ n ∈ ns, n = 0) : total ns = 0 := by
  induction ns with
  | nil => rfl
  | cons n ns ih => rw [total_cons, h n List.mem_cons_self, ih fun m hm ↦ h m (.tail n hm)]

end FlowGauge
