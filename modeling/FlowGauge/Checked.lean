import FlowGauge.Word

/-!
# Computations that stop short

Byte sizes and running sums are kept in 32-bit words, lengths and indices in 64-bit words. An
operation whose result does not fit stops the computation, and it never wraps. So does a look-up
outside of a list. Values themselves are natural numbers, so a successful result is the mathematical
one.
-/

namespace FlowGauge

/-- What stops a computation. -/
inductive Fault where
  /-- A product that does not fit its word. -/
  | multiply
  /-- A sum that does not fit its word. -/
  | add
  /-- A difference below zero. -/
  | subtract
  /-- A look-up outside of a list. -/
  | outside
deriving DecidableEq, Repr

/-- The report of a fault. -/
def Fault.message : Fault → String
  | multiply => "attempt to multiply with overflow"
  | add => "attempt to add with overflow"
  | subtract => "attempt to subtract with overflow"
  | outside => "index out of bounds"

/-- A computation that a fault may stop. -/
abbrev Checked (α : Type) : Type :=
  Except Fault α

namespace Checked

/-- Product of two 32-bit words. -/
def mul32 (a b : Nat) : Checked Nat :=
  if a * b < Word.bound 32 then .ok (a * b) else .error .multiply

/-- Sum of two 32-bit words. -/
def add32 (a b : Nat) : Checked Nat :=
  if a + b < Word.bound 32 then .ok (a + b) else .error .add

/-- Sum of two 64-bit words. -/
def add64 (a b : Nat) : Checked Nat :=
  if a + b < Word.bound 64 then .ok (a + b) else .error .add

/-- Difference of two unsigned words. -/
def sub (a b : Nat) : Checked Nat :=
  if b ≤ a then .ok (a - b) else .error .subtract

/-- A number that fits a 64-bit word. -/
def fit64 (n : Nat) : Checked Nat :=
  if n < Word.bound 64 then .ok n else .error .add

/-- What is looked up, stopped when the look-up lies outside. -/
def inside {α : Type} (read : Option α) : Checked α :=
  read.elim (.error .outside) .ok

/-- What is computed if it is asked for, and left empty otherwise. -/
def onRequest {α : Type} (asked : Bool) (content : Checked α) (empty : α) : Checked α :=
  if asked then content else .ok empty

theorem add64_eq_ok_iff {a b c : Nat} : add64 a b = .ok c ↔ a + b = c ∧ c < Word.bound 64 := by
  unfold add64
  split <;> simp <;> omega

theorem sub_eq_ok_iff {a b c : Nat} : sub a b = .ok c ↔ b ≤ a ∧ a - b = c := by
  unfold sub
  split <;> simp <;> omega

/-- A running 32-bit sum, stopped as soon as it leaves the word. -/
def sum32 (sizes : List (Checked Nat)) : Checked Nat :=
  sizes.foldlM (fun total size ↦ do add32 total (← size)) 0

end Checked

end FlowGauge
