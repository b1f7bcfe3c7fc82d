import FlowGauge.Checked
import FlowGauge.Json
import FlowGauge.Ordered

/-!
# Live ranges

A live range spans the instruction indices from its start to its end, both included. How many of
some spans hold one index at most is found by a sweep over the indices at which their number
changes.
-/

namespace FlowGauge

/-- A span of instruction indices. -/
structure LiveRange where
  /-- The first index. -/
  start : Nat
  /-- The last index. -/
  stop : Nat
deriving DecidableEq, Repr

namespace LiveRange

/-- Whether two spans share an index. -/
def overlaps (r s : LiveRange) : Bool :=
  r.start ≤ s.stop && s.start ≤ r.stop

/-- Whether a span contains an index. -/
def contains (r : LiveRange) (index : Nat) : Bool :=
  r.start ≤ index && index ≤ r.stop

/-- The number of indices spanned; refused for a span that ends before it starts. -/
def length (r : LiveRange) : Checked Nat := do
  Checked.add64 (← Checked.sub r.stop r.start) 1

/-- Whether a span holds no index. None does: a span is meant to hold its start. -/
def isEmpty (_ : LiveRange) : Bool :=
  false

/-- Add a number to the entry at an index, where there is none to zero. -/
def shift (changes : Std.ExtTreeMap Nat Int) (index : Nat) (delta : Int) :
    Std.ExtTreeMap Nat Int :=
  changes.insert index (changes.getD index 0 + delta)

/-- By how much the number of spans changes at an index: a span counts from its start on, and no
longer behind its end. -/
def changes (spans : List LiveRange) : Std.ExtTreeMap Nat Int :=
  spans.foldl (fun changes r ↦ shift (shift changes r.start 1) (r.stop + 1) (-1)) ∅

/-- One step of a running sum, with the greatest sum so far. -/
def sumStep (sums : Int × Int) (delta : Int) : Int × Int :=
  (sums.1 + delta, max sums.2 (sums.1 + delta))

/-- The greatest number of spans that hold one index. -/
def peak (spans : List LiveRange) : Nat :=
  ((changes spans).values.foldl sumStep (0, 0)).2.toNat

instance : JsonForm LiveRange where
  encode r := .obj [("start", JsonForm.encode r.start), ("end", JsonForm.encode r.stop)]
  decode? j := do
    let [start, stop] ← j.record? ["start", "end"] | none
    return ⟨← JsonForm.required start, ← JsonForm.required stop⟩

end LiveRange

end FlowGauge
