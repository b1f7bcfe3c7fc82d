import FlowGauge.Score
import FlowGauge.Timing.Context

/-!
# Hotspots

Cycles are weighted by ten for every loop around an instruction, up to six loops. An instruction
that costs cycles is a hotspot when it costs more than the threshold of the hardware, lies in two
loops or more, or is marked as hot. The headroom score is the share of weighted cycles spent in
hotspots.
-/

namespace FlowGauge

/-- An instruction worth a look. -/
structure Hotspot where
  index : Nat
  opcode : Opcode
  cycles : Nat
  loopDepth : Nat
  weightedCycles : Nat
  exceedsThreshold : Bool
  deepLoop : Bool
  hinted : Bool
deriving DecidableEq, Repr

/-- The hotspots of a routine. -/
structure Hotspots where
  enabled : Bool := false
  threshold : Nat := 0
  /-- The hotspots, the heaviest first. -/
  hotspots : List Hotspot := []
  totalWeighted : Nat := 0
  hotspotWeighted : Nat := 0
  /-- The share of weighted cycles spent in hotspots, from 0 to 100. -/
  headroom : Float := 0.0

namespace Hotspots

/-- The weight of a cycle at a loop depth. It is a million at most, and the cycles of an instruction
are kept in 32 bits, so a weighted cost always fits 64 bits; only their sum has to be cut off. -/
def weight (depth : Nat) : Nat :=
  Nat.pow 10 (min depth 6)

/-- The hotspot at an instruction, if it is one. -/
def hotspot? (threshold index : Nat) (i : Instruction) (loopDepth cycles : Nat) : Option Hotspot :=
  let spot : Hotspot :=
    { index
      opcode := i.opcode
      cycles
      loopDepth
      weightedCycles := cycles * weight loopDepth
      exceedsThreshold := threshold < cycles
      deepLoop := 2 ≤ loopDepth
      hinted := i.hints.any Hints.hot }
  if cycles ≠ 0 && (spot.exceedsThreshold || spot.deepLoop || spot.hinted) then some spot else none

/-- Heavier hotspots come first, and earlier ones among equally heavy. -/
def before (a b : Hotspot) : Bool :=
  b.weightedCycles < a.weightedCycles || (a.weightedCycles == b.weightedCycles && a.index ≤ b.index)

/-- The sum of some weighted cycles, at most what a 64-bit word holds. -/
def saturated (weighted : List Nat) : Nat :=
  min (total weighted) (Word.bound 64 - 1)

/-- The hotspots of a routine. -/
def analyze (c : TimingContext) : Hotspots :=
  let threshold := c.hardware.hotspotThreshold
  let found := c.rows.filterMap fun (index, i, depth, cycles) ↦
    hotspot? threshold index i depth cycles
  let all := saturated (c.rows.map fun (_, _, depth, cycles) ↦ cycles * weight depth)
  let hot := saturated (found.map Hotspot.weightedCycles)
  { enabled := true
    threshold
    hotspots := found.mergeSort before
    totalWeighted := all
    hotspotWeighted := hot
    headroom := if all = 0 then 0.0 else Score.between 0.0 100.0 (Score.percent hot all) }

/-- The hotspots of a routine, stopped by a look-up outside of a list. -/
def run (c : TimingContext) : Checked Hotspots := do
  let _ ← Checked.inside c.rows?
  return analyze c

end Hotspots

end FlowGauge
