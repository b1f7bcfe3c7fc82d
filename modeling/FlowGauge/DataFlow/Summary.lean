import FlowGauge.DataFlow.Interference
import FlowGauge.DataFlow.Liveness
import FlowGauge.DataFlow.LiveRange
import FlowGauge.DataFlow.Reaching

/-!
# Data-flow summary of a routine

The summary gathers the chains between definitions and reads, the live variables of every block, a
live range for every variable, the interference graph and the greatest number of variables live at
once.

With `Precision.precise`, ranges and conflicts come from the live points: a written variable is in
conflict with every other variable live right after the instruction, except that a copy leaves out
what it copies. With `Precision.coarse`, a range goes from the first access to the last read and two
variables are in conflict when their ranges overlap.
-/

namespace FlowGauge

/-- How live ranges and conflicts are derived. -/
inductive Precision where
  | precise
  | coarse
deriving DecidableEq, Repr, Inhabited

instance : Vocabulary Precision where
  all := [.precise, .coarse]
  word
    | .precise => "precise"
    | .coarse => "coarse"

/-- What the data-flow analyses find. -/
structure DataFlow where
  precision : Precision
  /-- One chain per definition. -/
  defUse : List DefUse := []
  /-- One chain per read. -/
  useDef : List UseDef := []
  /-- The places where each variable is accessed. -/
  sites : Std.ExtTreeMap String Sites := ∅
  /-- The live variables of every reached block. -/
  blockLiveness : Std.ExtTreeMap Nat BlockLiveness := ∅
  /-- The live range of each variable. -/
  liveRanges : Std.ExtTreeMap String LiveRange := ∅
  interference : InterferenceGraph := {}
  /-- The greatest number of variables live at once. -/
  maxLive : Nat := 0

namespace DataFlow

/-! ### Live ranges -/

/-- The least number of a list. -/
def least? : List Nat → Option Nat
  | [] => none
  | n :: rest => some (rest.foldl min n)

/-- The greatest number of a list. -/
def greatest? : List Nat → Option Nat
  | [] => none
  | n :: rest => some (rest.foldl max n)

/-- The index of the first access to a variable. -/
def firstAccess? (s : Sites) : Option Nat :=
  least? ((s.definitions.toList ++ s.uses.toList).map Location.index)

/-- The index of the last read of a variable. -/
def lastRead? (s : Sites) : Option Nat :=
  greatest? (s.uses.toList.map Location.index)

/-- The range from the first access to the last read. -/
def coarseRange? (s : Sites) : Option LiveRange := do
  let start ← firstAccess? s
  return { start, stop := max ((lastRead? s).getD start) start }

/-- The range that also covers all points before which the variable is live. -/
def preciseRange? (s : Sites) (live : List Nat) : Option LiveRange := do
  let first ← firstAccess? s
  let last := (lastRead? s).getD first
  let start := ((least? live).map (min first)).getD first
  let stop := ((greatest? live).map (max last)).getD last
  return { start, stop := max stop start }

/-- The ranges of all variables that have one. -/
def rangesOf (sites : Std.ExtTreeMap String Sites)
    (range? : String → Sites → Option LiveRange) : Std.ExtTreeMap String LiveRange :=
  sites.filterMap range?

/-! ### Conflicts -/

/-- The conflicts of the variable written at a point. -/
def conflictsAt (p : LivePoint) : List (String × String) :=
  match p.written with
  | none => []
  | some written => (p.after.toList.filter fun other ↦
      other ≠ written && some other ≠ p.copied).map fun other ↦ (written, other)

/-- The pairs of names, the first before the second in a list. -/
def pairs {α : Type} : List α → List (α × α)
  | [] => []
  | a :: rest => rest.map (fun b ↦ (a, b)) ++ pairs rest

/-- The graph with the given variables and conflicts. -/
def graphOf (names : List String) (conflicts : List (String × String)) : InterferenceGraph :=
  conflicts.foldl (fun g (a, b) ↦ g.addEdge a b)
    (names.foldl InterferenceGraph.addNode {})

/-! ### The summary -/

/-- The data-flow summary of a graph. -/
def analyze (g : FlowGraph) (precision : Precision) : DataFlow :=
  let blocks := g.reversePostorder
  let reads := Reaching.useDefs g blocks
  let sites := Reaching.sites g blocks
  let liveness := Liveness.compute g blocks
  let base (ranges : Std.ExtTreeMap String LiveRange) (conflicts : List (String × String))
      (maxLive : Nat) : DataFlow :=
    { precision
      defUse := Reaching.defUses g blocks reads
      useDef := reads
      sites
      blockLiveness := liveness.blocks
      liveRanges := ranges
      interference := graphOf sites.keys conflicts
      maxLive }
  match precision with
  | .precise =>
    let livePoints (name : String) : List Nat :=
      (liveness.points.filter (·.before.contains name)).map LivePoint.index
    base (rangesOf sites fun name s ↦ preciseRange? s (livePoints name))
      (liveness.points.flatMap conflictsAt)
      ((liveness.points.map fun p ↦ max p.before.size p.after.size).foldl max 0)
  | .coarse =>
    let ranges := rangesOf sites fun _ s ↦ coarseRange? s
    let overlapping := (pairs ranges.toList).filter fun ((_, r), (_, s)) ↦ r.overlaps s
    base ranges (overlapping.map fun ((a, _), (b, _)) ↦ (a, b)) (LiveRange.peak ranges.values)

/-- The mean number of reads that a definition reaches. -/
def averageChainLength (d : DataFlow) : Float :=
  if d.defUse.isEmpty then 0.0
  else Float.ofNat (total (d.defUse.map (·.uses.size))) / Float.ofNat d.defUse.length

instance : JsonForm DataFlow where
  encode d := .obj [("precision", JsonForm.encode d.precision),
    ("def_use", JsonForm.encode d.defUse), ("use_def", JsonForm.encode d.useDef),
    ("variables", JsonForm.encode d.sites),
    ("block_liveness", JsonForm.encode d.blockLiveness),
    ("live_ranges", JsonForm.encode d.liveRanges),
    ("interference", JsonForm.encode d.interference),
    ("max_live_variables", JsonForm.encode d.maxLive)]
  decode? j := do
    let [precision, defUse, useDef, sites, liveness, ranges, interference, maxLive] ←
      j.record? ["precision", "def_use", "use_def", "variables", "block_liveness", "live_ranges",
        "interference", "max_live_variables"] | none
    return ⟨← JsonForm.required precision, ← JsonForm.required defUse, ← JsonForm.required useDef,
      ← JsonForm.required sites, ← JsonForm.required liveness, ← JsonForm.required ranges,
      ← JsonForm.required interference, ← JsonForm.required maxLive⟩

end DataFlow

end FlowGauge
