import FlowGauge.Decimal
import FlowGauge.Score
import FlowGauge.Timing.Context

/-!
# Memory layout

Every declared local is charged to the region of its storage class, every parameter to the stack,
and every undeclared variable that is not global to the region its first occurrence asks for. Sizes
and running totals are 32-bit words, so the computation may be refused. A region that is too small
is an error; one that is nearly full is a warning.
-/

namespace FlowGauge

/-- A memory region. -/
inductive MemoryRegion where
  | zeroPage
  | stack
  | ram
deriving DecidableEq, Repr

instance : Vocabulary MemoryRegion where
  all := [.zeroPage, .stack, .ram]
  word
    | .zeroPage => "zero_page"
    | .stack => "stack"
    | .ram => "ram"

/-- The use of one region. The last two entries are kept and not computed again, so that a layout
that comes from elsewhere says what it says. -/
structure RegionUsage where
  region : MemoryRegion
  used : Nat
  capacity : Nat
  /-- The use in percent of the capacity. -/
  utilization : Float
  /-- Whether the region is large enough. -/
  isValid : Bool

/-- The use of a region, in percent of its capacity too; zero percent without capacity. -/
def RegionUsage.of (region : MemoryRegion) (used capacity : Nat) : RegionUsage where
  region
  used
  capacity
  utilization := if capacity = 0 then 0.0 else Score.percent used capacity
  isValid := used ≤ capacity

/-- The memory a routine needs. -/
structure MemoryLayout where
  enabled : Bool := false
  zeroPage : RegionUsage := .of .zeroPage 0 0
  stack : RegionUsage := .of .stack 0 0
  ram : RegionUsage := .of .ram 0 0
  /-- The number of locals kept in registers. -/
  registerLocals : Nat := 0
  /-- The number of instructions with an addressing mode that the variant lacks. -/
  unsupportedModes : Nat := 0

namespace MemoryLayout

/-- The use above which a region counts as nearly full, in percent. -/
def pressurePercent : Float :=
  80.0

/-- The three regions. -/
def regions (m : MemoryLayout) : List RegionUsage :=
  [m.zeroPage, m.stack, m.ram]

/-- Whether every region is large enough and every addressing mode is available. -/
def isValid (m : MemoryLayout) : Bool :=
  m.regions.all RegionUsage.isValid && m.unsupportedModes == 0

/-- The greatest use of a region in percent. -/
def peakUtilization (m : MemoryLayout) : Float :=
  (m.regions.map RegionUsage.utilization).foldl Score.greater 0.0

/-! ### Charges -/

/-- The region of a storage class; registers take no memory. -/
def regionOfClass : StorageClass → Option MemoryRegion
  | .register => none
  | .zeroPage => some .zeroPage
  | .stack => some .stack
  | .ram => some .ram

/-- The region a storage hint asks for. -/
def regionOfHint : StorageHint → Option MemoryRegion
  | .zeroPage => some .zeroPage
  | .ram => some .ram
  | .auto | .register => none

/-- The variables named by the instructions of a routine, in order. -/
def mentionedVariables (r : Routine) : List Variable :=
  r.instructions.flatMap fun i ↦ i.mentions.filterMap fun
    | .var v => some v
    | _ => none

/-- The first occurrences of the variables that are neither global nor among the known names. -/
def firstOccurrences : (known : List String) → List Variable → List Variable
  | _, [] => []
  | known, v :: rest =>
    if v.scope = .global || v.name ∈ known then firstOccurrences known rest
    else v :: firstOccurrences (v.name :: known) rest

/-- The undeclared local variables of a routine. -/
def undeclared (r : Routine) : List Variable :=
  firstOccurrences (r.locals.map Declaration.name ++ r.parameters.map Parameter.name)
    (mentionedVariables r)

/-- What is charged to memory, in order: a data type, and the region it is charged to. A local kept
in a register is measured too, but charged to no region. -/
def charges (r : Routine) : List (Option MemoryRegion × DataType) :=
  r.locals.map (fun l ↦ (regionOfClass l.allocation, l.type)) ++
    r.parameters.map (fun p ↦ (some .stack, p.type)) ++
    (undeclared r).filterMap fun v ↦ (regionOfHint v.storage).map fun region ↦ (some region, v.type)

/-- The bytes charged to each region so far. -/
structure Totals where
  zeroPage : Nat := 0
  stack : Nat := 0
  ram : Nat := 0
deriving DecidableEq, Repr

/-- Charge one data type. -/
def charge (t : Totals) (c : Option MemoryRegion × DataType) : Checked Totals := do
  let size ← c.2.size
  match c.1 with
  | none => return t
  | some .zeroPage => return { t with zeroPage := ← Checked.add32 t.zeroPage size }
  | some .stack => return { t with stack := ← Checked.add32 t.stack size }
  | some .ram => return { t with ram := ← Checked.add32 t.ram size }

/-- The bytes charged to each region. -/
def totals (r : Routine) : Checked Totals :=
  (charges r).foldlM charge {}

/-! ### The section -/

/-- The issue with the use of a region. -/
def regionIssue? (routine : String) (u : RegionUsage) : Option Issue :=
  if !u.isValid then
    some (.error .memoryOverflow (routine ++ " needs " ++ toString u.used ++ " bytes of " ++
      Vocabulary.word u.region ++ ", " ++ toString u.capacity ++ " available"))
  else if pressurePercent < u.utilization then
    some (.warning .memoryPressure (routine ++ " uses " ++ Decimal.fixed 1 u.utilization ++
      "% of " ++ Vocabulary.word u.region))
  else none

/-- The issues with addressing modes that the variant lacks. -/
def modeIssues (r : Routine) (v : Variant) : List Issue :=
  r.instructions.zipIdx.filterMap fun (i, index) ↦ do
    let mode ← i.mode?
    if mode.availableOn v then none
    else some ((Issue.error .unsupportedAddressingMode (Vocabulary.word mode ++
      " addressing is not available on the " ++ Vocabulary.word v)).atInstruction index)

/-- The memory a routine needs, with the issues found. -/
def analyze (c : TimingContext) : Checked (MemoryLayout × List Issue) := do
  let r := c.routine
  let map := c.hardware.memory
  let t ← totals r
  let modes := modeIssues r c.variant
  let layout : MemoryLayout :=
    { enabled := true
      zeroPage := .of .zeroPage t.zeroPage map.zeroPage
      stack := .of .stack t.stack map.stack
      ram := .of .ram t.ram map.ram
      registerLocals := r.locals.countP (·.allocation == .register)
      unsupportedModes := modes.length }
  return (layout, layout.regions.filterMap (regionIssue? r.name) ++ modes)

end MemoryLayout

end FlowGauge
