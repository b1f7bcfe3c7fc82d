import FlowGauge.Preset
import FlowGauge.Target.Registry

/-!
# Timing options

The target of a timing run, which of its sections are computed, and the cycle budgets. A target is
consistent when its platform comes with its variant.
-/

namespace FlowGauge

/-- What a timing run computes, and for which target. -/
structure TimingOptions where
  platform : Platform := .c64
  variant : Variant := .mos6510
  cycleTiming : Bool := true
  memoryLayout : Bool := true
  registers : Bool := true
  hotspots : Bool := true
  constraints : Bool := true
  recommendations : Bool := true
  /-- The cycles an interrupt handler may take. -/
  interruptBudget : Nat := 1000
  /-- The cycles any routine may take. -/
  frameBudget : Option Nat := none
deriving DecidableEq, Repr

namespace TimingOptions

/-- Cycle timing only. -/
def minimal : TimingOptions where
  memoryLayout := false
  registers := false
  hotspots := false
  constraints := false
  recommendations := false

/-- Every section, with the budget of one picture frame. -/
def comprehensive : TimingOptions where
  frameBudget := some 19656

/-- The options of a preset. -/
def ofPreset : Preset → TimingOptions
  | .standard => {}
  | .minimal => minimal
  | .comprehensive => comprehensive

/-- Refuses a variant that the platform does not come with, and empty budgets. -/
def validate (o : TimingOptions) : Except Refusal Unit :=
  if !o.platform.supports o.variant then
    .error (.variantPlatformMismatch (Vocabulary.word o.platform) (Vocabulary.word o.variant))
  else if o.interruptBudget = 0 then .error (.invalidConfiguration .noInterruptBudget)
  else if o.frameBudget = some 0 then .error (.invalidConfiguration .noFrameBudget)
  else .ok ()

/-- The default options for a target given by name, in either case. -/
def forTarget (platform variant : String) : Except Refusal TimingOptions := do
  let some p := Vocabulary.ofWordIgnoringCase? platform
    | throw (.unsupportedPlatform platform)
  let some v := Vocabulary.ofWordIgnoringCase? variant
    | throw (.unsupportedVariant variant)
  let options : TimingOptions := { platform := p, variant := v }
  options.validate
  return options

end TimingOptions

end FlowGauge
