import FlowGauge.Refusal
import FlowGauge.Target.Cycles

/-!
# Hardware profiles

A profile describes the hardware of one variant: the cycle count above which an instruction is a
hotspot, and the memory available. A registry holds at most one profile per variant; registering a
second one replaces the first.
-/

namespace FlowGauge

/-- What is known about the hardware of a variant. -/
structure Hardware where
  variant : Variant
  /-- The cycles above which a single instruction is a hotspot. -/
  hotspotThreshold : Nat
  memory : MemoryMap
deriving DecidableEq, Repr

/-- The profile of a variant's usual hardware. -/
def Hardware.ofVariant (v : Variant) : Hardware where
  variant := v
  hotspotThreshold := match v with
    | .mos6502 | .mos6510 => 40
    | .wdc65C02 => 36
  memory := v.memoryMap

/-- The registered profile of every variant. -/
structure Registry where
  profile? : Variant → Option Hardware

namespace Registry

/-- Nothing is registered. -/
def empty : Registry :=
  ⟨fun _ ↦ none⟩

/-- Register a profile for its variant. -/
def register (r : Registry) (h : Hardware) : Registry :=
  ⟨fun v ↦ if v = h.variant then some h else r.profile? v⟩

/-- The usual hardware of every variant is registered. -/
def standard : Registry :=
  ⟨fun v ↦ some (.ofVariant v)⟩

/-- The profile of a variant, or the refusal of a variant without one. -/
def find (r : Registry) (v : Variant) : Except Refusal Hardware :=
  match r.profile? v with
  | some h => .ok h
  | none => .error (.unsupportedVariant (Vocabulary.word v))

/-- The variants with a profile, in order. -/
def variants (r : Registry) : List Variant :=
  (Vocabulary.all : List Variant).filter fun v ↦ (r.profile? v).isSome

end Registry

end FlowGauge
