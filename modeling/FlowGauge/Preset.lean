import FlowGauge.Vocabulary

/-!
# Presets

Options of every kind come in three ready-made sets.
-/

namespace FlowGauge

/-- A ready-made set of options. -/
inductive Preset where
  | standard
  | minimal
  | comprehensive
deriving DecidableEq, Repr

instance : Vocabulary Preset where
  all := [.standard, .minimal, .comprehensive]
  word
    | .standard => "default"
    | .minimal => "minimal"
    | .comprehensive => "comprehensive"

end FlowGauge
