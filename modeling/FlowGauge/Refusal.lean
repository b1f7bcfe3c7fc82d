/-!
# Refusals

A refusal ends a request without a result. It is either a problem of the configuration or a missing
input; problems of the analysed code itself are issues inside a result. Each cause has one wording.
-/

namespace FlowGauge

/-- What is wrong with a set of options. -/
inductive ConfigurationFlaw where
  /-- Loops are asked for without dominance. -/
  | loopsWithoutDominance
  /-- The time budget is zero. -/
  | noAnalysisTime
  /-- The cycle budget of interrupt handlers is zero. -/
  | noInterruptBudget
  /-- The cycle budget of a frame is zero. -/
  | noFrameBudget
  /-- A complexity weight is negative or not a number, or all weights are zero. -/
  | complexityWeights
  /-- A complexity threshold is not positive. -/
  | complexityThresholds
  /-- A gate threshold is not finite. -/
  | gateThresholds
deriving DecidableEq, Repr

/-- The wording of a flaw. -/
def ConfigurationFlaw.message : ConfigurationFlaw → String
  | loopsWithoutDominance => "loop detection requires the dominance analysis"
  | noAnalysisTime => "max_analysis_time must be positive"
  | noInterruptBudget => "interrupt_budget_cycles must be positive"
  | noFrameBudget => "frame_budget_cycles must be positive"
  | complexityWeights => "complexity weights must be non-negative and not all zero"
  | complexityThresholds => "complexity thresholds must be positive"
  | gateThresholds => "gate thresholds must be finite"

/-- Why a request is refused. -/
inductive Refusal where
  /-- No processor variant of that name is known or registered. -/
  | unsupportedVariant (name : String)
  /-- No platform of that name is known. -/
  | unsupportedPlatform (name : String)
  /-- The platform does not come with the variant. -/
  | variantPlatformMismatch (platform variant : String)
  /-- The options contradict each other. -/
  | invalidConfiguration (flaw : ConfigurationFlaw)
  /-- The program of that name has no routine. -/
  | missingInput (program : String)
deriving DecidableEq, Repr

namespace Refusal

/-- The wording of a refusal. -/
def message : Refusal → String
  | unsupportedVariant name => "Unsupported processor variant - " ++ name
  | unsupportedPlatform name => "Unsupported target platform - " ++ name
  | variantPlatformMismatch platform variant =>
    "Processor variant " ++ variant ++ " is not available on platform " ++ platform
  | invalidConfiguration flaw => "Invalid configuration - " ++ flaw.message
  | missingInput program => "Missing input - program '" ++ program ++ "' contains no function"

/-- Whether the configuration is to blame. -/
def isConfiguration : Refusal → Bool
  | missingInput _ => false
  | _ => true

end Refusal

end FlowGauge
