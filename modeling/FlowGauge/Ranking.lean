import FlowGauge.Quality

/-!
# Ranking of transformation patterns

A pattern applies to a routine when the variant has every feature it requires and the readiness for
its category is not below its minimum. Applicable patterns are listed by descending applicability,
then by descending benefit, then by name. Scores are doubles, which only a total order of all their
bit patterns sorts out; which total order that is does not matter to a ranking, so it is a parameter
(`Score.totalOrder` is one).
-/

namespace FlowGauge

/-- A pattern of a catalogue. -/
structure Pattern where
  id : String
  category : OptimizationCategory
  /-- The readiness for the category below which the pattern is left out. -/
  minReadiness : Float
  /-- The features the variant must have. -/
  required : List Feature
  /-- The benefit at full applicability. -/
  baseBenefit : Float

/-- A pattern that applies to a routine. -/
structure Candidate where
  id : String
  category : OptimizationCategory
  /-- From 0 to 100. -/
  applicability : Float
  /-- The readiness for the category. -/
  readiness : Float
  benefit : Float

/-- What the applicability of every pattern depends on. -/
structure RankingContext where
  readiness : Readiness
  features : List Feature
  /-- The factor by which doubtful results lower the applicability. -/
  scale : Float

namespace RankingContext

/-- The context of a report with the results it was made from. -/
def of (report : QualityReport) (a : Analysis) (t : Timing) : RankingContext where
  readiness := report.readiness
  features := t.variant.features
  scale :=
    let s := if a.isComplete then 1.0 else 1.0 * 0.8
    if t.isValid then s else s * 0.5

/-- The readiness for the category of a pattern, zero when there is none. -/
def readinessFor (c : RankingContext) (p : Pattern) : Float :=
  (c.readiness.category? p.category).elim 0.0 CategoryReadiness.score

/-- Whether a pattern applies. -/
def admits (c : RankingContext) (p : Pattern) : Bool :=
  p.required.all c.features.contains && !decide (c.readinessFor p < p.minReadiness)

/-- The applicability of a pattern: half from the readiness, three tenths from the safety, the rest
from the features it makes use of. -/
def applicability (c : RankingContext) (p : Pattern) : Float :=
  let featureScore := if p.required.isEmpty then 50.0 else 100.0
  Score.between 0.0 100.0
    ((0.5 * c.readinessFor p + 0.3 * c.readiness.safety.overall + 0.2 * featureScore) * c.scale)

/-- The candidate of a pattern. -/
def candidate (c : RankingContext) (p : Pattern) : Candidate where
  id := p.id
  category := p.category
  applicability := c.applicability p
  readiness := c.readinessFor p
  benefit := p.baseBenefit * c.applicability p / 100.0

end RankingContext

namespace Candidate

/-- The order of the list: descending applicability, descending benefit, name. -/
def order (scores : Float → Float → Ordering) (a b : Candidate) : Ordering :=
  (scores b.applicability a.applicability)
    |>.then (scores b.benefit a.benefit)
    |>.then (compare a.id b.id)

/-- The patterns of a catalogue that apply, the best first by an order of scores. -/
def rank (scores : Float → Float → Ordering) (report : QualityReport) (a : Analysis) (t : Timing)
    (catalogue : List Pattern) : List Candidate :=
  let c := RankingContext.of report a t
  ((catalogue.filter c.admits).map c.candidate).mergeSort fun a b ↦ (order scores a b).isLE

/-- The JSON form of a candidate. -/
def json (c : Candidate) : Json :=
  .obj [("pattern_id", .str c.id), ("category", JsonForm.encode c.category),
    ("applicability", .float c.applicability), ("readiness", .float c.readiness),
    ("estimated_benefit", .float c.benefit)]

end Candidate

end FlowGauge
