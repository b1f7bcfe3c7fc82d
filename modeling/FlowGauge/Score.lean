import FlowGauge.Word

/-!
# Scores

Scores are doubles between 0 and 100. The functions here fix what happens at the edges: a value that
is not a number scores zero, the smaller or greater of two values ignores one that is not a number,
and the total order places negative zero below zero. The values that are not numbers share one bit
pattern here, and the total order places it above all numbers; an order that tells such values apart
by their sign and their other bits places some of them below all numbers.
-/

namespace FlowGauge.Score

/-- The smaller of two doubles; one that is not a number is ignored. -/
def lesser (x y : Float) : Float :=
  if x.isNaN then y else if y.isNaN then x else if y < x then y else x

/-- The greater of two doubles; one that is not a number is ignored. -/
def greater (x y : Float) : Float :=
  if x.isNaN then y else if y.isNaN then x else if x < y then y else x

/-- The double moved between two bounds; what is not a number stays as it is. -/
def between (lo hi x : Float) : Float :=
  let x := if x < lo then lo else x
  if hi < x then hi else x

/-- The double moved between 0 and 100; what is not a number scores zero. -/
def clamp (x : Float) : Float :=
  if x.isNaN then 0.0 else between 0.0 100.0 x

/-- A count as a double. -/
def ofCount (n : Nat) : Float :=
  Float.ofNat n

/-- A share in percent; `part` is scaled before the division. -/
def percent (part whole : Nat) : Float :=
  ofCount part * 100.0 / ofCount whole

/-- A share of a whole, zero when there is no whole. -/
def ratio (part whole : Nat) : Float :=
  if whole = 0 then 0.0 else ofCount part / ofCount whole

/-- The sum of a list, from left to right. -/
def sum (xs : List Float) : Float :=
  xs.foldl (· + ·) (-0.0)

/-- The mean of a list. -/
def mean (xs : List Float) : Float :=
  sum xs / ofCount xs.length

/-- A whole number for a double: by sign, exponent and fraction. All values that are not numbers
have the same, above that of the positive infinity. -/
def rank (x : Float) : Int :=
  let bits := x.toBits.toNat
  if bits < Word.bound 63 then bits else -((bits - Word.bound 63 : Nat) : Int) - 1

/-- A total order of doubles, by rank. -/
def totalOrder (x y : Float) : Ordering :=
  compareOn rank x y

instance : Std.TransCmp totalOrder :=
  inferInstanceAs (Std.TransCmp (compareOn rank))

end FlowGauge.Score
