import FlowGauge.Word

/-!
# Decimal text with a fixed number of places

A finite double is `± m · 2 ^ q` with whole `m` and `q`. Its text with `p` places is that exact
value rounded to the nearest multiple of `10 ^ -p`, a half going to the even neighbour. Large values
are written in full. The sign is kept for values that round to zero and for negative zero.
-/

namespace FlowGauge.Decimal

/-- The quotient rounded to the nearest whole number, a half going to the even neighbour. -/
def roundDiv (num den : Nat) : Nat :=
  let q := num / den
  let twice := 2 * (num % den)
  if twice < den then q
  else if den < twice then q + 1
  else if q % 2 = 0 then q else q + 1

/-- The whole number `n`, read as a multiple of `10 ^ -places`. -/
def place (places n : Nat) : String :=
  let fraction := toString (n % Nat.pow 10 places)
  toString (n / Nat.pow 10 places) ++ "." ++
    String.ofList (List.replicate (places - fraction.length) '0') ++ fraction

/-- The magnitude `m · 2 ^ (e - 1075)` in units of `10 ^ -places`, rounded. -/
def scaled (places m e : Nat) : Nat :=
  if 1075 ≤ e then (m <<< (e - 1075)) * Nat.pow 10 places
  else roundDiv (m * Nat.pow 10 places) (1 <<< (1075 - e))

/-- The text of a double with the given number of places, at least one. -/
def fixed (places : Nat) (x : Float) : String :=
  let bits := x.toBits.toNat
  let negative := Word.bound 63 ≤ bits
  let exponent := (bits >>> 52) % Word.bound 11
  let fraction := bits % Word.bound 52
  let sign := if negative then "-" else ""
  if exponent = 2047 then
    if fraction = 0 then sign ++ "inf" else "NaN"
  else if exponent = 0 then
    sign ++ place places (scaled places fraction 1)
  else
    sign ++ place places (scaled places (Word.bound 52 + fraction) exponent)

end FlowGauge.Decimal
