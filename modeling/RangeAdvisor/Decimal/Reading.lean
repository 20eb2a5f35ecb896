import RangeAdvisor.Decimal.Basic

/-!
# Decimal numbers to floats

Two readings of `sig·10^exp`. `nearest` gives the float nearest to the exact value, ties to even.
`scaled` first rounds `sig` to a float and then multiplies or divides by the float nearest to the
power of ten, in steps of `10^308` while the exponent is beyond the table; it is the fast reading
of JSON numbers, and it may differ from `nearest` in the last place. It reports an overflow to
infinity instead of returning it.
-/

namespace RangeAdvisor.Decimal

/-- The float nearest to `±digits·10^exp`; far beyond the range the result is `±∞` or `±0`. -/
def nearest (neg : Bool) (digits : Nat) (exp : Int) : Float :=
  let lead := exp + digitCount digits
  let x : Float :=
    if digits = 0 then 0
    else if 310 < lead then 1 / 0
    else if lead < -330 then 0
    else Float.ofScientific digits (decide (exp < 0)) exp.natAbs
  if neg then -x else x

/-- The floats nearest to `10^0, …, 10^308`. -/
def powersOfTen : Array Float := ((List.range 309).map fun k => Float.ofScientific 1 false k).toArray

/-- The float nearest to `10^k` for `k ≤ 308`. -/
def powerOfTen (k : Nat) : Float := powersOfTen[k]?.getD 0

/-- Scales `f` by `10^exp`: one multiplication or division when `|exp| ≤ 308`, else divisions by
`10^308` until it is; `none` when the value overflows. -/
def scale (f : Float) (exp : Int) : Option Float :=
  if exp.natAbs ≤ 308 then
    if 0 ≤ exp then
      let g := f * powerOfTen exp.toNat
      if g.isInf then none else some g
    else some (f / powerOfTen exp.natAbs)
  else if f == 0 then some f
  else if 0 ≤ exp then none
  else scale (f / powerOfTen 308) (exp + 308)
termination_by exp.natAbs
decreasing_by omega

/-- `sig·10^exp` read by rounding `sig` to a float first and then scaling it. -/
def scaled (sig : Nat) (exp : Int) : Option Float := scale (Float.ofNat sig) exp

end RangeAdvisor.Decimal
