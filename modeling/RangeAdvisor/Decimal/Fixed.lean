import RangeAdvisor.Binary64.Parts
import RangeAdvisor.Decimal.Basic

/-!
# Floats to a fixed number of places

The exact binary value is rounded to the stated number of decimal places, an exact half going to
the even neighbour. The sign is kept even when the rounded value is zero, so `-0.0` and `-0.01`
at one place both read `-0.0`. NaN reads `NaN` and the infinities `inf` and `-inf`.
-/

namespace RangeAdvisor.Decimal

/-- `|m·2^e|` in units of `10^-places`, rounded half to even. -/
def fixedUnits (m : Nat) (e : Int) (places : Nat) : Nat :=
  roundDiv (m * Nat.pow 2 e.toNat * Nat.pow 10 places) (Nat.pow 2 (-e).toNat) .even

/-- The digits of `units` with a point before the last `places` of them. -/
def pointed (units places : Nat) : String :=
  let ds := (Nat.toDigits 10 units)
  let ds := List.replicate (places + 1 - ds.length) '0' ++ ds
  if places = 0 then String.ofList ds
  else String.ofList (ds.take (ds.length - places)) ++ "." ++ String.ofList (ds.drop (ds.length - places))

/-- The text of `x` rounded to `places` decimal places. -/
def fixed (places : Nat) (x : Float) : String :=
  match Binary64.ofFloat x with
  | .nan => "NaN"
  | .inf neg => if neg then "-inf" else "inf"
  | .finite neg m e => (if neg then "-" else "") ++ pointed (fixedUnits m e places) places

end RangeAdvisor.Decimal
