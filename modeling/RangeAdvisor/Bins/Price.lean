import RangeAdvisor.Saturating
import RangeAdvisor.Error

/-!
# The bin price model

Bin `b` of a pool with a step of `s` basis points has the price `(1 + s/10⁴)^b · 10^(dx - dy)`
in units of Y per X, `dx` and `dy` being the decimals of the two tokens. Powers are taken by
binary powering (`powInt`), one rounding per product, so the model is a fixed sequence of float
operations. The inverse rounds the log ratio to the nearest bin.
-/

namespace RangeAdvisor

/-- `r · a^k` by binary powering: for each bit of `k` from the lowest, multiply `r` by the current
power when the bit is set, then square the power while bits remain. -/
def powNat (a r : Float) (k : Nat) : Float :=
  let r := if k % 2 = 1 then r * a else r
  if h : k / 2 = 0 then r else powNat (a * a) r (k / 2)
termination_by k
decreasing_by omega

/-- `a^n` by binary powering of `|n|`, and its reciprocal for negative `n`. -/
def powInt (a : Float) (n : Int32) : Float :=
  let r := powNat a 1 n.toInt.natAbs
  if n < 0 then 1 / r else r

namespace Bins

/-- The growth factor from one bin to the next, `1 + step/10⁴`. -/
def stepRatio (step : UInt16) : Float := 1.0 + Float.ofNat step.toNat / 10000.0

/-- `10^(dx - dy)`, the factor between raw and display units. -/
def decimalsFactor (dx dy : UInt8) : Float :=
  powInt 10.0 (Int32.ofInt ((dx.toNat : Int) - (dy.toNat : Int)))

/-- The price of bin `b`. -/
def priceAt (b : Int32) (step : UInt16) (dx dy : UInt8) : Float :=
  powInt (stepRatio step) b * decimalsFactor dx dy

/-- The log ratio of a price to the growth factor, the logarithm being `ln`: the bin a price falls
in before rounding. -/
def logRatio (ln : Float → Float) (price : Float) (step : UInt16) (dx dy : UInt8) : Float :=
  ln (price / decimalsFactor dx dy) / ln (stepRatio step)

/-- The bin nearest to a price, the logarithm being `ln`: the log ratio rounded half away from
zero; none for a price that is not finite and positive, for a zero step, or when the bin falls
outside the 32-bit range. A NaN ratio, which no finite positive price gives, would read as bin
zero. -/
def binForWith (ln : Float → Float) (price : Float) (step : UInt16) (dx dy : UInt8) : Option Int32 :=
  if !(price.isFinite && decide (price > 0)) || step == 0 then none
  else
    match Binary64.ofFloat (logRatio ln price step dx dy) with
    | .nan => some 0
    | .inf _ => none
    | .finite neg m e =>
      let k := Binary64.roundOf neg m e
      if Saturating.lo ≤ k ∧ k ≤ Saturating.hi then some (Int32.ofInt k) else none

/-- The bin nearest to a price, under the float logarithm. -/
def binFor? (price : Float) (step : UInt16) (dx dy : UInt8) : Option Int32 :=
  binForWith Float.log price step dx dy

/-- A step of zero basis points is refused. -/
def checkStep (step : UInt16) : Except AdvisorError Unit :=
  if step == 0 then .error .zeroBinStep else .ok ()

end Bins

/-- Prices at the two edges and at the middle bin of a range. -/
structure PriceRange where
  min : Float
  center : Float
  max : Float

/-- Prices at `lower`, `upper` and the middle bin `lower + (upper - lower)/2`, taken in 32-bit
arithmetic with the quotient truncated toward zero. -/
def PriceRange.ofBins (lower upper : Int32) (step : UInt16) (dx dy : UInt8) : PriceRange :=
  let middle := lower + (upper - lower) / 2
  ⟨Bins.priceAt lower step dx dy, Bins.priceAt middle step dx dy, Bins.priceAt upper step dx dy⟩

end RangeAdvisor
