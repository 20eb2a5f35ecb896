import RangeAdvisor.Bins.Range
import RangeAdvisor.Bins.Price
import RangeAdvisor.Decimal.Fixed
import RangeAdvisor.Pool

/-!
# Paired deposits

A deposit spreads value over a range of bins: bins above the active bin take only X, bins below
only Y, and the active bin both, X taking the share of its value its reserves hold (a half when
either reserve is empty or unknown). A unit of value in bin `b` holds `share/price(b)` of X and
`1 - share` of Y; summing over the range gives the capacities, and the amount of X fixes the scale
of the amount of Y. A range holding no X cannot be paired and is reported as degenerate.

A cross check compares the result with a reference estimate: the reference is taken when it is
usable and within the tolerance of the spread figure, and a warning explains a divergence.
-/

namespace RangeAdvisor

/-- What a paired deposit is solved for. -/
structure DepositRequest where
  amountX : Float
  range : BinRange
  active : Int32
  step : UInt16
  dx : UInt8
  dy : UInt8
  reserves : Option Reserves
  maxBins : UInt32

/-- The amount of Y to pair, with the capacities it came from. -/
structure Deposit where
  amountY : Float
  capacityX : Float
  capacityY : Float
  degenerate : Bool

namespace DepositRequest

/-- The price of bin `b` for this request. -/
def priceAt (q : DepositRequest) (b : Int32) : Float := Bins.priceAt b q.step q.dx q.dy

/-- The share of the active bin's value held in X: from its reserves when both are positive. -/
def activeShareX (q : DepositRequest) : Float :=
  match q.reserves with
  | some r =>
    if decide (r.x > 0) && decide (r.y > 0) then
      let xValue := r.x * q.priceAt q.active
      xValue / (xValue + r.y)
    else 0.5
  | none => 0.5

/-- The share of bin `b`'s value held in X. -/
def shareX (q : DepositRequest) (share : Float) (b : Int32) : Float :=
  if q.active < b then 1.0 else if b < q.active then 0.0 else share

/-- X and Y held per unit of value, summed over the bins in ascending order. -/
def capacities (q : DepositRequest) (bins : List Int32) : Float × Float :=
  let share := q.activeShareX
  bins.foldl (fun acc b =>
    let s := q.shareX share b
    (acc.1 + s / q.priceAt b, acc.2 + (1.0 - s))) (0.0, 0.0)

end DepositRequest

/-- The bins of a range in ascending order, every bin from `lower` to `upper`: their count is
`upper - lower + 1` exactly, also where the span saturates. -/
def BinRange.bins (r : BinRange) : List Int32 :=
  (List.range (r.upper.toInt - r.lower.toInt + 1).toNat).map fun (i : Nat) =>
    Int32.ofInt (r.lower.toInt + (i : Int))

/-- Solves for the amount of Y. Refused, in this order: a zero bin step, an inverted or too wide
range, and an amount of X that is negative or not finite. -/
def DepositRequest.solve (q : DepositRequest) : Except AdvisorError Deposit := do
  Bins.checkStep q.step
  q.range.validate q.maxBins
  if !q.amountX.isFinite || decide (q.amountX < 0) then throw (.badAmountX q.amountX)
  let (cx, cy) := q.capacities q.range.bins
  if cx == 0 then pure ⟨0, cx, cy, true⟩
  else pure ⟨q.amountX / cx * cy, cx, cy, false⟩

/-- Which figure a quote settles on. -/
inductive AmountSource where
  | binSpread
  | reference
  deriving DecidableEq

/-- The amount of Y settled on after the cross check. -/
structure Quote where
  amountY : Float
  source : AmountSource
  binSpreadAmountY : Float
  referenceAmountY : Option Float
  divergence : Option Float
  warning : Option String

/-- Settles between the spread figure and a reference. A reference is usable when finite and not
negative. With a spread figure that is not positive the spread figure stays, with a warning if the
reference is positive. Otherwise the divergence `|reference - spread| / spread` decides: beyond the
tolerance the spread figure stays with a warning, within it the reference is taken. -/
def crossCheck (binSpread : Float) (reference : Option Float) (tolerance : Float) : Quote :=
  let usable := reference.filter fun r => r.isFinite && decide (r ≥ 0)
  let quote : Quote := ⟨binSpread, .binSpread, binSpread, usable, none, none⟩
  match usable with
  | none => quote
  | some r =>
    if binSpread ≤ 0 then
      if r > 0 then
        let note := "bin-spread amount is zero but reference suggests " ++ Decimal.fixed 6 r
        { quote with warning := some note }
      else quote
    else
      let divergence := (r - binSpread).abs / binSpread
      if divergence > tolerance then
        { quote with
          divergence := some divergence
          warning := some ("reference amount " ++ Decimal.fixed 6 r ++ " diverges " ++
            Decimal.fixed 1 (divergence * 100.0) ++ "% from bin-spread amount " ++
            Decimal.fixed 6 binSpread ++ "; using bin-spread") }
      else { quote with divergence := some divergence, amountY := r, source := .reference }

end RangeAdvisor
