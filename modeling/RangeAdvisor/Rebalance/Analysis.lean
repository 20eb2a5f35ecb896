import RangeAdvisor.Rebalance.Priority
import RangeAdvisor.Rebalance.Cost

/-!
# Analysing a position

Fees per day are the position's USD value times the APR in percent, over 100 and 365, times the
share of time it spends in range; an APR that is not finite and positive gives none. The time in
range is the one given, clamped to `[0, 1]`, or 95% in range and 65% out of it. Projected fees
apply the uplift, and the analysis carries the urgency, the cost and the break-even time.
-/

namespace RangeAdvisor

/-- Prices and telemetry for valuing a position. -/
structure FeeInputs where
  xUsd : Float
  yUsd : Float
  timeInRange : Option Float
  feeUplift : Float
  rebalanceCostUsd : Float

/-- The result of analysing a position. -/
structure Analysis where
  priority : Priority
  reason : String
  inRange : Bool
  distanceFromCenter : Float
  currentDailyFees : Float
  projectedDailyFees : Float
  rebalanceCost : Float
  breakEvenHours : Float

/-- Fees per day of a position worth `value` at an APR in percent for a share of time in range. -/
def dailyFees (value : Float) (apr : Option Float) (timeInRange : Float) : Float :=
  match apr.filter fun a => a.isFinite && decide (a > 0) with
  | some a => value * a / 100.0 / 365.0 * timeInRange
  | none => 0.0

/-- The share of time a position is taken to spend in range: the one measured, clamped to `[0, 1]`,
when it is finite, else 95% while the range holds the active bin and 65% otherwise. -/
def Position.expectedTimeInRange (p : Position) (measured : Option Float) : Float :=
  match measured.filter (·.isFinite) with
  | some t => Binary64.clamp t 0.0 1.0
  | none => if p.inRange then 0.95 else 0.65

/-- Analyses a position in a pool. -/
def Position.analyze (p : Position) (apr : Option Float) (inputs : FeeInputs) : Analysis :=
  let (priority, reason) := p.classify
  let inRange := p.inRange
  let t := p.expectedTimeInRange inputs.timeInRange
  let current := dailyFees (p.valueUsd inputs.xUsd inputs.yUsd) apr t
  let projected := current * inputs.feeUplift
  ⟨priority, reason, inRange, p.distanceFromCenter, current, projected, inputs.rebalanceCostUsd,
    breakEvenHours current projected inputs.rebalanceCostUsd⟩

/-- The cost-benefit view of an analysis. -/
def CostBenefit.ofAnalysis (a : Analysis) : CostBenefit :=
  CostBenefit.evaluate a.currentDailyFees a.projectedDailyFees a.rebalanceCost

/-- What a rebalance records: the ranges before and after, the fees claimed, the cost, and the
reason code. -/
structure RebalanceRecord where
  oldRange : BinRange
  newRange : BinRange
  feesClaimedUsd : Float
  costUsd : Float
  reasonCode : String

end RangeAdvisor
