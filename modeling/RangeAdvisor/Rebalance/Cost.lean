import RangeAdvisor.Decimal.Fixed
import RangeAdvisor.Binary64.Order

/-!
# Costs and benefits of a rebalance

A rebalance costs a fixed amount of SOL, valued in USD. It pays back when the projected daily fees
exceed the current ones: the break-even time is the cost over the daily gain, in hours, and
infinite without a gain. Hours are shown with one place and an `h`, or `N/A` when not finite.
-/

namespace RangeAdvisor

/-- Hours with one place and an `h`; `N/A` for a value that is not finite. -/
def formatHours (hours : Float) : String :=
  if hours.isFinite then Decimal.fixed 1 hours ++ "h" else "N/A"

/-- The USD cost of an action priced in SOL. -/
def rebalanceCostUsd (costSol solUsd : Float) : Float := costSol * solUsd

/-- Hours of extra fees that cover `cost`: `cost / gain · 24` for a positive daily gain, else `∞`. -/
def breakEvenHours (current projected cost : Float) : Float :=
  let net := projected - current
  if net > 0 then cost / net * 24.0 else 1.0 / 0.0

/-- The daily gain, the cost, and the break-even time with its label. -/
structure CostBenefit where
  netDailyGain : Float
  costUsd : Float
  breakEvenHours : Float
  label : String

namespace CostBenefit

/-- Evaluates a rebalance from current and projected daily fees and its cost. -/
def evaluate (current projected cost : Float) : CostBenefit :=
  let hours := RangeAdvisor.breakEvenHours current projected cost
  ⟨projected - current, cost, hours, formatHours hours⟩

/-- A rebalance pays back when the break-even time is finite. -/
def paysBack (c : CostBenefit) : Bool := c.breakEvenHours.isFinite

end CostBenefit

end RangeAdvisor
