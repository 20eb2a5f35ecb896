import RangeAdvisor.Decimal.Fixed
import RangeAdvisor.Position

/-!
# How urgent a rebalance is

A position whose range no longer holds the active bin earns nothing and is critical. One whose
recorded bins hold liquidity in fewer than 40% of its span is high. Otherwise the distance of the
active bin from the middle of the range decides: beyond 10 bins medium, beyond 5 low, else none.
A rebalance is advised from high up.
-/

namespace RangeAdvisor

/-- Urgency of a rebalance, from least to most. -/
inductive Priority where
  | none
  | low
  | medium
  | high
  | critical
  deriving DecidableEq

namespace Priority

/-- The rank of a priority, from 0 for none to 4 for critical. -/
def rank : Priority → Nat
  | .none => 0
  | .low => 1
  | .medium => 2
  | .high => 3
  | .critical => 4

/-- A rebalance is advised at high and critical. -/
def shouldRebalance (p : Priority) : Bool := decide (3 ≤ p.rank)

/-- The name of the priority. -/
def name : Priority → String
  | .none => "None"
  | .low => "Low"
  | .medium => "Medium"
  | .high => "High"
  | .critical => "Critical"

/-- The reason code of the priority. -/
def reasonCode : Priority → String
  | .critical => "out_of_range"
  | .high => "low_coverage"
  | .medium => "center_drift"
  | .low => "minor_drift"
  | .none => "none"

end Priority

/-- The share of the span whose recorded bins hold liquidity; none without recorded bins or with
an empty span. A bin recorded twice counts twice. -/
def Position.fundedShare (p : Position) : Option Float :=
  if p.bins.isEmpty || p.range.span == 0 then none
  else
    let funded := (p.bins.filter fun b =>
      p.range.contains b.binId && (decide (b.x > 0) || decide (b.y > 0))).length
    some (Float.ofNat funded / Float.ofNat p.range.span.toNat)

/-- The distance of the active bin from the middle of the range. -/
def Position.distanceFromCenter (p : Position) : Float :=
  (Float.ofInt p.active.toInt - p.range.center).abs

/-- The urgency of a rebalance and the reason in words. -/
def Position.classify (p : Position) : Priority × String :=
  let r := p.range
  if !r.contains p.active then
    let side := if p.active < r.lower then "below" else "above"
    (.critical, s!"active bin {p.active.toInt} is {side} range [{r.lower.toInt}, " ++
      s!"{r.upper.toInt}], position earns no fees")
  else
    match p.fundedShare.filter (· < 0.4) with
    | some share =>
      (.high, s!"only {Decimal.fixed 0 (share * 100.0)}% of the {r.span} bins still hold liquidity")
    | none =>
      let d := p.distanceFromCenter
      if d > 10.0 then (.medium, s!"active bin drifted {Decimal.fixed 1 d} bins from center")
      else if d > 5.0 then (.low, s!"active bin {Decimal.fixed 1 d} bins from center")
      else (.none, "position is centered around the active bin")

end RangeAdvisor
