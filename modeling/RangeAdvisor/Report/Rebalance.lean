import RangeAdvisor.Report.Basic
import RangeAdvisor.Rebalance.Analysis

/-!
# Answers about rebalancing

The JSON form of urgencies, analyses, cost-benefit views and rebalance records.
-/

namespace RangeAdvisor.Report

/-- A bin range by its edges. -/
def binRange (r : BinRange) : Json := .obj [("min_bin_id", int32 r.lower), ("max_bin_id", int32 r.upper)]

/-- An urgency with its reason. -/
def classification (c : Priority × String) : Json :=
  .obj [("priority", .str c.1.name), ("reason", .str c.2),
    ("should_rebalance", .bool c.1.shouldRebalance), ("reason_code", .str c.1.reasonCode)]

/-- An analysis. -/
def analysis (a : Analysis) : Json :=
  .obj [("priority", .str a.priority.name), ("should_rebalance", .bool a.priority.shouldRebalance),
    ("reason_code", .str a.priority.reasonCode), ("reason", .str a.reason),
    ("current_in_range", .bool a.inRange), ("distance_from_center", float a.distanceFromCenter),
    ("current_daily_fees", float a.currentDailyFees),
    ("projected_daily_fees", float a.projectedDailyFees), ("rebalance_cost", float a.rebalanceCost),
    ("break_even_hours", float a.breakEvenHours)]

/-- A cost-benefit view. -/
def costBenefit (c : CostBenefit) : Json :=
  .obj [("net_daily_gain", float c.netDailyGain), ("rebalance_cost_usd", float c.costUsd),
    ("break_even_hours", float c.breakEvenHours), ("break_even_label", .str c.label),
    ("pays_back", .bool c.paysBack)]

/-- A rebalance record. -/
def record (r : RebalanceRecord) : Json :=
  .obj [("old_range", binRange r.oldRange), ("new_range", binRange r.newRange),
    ("fees_claimed_usd", float r.feesClaimedUsd), ("cost_usd", float r.costUsd),
    ("reason_code", .str r.reasonCode)]

end RangeAdvisor.Report
