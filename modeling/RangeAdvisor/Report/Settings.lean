import RangeAdvisor.Report.Basic
import RangeAdvisor.Settings

/-!
# Answers about settings

The JSON form of the advisor's settings.
-/

namespace RangeAdvisor.Report

/-- The settings by their names. -/
def settings (s : Settings) : Json :=
  .obj [("sample_radius", nat s.sampleRadius.toNat),
    ("series_lookback_hours", nat s.seriesLookbackHours.toNat),
    ("max_bins_per_position", nat s.maxBins.toNat),
    ("health_deviation_limit", float s.healthDeviationLimit), ("fee_uplift", float s.feeUplift),
    ("rebalance_cost_sol", float s.rebalanceCostSol), ("fallback_sol_usd", float s.fallbackSolUsd),
    ("cross_check_tolerance", float s.crossCheckTolerance)]

end RangeAdvisor.Report
