import RangeAdvisor.Report.Bins
import RangeAdvisor.Report.Market
import RangeAdvisor.Strategy.Recommend

/-!
# Answers about recommendations

The JSON form of strategies, widths, coverage spans and recommendations, and of an overflow that
aborts one.
-/

namespace RangeAdvisor.Report

/-- A range width, tagged with its kind. -/
def width : RangeWidth → Json
  | .symmetric perSide => .obj [("kind", .str "Symmetric"), ("bins_per_side", int32 perSide)]
  | .split bid ask => .obj [("kind", .str "Split"), ("bid_bins", int32 bid), ("ask_bins", int32 ask)]

/-- The figures a recommendation used. -/
def metrics (m : Metrics) : Json :=
  .obj [("volatility_score", float m.volatility), ("price_deviation", float m.deviation),
    ("volume_bias", bias m.bias), ("atr_percent", opt float m.atr),
    ("center_shift", int32 m.shift), ("bid_target", opt float m.bidTarget),
    ("ask_target", opt float m.askTarget), ("bid_coverage", opt float m.bidCoverage),
    ("ask_coverage", opt float m.askCoverage)]

/-- A recommendation, with its span and its prices in the pool. -/
def recommendation (pool : Pool) (r : Recommendation) : Json :=
  .obj [("strategy", .str r.strategy.name), ("min_bin_id", int32 r.lower),
    ("max_bin_id", int32 r.upper), ("center_bin", int32 r.center),
    ("span", nat r.range.span.toNat), ("width", width r.width),
    ("rationale", .arr (r.rationale.map Json.str)), ("metrics", metrics r.metrics),
    ("price_range", priceRange (r.priceRange pool))]

/-- The width of one side. -/
def coverageSpan (c : CoverageSpan) : Json :=
  .obj [("bins", int32 c.bins), ("coverage", opt float c.coverage)]

/-- An overflow that aborted the computation, with its sentence. -/
def overflow (o : Overflow) : Json := .obj [("error", .str "Panic"), ("message", .str o.message)]

end RangeAdvisor.Report
