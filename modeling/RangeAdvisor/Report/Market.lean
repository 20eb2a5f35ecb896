import RangeAdvisor.Report.Basic
import RangeAdvisor.Market.Context
import RangeAdvisor.Market.Health

/-!
# Answers about the market

The JSON form of volatility estimates, market contexts and price health.
-/

namespace RangeAdvisor.Report

/-- The name of a bias. -/
def bias : Bias → Json
  | .bearish => .str "Bearish"
  | .neutral => .str "Neutral"
  | .bullish => .str "Bullish"

/-- The name of a volatility source. -/
def volatilitySource : VolatilitySource → Json
  | .priceSeries => .str "PriceSeries"
  | .binSpread => .str "BinSpread"
  | .turnover => .str "Turnover"
  | .fallback => .str "Default"

/-- A volatility estimate. -/
def volatility (v : Volatility) : Json :=
  .obj [("score", float v.score), ("atr_percent", opt float v.atr),
    ("recent_high", opt float v.recentHigh), ("recent_low", opt float v.recentLow),
    ("source", volatilitySource v.source)]

/-- A volume node. -/
def volumeNode (n : VolumeNode) : Json := .obj [("price", float n.price), ("weight", float n.weight)]

/-- A coverage node. -/
def coverageNode (n : CoverageNode) : Json :=
  .obj [("bin_id", int32 n.binId), ("price", float n.price), ("weight", float n.weight)]

/-- A market context. -/
def context (c : MarketContext) : Json :=
  .obj [("volume_nodes", .arr (c.volumeNodes.map volumeNode)),
    ("volatility_score", opt float c.volatility), ("atr_percent", opt float c.atr),
    ("recent_high_price", opt float c.recentHigh), ("recent_low_price", opt float c.recentLow),
    ("bid_coverage_nodes", .arr (c.bidNodes.map coverageNode)),
    ("ask_coverage_nodes", .arr (c.askNodes.map coverageNode)),
    ("volume_bias", opt bias c.bias), ("volatility_source", opt volatilitySource c.source),
    ("is_empty", .bool c.isEmpty)]

/-- A price health check. -/
def health (h : Health) : Json :=
  .obj [("is_healthy", .bool h.healthy), ("pool_price", float h.poolPrice),
    ("oracle_price", opt float h.oraclePrice), ("deviation", float h.deviation),
    ("oracle_bin_id", opt int32 h.oracleBin)]

end RangeAdvisor.Report
