import RangeAdvisor.Text.Blank
import RangeAdvisor.Text.Numeral
import RangeAdvisor.Bins.Range

/-!
# Settings

The advisor's tunables, each read from a named text variable. A value is trimmed of blanks and
read as a count or a float; a missing or unreadable value keeps the default.
-/

namespace RangeAdvisor

/-- The advisor's tunables. -/
structure Settings where
  /-- Bins sampled on each side of the active bin. -/
  sampleRadius : UInt32
  /-- Hours of price history asked of the oracle. -/
  seriesLookbackHours : UInt32
  /-- The most bins a position may span. -/
  maxBins : UInt32
  /-- Deviation from the oracle above which the pool is unhealthy. -/
  healthDeviationLimit : Float
  /-- Factor from current to projected daily fees. -/
  feeUplift : Float
  /-- Cost of a rebalance in SOL. -/
  rebalanceCostSol : Float
  /-- SOL price in USD when the oracle has none. -/
  fallbackSolUsd : Float
  /-- Divergence tolerated between the spread amount and a reference. -/
  crossCheckTolerance : Float

namespace Settings

/-- The defaults. -/
def defaults : Settings := ⟨24, 6, BinRange.defaultLimit, 0.5, 1.10, 0.002, 150.0, 0.5⟩

/-- A count read from a variable, or the default. -/
def count (lookup : String → Option String) (name : String) (d : UInt32) : UInt32 :=
  ((lookup name) >>= fun v => Text.readCount (Text.trim v)).getD d

/-- A float read from a variable, or the default. -/
def float (lookup : String → Option String) (name : String) (d : Float) : Float :=
  ((lookup name) >>= fun v => Text.readFloat (Text.trim v)).getD d

/-- Settings from variables looked up by name. -/
def ofLookup (lookup : String → Option String) : Settings :=
  ⟨count lookup "SAMPLE_RADIUS" defaults.sampleRadius,
    count lookup "SERIES_LOOKBACK_HOURS" defaults.seriesLookbackHours,
    count lookup "MAX_BINS_PER_POSITION" defaults.maxBins,
    float lookup "HEALTH_DEVIATION_LIMIT" defaults.healthDeviationLimit,
    float lookup "FEE_UPLIFT" defaults.feeUplift,
    float lookup "REBALANCE_COST_SOL" defaults.rebalanceCostSol,
    float lookup "FALLBACK_SOL_USD" defaults.fallbackSolUsd,
    float lookup "CROSS_CHECK_TOLERANCE" defaults.crossCheckTolerance⟩

end Settings

end RangeAdvisor
