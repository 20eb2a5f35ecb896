import RangeAdvisor.Binary64.Order
import RangeAdvisor.Pool

/-!
# Volatility

Four sources estimate how much the price moves, tried in a fixed order until one answers: a
series of price ratios (the spread of the series over its low, and the mean absolute step over the
last price as the average true range), the spread of prices across bins holding liquidity, the day's
volume over the value locked, and a default. Scores are clamped to `[0.02, 0.5]`, the turnover
score to `[0.025, 0.3]`.
-/

namespace RangeAdvisor

/-- Where a volatility estimate came from. -/
inductive VolatilitySource where
  | priceSeries
  | binSpread
  | turnover
  | fallback
  deriving DecidableEq

/-- A volatility score with what backs it. -/
structure Volatility where
  score : Float
  atr : Option Float
  recentHigh : Option Float
  recentLow : Option Float
  source : VolatilitySource

/-- What the sources draw on. -/
structure VolatilityInputs where
  series : Option (List Float)
  bins : List BinSample
  volume24h : Option Float
  tvl : Option Float

namespace Volatility

/-- Bounds of a score from a series or from bins. -/
def minScore : Float := 0.02
/-- Upper bound of a score from a series or from bins. -/
def maxScore : Float := 0.5
/-- The score when no source answers. -/
def defaultScore : Float := 0.06

/-- The least and greatest of a list, `none` when empty. -/
def range? (xs : List Float) : Option (Float × Float) :=
  xs.foldl (fun acc v => match acc with
    | none => some (v, v)
    | some (lo, hi) => some (Binary64.lesser lo v, Binary64.greater hi v)) none

/-- From a series of at least two finite positive prices. -/
def ofSeries (series : List Float) : Option Volatility :=
  if series.length < 2 || series.any (fun p => !(p.isFinite && decide (p > 0))) then none
  else do
    let last ← series.getLast?
    let steps := (series.zip series.tail).map fun (a, b) => (b - a).abs
    let meanStep := Binary64.total steps / Float.ofNat (series.length - 1)
    let (low, high) ← range? series
    pure ⟨Binary64.clamp ((high - low) / low) minScore maxScore, some (meanStep / last),
      some high, some low, .priceSeries⟩

/-- From the prices of at least two bins that hold liquidity at a finite positive price. -/
def ofBinSpread (bins : List BinSample) : Option Volatility :=
  let funded := (bins.filter fun b => b.hasLiquidity && b.price.isFinite && decide (b.price > 0)).map
    (·.price)
  if funded.length < 2 then none
  else do
    let (low, high) ← range? funded
    let spread := (high - low) / low
    pure ⟨Binary64.clamp spread minScore maxScore, some spread, some high, some low, .binSpread⟩

/-- From a finite non-negative volume and a finite positive value locked. -/
def ofTurnover (volume tvl : Option Float) : Option Volatility := do
  let v ← volume.filter fun v => v.isFinite && decide (v ≥ 0)
  let t ← tvl.filter fun t => t.isFinite && decide (t > 0)
  pure ⟨Binary64.clamp (v / t * 0.15) 0.025 0.3, none, none, none, .turnover⟩

/-- The default estimate. -/
def fallback : Volatility := ⟨defaultScore, none, none, none, .fallback⟩

end Volatility

/-- The estimate of one source, if it can give one. -/
def VolatilitySource.estimate (inputs : VolatilityInputs) : VolatilitySource → Option Volatility
  | .priceSeries => inputs.series >>= Volatility.ofSeries
  | .binSpread => Volatility.ofBinSpread inputs.bins
  | .turnover => Volatility.ofTurnover inputs.volume24h inputs.tvl
  | .fallback => some Volatility.fallback

/-- The order in which sources are tried. -/
def VolatilitySource.order : List VolatilitySource := [.priceSeries, .binSpread, .turnover, .fallback]

/-- The estimate of the first source in order that answers. -/
def Volatility.estimate (inputs : VolatilityInputs) : Volatility :=
  (VolatilitySource.order.findSome? (VolatilitySource.estimate inputs)).getD Volatility.fallback

end RangeAdvisor
