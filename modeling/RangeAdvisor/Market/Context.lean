import RangeAdvisor.Market.Volatility

/-!
# Market context

The context of a pool summarises sampled bins and oracle data. Each sampled bin is priced by the
bin model and weighted by the USD value of its reserves; bins of finite positive weight count.
The five heaviest give the volume nodes, heaviest first and normalised to their total; all of them,
split at the active bin (bid side at or below it, ask side above), give the coverage nodes, each side
normalised and ordered nearest first. The volatility estimate draws on the X/Y price ratio series,
the repriced bins, and the pool's turnover. Every sort is stable.

The volume bias compares node weight above the pool price with weight below it.
-/

namespace RangeAdvisor

/-- A price level and its share of the heaviest liquidity. -/
structure VolumeNode where
  price : Float
  weight : Float

/-- A bin and its share of the liquidity on its side of the active bin. -/
structure CoverageNode where
  binId : Int32
  price : Float
  weight : Float

/-- Where the heavier liquidity sits relative to the pool price. -/
inductive Bias where
  | bearish
  | neutral
  | bullish
  deriving DecidableEq

namespace Bias

/-- `-1`, `0` or `1`. -/
def signum : Bias → Int32
  | .bearish => -1
  | .neutral => 0
  | .bullish => 1

/-- Bullish when the weight above the price exceeds 1.2 times the weight below, bearish in the
opposite case, neutral otherwise; nodes at the price or with a NaN price count on neither side. -/
def ofNodes (nodes : List VolumeNode) (price : Float) : Bias :=
  let (above, below) := nodes.foldl (fun (acc : Float × Float) n =>
    if n.price > price then (acc.1 + n.weight, acc.2)
    else if n.price < price then (acc.1, acc.2 + n.weight)
    else acc) (0.0, 0.0)
  if above > below * 1.2 then .bullish
  else if below > above * 1.2 then .bearish
  else .neutral

end Bias

/-- What the recommender knows of the market. -/
structure MarketContext where
  volumeNodes : List VolumeNode
  volatility : Option Float
  atr : Option Float
  recentHigh : Option Float
  recentLow : Option Float
  bidNodes : List CoverageNode
  askNodes : List CoverageNode
  bias : Option Bias
  source : Option VolatilitySource

/-- What the data sources gave for one context. -/
structure MarketInputs where
  bins : List BinSample
  xUsd : Option Float
  yUsd : Option Float
  xSeries : Option (List PricePoint)
  ySeries : Option (List PricePoint)

/-- A bin with its model price and USD weight. -/
structure WeightedBin where
  binId : Int32
  price : Float
  weight : Float

namespace MarketContext

/-- No market signal. -/
def empty : MarketContext := ⟨[], none, none, none, none, [], [], none, none⟩

/-- A context is empty when it has no volume nodes. -/
def isEmpty (c : MarketContext) : Bool := c.volumeNodes.isEmpty

/-- USD prices of X and Y: a missing or unusable quote is filled from the other through the pool
price, and with neither, Y counts as one and X as the pool price. -/
def resolveUsd (xUsd yUsd : Option Float) (poolPrice : Float) : Float × Float :=
  let valid (p : Option Float) := p.filter fun v => v.isFinite && decide (v > 0)
  match valid xUsd, valid yUsd with
  | some x, some y => (x, y)
  | some x, none => (x, x / poolPrice)
  | none, some y => (poolPrice * y, y)
  | none, none => (poolPrice, 1.0)

/-- The five heaviest bins, heaviest first, as shares of their total; none when that total is not
positive. -/
def volumeNodesOf (weighted : List WeightedBin) : List VolumeNode :=
  let top := (weighted.mergeSort fun a b => Binary64.totalKey b.weight ≤ Binary64.totalKey a.weight).take 5
  let sum := Binary64.total (top.map (·.weight))
  if sum ≤ 0 then [] else top.map fun n => ⟨n.price, n.weight / sum⟩

/-- The distance of a bin from the active bin. -/
def distance (active b : Int32) : Nat := (b.toInt - active.toInt).natAbs

/-- One side's bins as shares of the side's total, nearest first; none when that total is not
positive. -/
def sideNodes (side : List WeightedBin) (active : Int32) : List CoverageNode :=
  let sum := Binary64.total (side.map (·.weight))
  if sum ≤ 0 then []
  else (side.map fun n => (⟨n.binId, n.price, n.weight / sum⟩ : CoverageNode)).mergeSort
    fun a b => distance active a.binId ≤ distance active b.binId

/-- Price points sorted by time. -/
def byTime (ps : List PricePoint) : List PricePoint := ps.mergeSort fun a b => a.timestamp ≤ b.timestamp

/-- The X/Y price ratio over time, from the newest points backwards, the longer history losing its
oldest points; without a Y history of two points, X over the Y spot quote. Only finite positive
ratios count, and at least two are needed. -/
def ratioSeries (xSeries ySeries : Option (List PricePoint)) (ySpot : Option Float) :
    Option (List Float) := do
  let xs := byTime (← xSeries)
  let ratios ← match ySeries.filter (·.length ≥ 2) with
    | some ys =>
      let pairs := (xs.reverse.zip (byTime ys).reverse).filter fun (_, y) => y.price > 0
      pure (pairs.map fun (x, y) => x.price / y.price).reverse
    | none => do
      let y ← ySpot.filter fun v => v.isFinite && decide (v > 0)
      pure (xs.map fun x => x.price / y)
  let ratios := ratios.filter fun r => r.isFinite && decide (r > 0)
  if ratios.length ≥ 2 then some ratios else none

/-- The context of a pool from gathered inputs. -/
def build (pool : Pool) (inputs : MarketInputs) : MarketContext :=
  let poolPrice := pool.currentPrice
  let (xUsd, yUsd) := resolveUsd inputs.xUsd inputs.yUsd poolPrice
  let bins := (inputs.bins.map fun b => { b with price := pool.priceAt b.binId }).mergeSort
    fun a b => a.binId ≤ b.binId
  let weighted := (bins.map fun b => (⟨b.binId, b.price, b.x * xUsd + b.y * yUsd⟩ : WeightedBin)).filter
    fun w => w.weight.isFinite && decide (w.weight > 0)
  let vol := Volatility.estimate
    ⟨ratioSeries inputs.xSeries inputs.ySeries inputs.yUsd, bins, pool.volume24h, pool.tvl⟩
  ⟨volumeNodesOf weighted, some vol.score, vol.atr, vol.recentHigh, vol.recentLow,
    sideNodes (weighted.filter fun w => w.binId ≤ pool.activeBin) pool.activeBin,
    sideNodes (weighted.filter fun w => !(w.binId ≤ pool.activeBin)) pool.activeBin,
    none, some vol.source⟩

end MarketContext

end RangeAdvisor
