import RangeAdvisor.Decimal.Fixed
import RangeAdvisor.Market.Health
import RangeAdvisor.Strategy.Basic
import RangeAdvisor.Strategy.Coverage

/-!
# Recommending a range

Each strategy turns the market signals into a range around the active bin. Widths grow with the
volatility score, rounded half up and clamped: spot takes `2 + 20v` bins per side within `[2, 10]`,
one more when the oracle deviation exceeds 25%; curve takes `6 + 30v` within `[4, 25]`; bid-ask
sizes each side by the share of liquidity it covers, with fallbacks `4 + 25v` within `[3, 20]` and
`6 + 35v` within `[4, 30]`. Curve and bid-ask shift the range toward the liquidity bias, by at
least one bin and more with the deviation, and the shift is capped so the range fits the bin limit.
Range edges saturate at the 32-bit limits. The rationale states each step in words.
-/

namespace RangeAdvisor

/-- The signals every strategy reads. -/
structure Signals where
  active : Int32
  volatility : Float
  deviation : Float
  bias : Bias
  atr : Option Float
  maxBins : UInt32

namespace Signals

/-- The signals of a pool in a context: the score when finite and not negative, else the default;
the deviation of the pool price from the oracle; the context's bias, else the one its volume nodes
show against the pool price; a finite average true range. -/
def ofContext (pool : Pool) (ctx : MarketContext) (oracle : Option Float) (maxBins : UInt32) :
    Signals :=
  let price := pool.currentPrice
  ⟨pool.activeBin,
    (ctx.volatility.filter fun v => v.isFinite && decide (v ≥ 0)).getD Volatility.defaultScore,
    priceDeviation price oracle, ctx.bias.getD (Bias.ofNodes ctx.volumeNodes price),
    ctx.atr.filter (·.isFinite), maxBins⟩

/-- The figures of a recommendation with a center shift. -/
def metrics (s : Signals) (shift : Int32) : Metrics :=
  ⟨s.volatility, s.deviation, s.bias, s.atr, shift, none, none, none, none⟩

/-- The volatility as a percentage with two places. -/
def volatilityText (s : Signals) : String := Decimal.fixed 2 (s.volatility * 100.0)

end Signals

/-- A deviation above which spot widens by a bin. -/
def spotExpansion : Float := 0.25

/-- A deviation above which the pool is flagged. -/
def highDeviation : Float := 0.5

/-- `shift` limited to `±room`, where `room = maxBins - base` kept within `[0, 2^31 - 1]`. -/
def capShift (shift base : Int32) (maxBins : UInt32) : Int32 :=
  let room := Saturating.ofInt (max 0 ((maxBins.toNat : Int) - base.toInt))
  Saturating.clamp shift (-room) room

/-- Notes a capped shift. -/
def capSuffix (raw shift : Int32) (maxBins : UInt32) : String :=
  if raw == shift then "" else s!" (capped from {raw.toInt.natAbs} to fit {maxBins} bins)"

/-- Warns of a pool price far from the oracle. -/
def highDeviationNote (deviation : Float) : String :=
  "Pool price deviates " ++ Decimal.fixed 1 (deviation * 100.0) ++
    "% from oracle, verify the pool before depositing"

/-- The lesser of a shift and zero. -/
def downPart (shift : Int32) : Int32 := if shift < 0 then shift else 0

/-- The greater of a shift and zero. -/
def upPart (shift : Int32) : Int32 := if 0 < shift then shift else 0

namespace Signals

/-- Spot's base width: `2 + 20v` rounded half up, within `[2, 10]`. -/
def spotBase (s : Signals) : Int32 :=
  Saturating.clamp (Saturating.roundHalfUp (2.0 + s.volatility * 20.0)) 2 10

/-- Spot's bins per side: the base, and one more when the deviation exceeds 25%. -/
def spotPerSide (s : Signals) : Int32 :=
  if s.deviation > spotExpansion then s.spotBase + 1 else s.spotBase

/-- Curve's bins per side: `6 + 30v` rounded half up, within `[4, 25]`. -/
def curvePerSide (s : Signals) : Int32 :=
  Saturating.clamp (Saturating.roundHalfUp (6.0 + s.volatility * 30.0)) 4 25

/-- Curve's shift before the cap: toward the bias, ten bins per unit of deviation and at least
one. -/
def curveRawShift (s : Signals) : Int32 :=
  Saturating.roundHalfUp (Float.ofInt s.bias.signum.toInt * Binary64.greater (s.deviation * 10.0) 1.0)

end Signals

/-- Uniform liquidity symmetric around the active bin. -/
def spot (s : Signals) : Recommendation :=
  let base := s.spotBase
  let expanded := s.deviation > spotExpansion
  let perSide := s.spotPerSide
  let deviation := Decimal.fixed 1 (s.deviation * 100.0)
  let limit := Decimal.fixed 0 (spotExpansion * 100.0)
  let second :=
    if expanded then
      s!"Oracle deviation {deviation}% exceeds {limit}%, widened to {perSide.toInt} bins per side"
    else s!"Oracle deviation {deviation}% within {limit}%, no expansion"
  ⟨.spot, Saturating.sub s.active perSide, Saturating.add s.active perSide, s.active,
    .symmetric perSide,
    [s!"Volatility {s.volatilityText}% sets a base width of {base.toInt} bins per side", second,
      s!"Uniform liquidity across {2 * perSide.toInt + 1} bins centered on active bin {s.active.toInt}"],
    s.metrics 0⟩

/-- Liquidity concentrated at a center shifted toward the bias. -/
def curve (s : Signals) : Recommendation :=
  let perSide := s.curvePerSide
  let raw := s.curveRawShift
  let shift := capShift raw (2 * perSide + 1) s.maxBins
  let suffix := capSuffix raw shift s.maxBins
  let shiftLine :=
    if shift == 0 then
      if raw != 0 then s!"Center shift of {raw.toInt.natAbs} bins dropped to fit {s.maxBins} bins"
      else "Liquidity balanced around price, no center shift"
    else if 0 < shift then
      s!"Liquidity concentrated above price, center shifted up {shift.toInt} bins{suffix}"
    else s!"Liquidity concentrated below price, center shifted down {-shift.toInt} bins{suffix}"
  let notes := if s.deviation > highDeviation then [highDeviationNote s.deviation] else []
  ⟨.curve, Saturating.add (Saturating.sub s.active perSide) (downPart shift),
    Saturating.add (Saturating.add s.active perSide) (upPart shift), Saturating.add s.active shift,
    .symmetric perSide,
    [s!"Volatility {s.volatilityText}% sets {perSide.toInt} bins per side around the center",
      shiftLine] ++ notes,
    s.metrics shift⟩

/-- How the average true range moves. -/
inductive AtrTrend where
  | expanding
  | contracting
  | stable
  | unknown

namespace AtrTrend

/-- Expanding above 2%, contracting below 0.8%, stable between, unknown without a figure. -/
def ofAtr : Option Float → AtrTrend
  | some a => if a > 0.02 then .expanding else if a < 0.008 then .contracting else .stable
  | none => .unknown

/-- Coverage targets rise by 0.15 while the range expands and fall by as much while it contracts. -/
def adjustment : AtrTrend → Float
  | .expanding => 0.15
  | .contracting => -0.15
  | .stable | .unknown => 0.0

/-- The sentence on the trend. -/
def note (t : AtrTrend) (atr : Option Float) : String :=
  let pct := Decimal.fixed 2 (atr.getD 0.0 * 100.0)
  match t with
  | .expanding => s!"ATR {pct}% expanding, coverage targets raised 15%"
  | .contracting => s!"ATR {pct}% contracting, coverage targets lowered 15%"
  | .stable => s!"ATR {pct}% stable, coverage targets unchanged"
  | .unknown => "ATR unavailable, coverage targets unchanged"

end AtrTrend

/-- The sentence on one side's coverage. -/
def coverageNote (side : String) (span : CoverageSpan) (target : Float) : String :=
  match span.coverage with
  | some c =>
    s!"{side} side: {span.bins.toInt} bins cover {Decimal.fixed 1 (c * 100.0)}% of sampled " ++
      s!"liquidity (target {Decimal.fixed 0 (target * 100.0)}%)"
  | none => s!"{side} side: no sampled liquidity, volatility fallback of {span.bins.toInt} bins"

namespace Signals

/-- The bid side's width without nodes: `4 + 25v` rounded half up, within `[3, 20]`. -/
def bidFallback (s : Signals) : Int32 :=
  Saturating.clamp (Saturating.roundHalfUp (4.0 + s.volatility * 25.0)) 3 20

/-- The ask side's width without nodes: `6 + 35v` rounded half up, within `[4, 30]`. -/
def askFallback (s : Signals) : Int32 :=
  Saturating.clamp (Saturating.roundHalfUp (6.0 + s.volatility * 35.0)) 4 30

/-- The share of the bid side's weight to cover: 55% moved with the trend, 10% less under a
bearish bias, within `[0.35, 0.9]`. -/
def bidTarget (s : Signals) : Float :=
  let bidCut : Float := if s.bias == .bearish then 0.1 else 0.0
  Binary64.clamp (0.55 + (AtrTrend.ofAtr s.atr).adjustment - bidCut) 0.35 0.9

/-- The share of the ask side's weight to cover: 65% moved with the trend, 10% more under a
bullish bias, within `[0.4, 0.95]`. -/
def askTarget (s : Signals) : Float :=
  let askBoost : Float := if s.bias == .bullish then 0.1 else 0.0
  Binary64.clamp (0.65 + (AtrTrend.ofAtr s.atr).adjustment + askBoost) 0.4 0.95

/-- The bid side: its coverage nodes walked to the bid target, within `[3, 20]`. -/
def bidSide (s : Signals) (ctx : MarketContext) : CoverageSpan :=
  coverageSpan ctx.bidNodes s.active s.bidTarget 3 20 s.bidFallback

/-- The ask side: its coverage nodes walked to the ask target, within `[4, 30]`. -/
def askSide (s : Signals) (ctx : MarketContext) : CoverageSpan :=
  coverageSpan ctx.askNodes s.active s.askTarget 4 30 s.askFallback

/-- Bid-ask's shift before the cap: toward the bias, one bin plus ten per unit of deviation. -/
def bidAskRawShift (s : Signals) : Int32 :=
  Saturating.roundHalfUp ((s.deviation * 10.0 + 1.0) * Float.ofInt s.bias.signum.toInt)

end Signals

/-- Liquidity weighted toward the edges, each side sized by the liquidity it covers. -/
def bidAsk (s : Signals) (ctx : MarketContext) : Recommendation :=
  let bidFallback := s.bidFallback
  let askFallback := s.askFallback
  let trend := AtrTrend.ofAtr s.atr
  let bidTarget := s.bidTarget
  let askTarget := s.askTarget
  let bid := s.bidSide ctx
  let ask := s.askSide ctx
  let raw := s.bidAskRawShift
  let shift := capShift raw (bid.bins + ask.bins + 1) s.maxBins
  let suffix := capSuffix raw shift s.maxBins
  let biasLine := match s.bias with
    | .bullish => s!"Liquidity weighted above price, range nudged up {shift.toInt} bins{suffix}"
    | .bearish => s!"Liquidity weighted below price, range nudged down {-shift.toInt} bins{suffix}"
    | .neutral => "No directional liquidity bias"
  let notes := if s.deviation > highDeviation then [highDeviationNote s.deviation] else []
  ⟨.bidAsk, Saturating.add (Saturating.sub s.active bid.bins) (downPart shift),
    Saturating.add (Saturating.add s.active ask.bins) (upPart shift), s.active,
    .split bid.bins ask.bins,
    [coverageNote "Bid" bid bidTarget, coverageNote "Ask" ask askTarget,
      s!"Volatility {s.volatilityText}% gives fallback widths of {bidFallback.toInt} bid / " ++
        s!"{askFallback.toInt} ask bins", biasLine] ++ notes ++ [trend.note s.atr],
    { s.metrics shift with
      bidTarget := some bidTarget, askTarget := some askTarget,
      bidCoverage := bid.coverage, askCoverage := ask.coverage }⟩

/-- Recommends a range for a strategy; a pool with a zero bin step is refused. -/
def recommend (strategy : Strategy) (pool : Pool) (ctx : MarketContext) (oracle : Option Float)
    (maxBins : UInt32) : Except AdvisorError Recommendation := do
  Bins.checkStep pool.binStep
  let s := Signals.ofContext pool ctx oracle maxBins
  pure <| match strategy with
    | .spot => spot s
    | .curve => curve s
    | .bidAsk => bidAsk s ctx

/-- The overflow that aborts a recommendation, if one does: bid-ask measures the nodes its walks
take, the bid side's first; a pool with a zero bin step is refused before. -/
def recommendOverflow (strategy : Strategy) (pool : Pool) (ctx : MarketContext)
    (oracle : Option Float) (maxBins : UInt32) : Option Overflow :=
  if pool.binStep = 0 then none
  else match strategy with
    | .spot | .curve => none
    | .bidAsk =>
      let s := Signals.ofContext pool ctx oracle maxBins
      match coverageWalkOverflow s.active s.bidTarget ctx.bidNodes 0.0 with
      | some o => some o
      | none => coverageWalkOverflow s.active s.askTarget ctx.askNodes 0.0

end RangeAdvisor
