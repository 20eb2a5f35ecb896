import RangeAdvisor.Snapshot.Basic
import RangeAdvisor.Settings
import RangeAdvisor.Market.Health
import RangeAdvisor.Strategy.Recommend
import RangeAdvisor.Bins.Deposit
import RangeAdvisor.Rebalance.Analysis

/-!
# The advisor

The advisor answers requests about a pool from a snapshot and its settings. It gathers what a
request needs from the snapshot, then hands it to the calculations: a market context from the bins
near the active bin, the two tokens' quotes and their recent price series (empty when no bins are
recorded); the oracle price as the ratio of the two quotes; a recommendation checked against the
bin limit; a paired deposit using the active bin's reserves when the snapshot's active bin is the
pool's; the price health; and a review of a position at the pool's active bin, valuing the cost of
a rebalance at the SOL quote or the fallback price.
-/

namespace RangeAdvisor

/-- An advisor over a snapshot. -/
structure Advisor where
  source : Snapshot
  settings : Settings

/-- A paired deposit before and after the cross check. -/
structure Pairing where
  solved : Deposit
  quote : Quote

/-- A position reviewed against the pool's active bin. -/
structure Review where
  range : BinRange
  analysis : Analysis
  costBenefit : CostBenefit
  unclaimedUsd : Float
  solUsd : Float

/-- The record of moving a reviewed position to a new range, claiming its fees. -/
def Review.record (r : Review) (newRange : BinRange) : RebalanceRecord :=
  ⟨r.range, newRange, r.unclaimedUsd, r.costBenefit.costUsd, r.analysis.priority.reasonCode⟩

namespace Advisor

/-- The market context of a pool; empty when the snapshot records no bins. -/
def marketContext (a : Advisor) (pool : Pool) : MarketContext :=
  match a.source.binsAround a.settings.sampleRadius with
  | .error _ => MarketContext.empty
  | .ok bins =>
    let quotes := a.source.usdPrices [pool.tokenX.mint, pool.tokenY.mint]
    let hours := a.settings.seriesLookbackHours
    MarketContext.build pool ⟨bins, quotes.price? pool.tokenX.mint, quotes.price? pool.tokenY.mint,
      a.source.usdPriceSeries pool.tokenX.mint hours, a.source.usdPriceSeries pool.tokenY.mint hours⟩

/-- The oracle's price of X in Y, when finite and positive. -/
def oraclePrice (a : Advisor) (pool : Pool) : Option Float :=
  (a.source.priceRatio pool.tokenX.mint pool.tokenY.mint).filter fun r => r.isFinite && decide (r > 0)

/-- A recommendation within the bin limit; one wider than the limit is refused. -/
def recommend (a : Advisor) (pool : Pool) (strategy : Strategy) :
    Except AdvisorError Recommendation := do
  let r ← RangeAdvisor.recommend strategy pool (a.marketContext pool) (a.oraclePrice pool)
    a.settings.maxBins
  r.range.validate a.settings.maxBins
  pure r

/-- The overflow that aborts a recommendation, if one does. -/
def recommendOverflow (a : Advisor) (pool : Pool) (strategy : Strategy) : Option Overflow :=
  RangeAdvisor.recommendOverflow strategy pool (a.marketContext pool) (a.oraclePrice pool)
    a.settings.maxBins

/-- The amount of Y to pair with `amountX` over a range, cross-checked against a reference. -/
def pairedAmount (a : Advisor) (pool : Pool) (range : BinRange) (amountX : Float)
    (reference : Option Float) : Except AdvisorError Pairing := do
  range.validate a.settings.maxBins
  let reserves := match a.source.activeBin with
    | .ok r => if r.binId == pool.activeBin then some r else none
    | .error _ => none
  let solved ← DepositRequest.solve ⟨amountX, range, pool.activeBin, pool.binStep,
    pool.tokenX.decimals, pool.tokenY.decimals, reserves, a.settings.maxBins⟩
  pure ⟨solved, crossCheck solved.amountY reference a.settings.crossCheckTolerance⟩

/-- The pool's price against the oracle. -/
def priceHealth (a : Advisor) (pool : Pool) : Health :=
  Health.check pool (a.oraclePrice pool) a.settings.healthDeviationLimit

/-- Reviews a position at the pool's active bin. -/
def evaluatePosition (a : Advisor) (pool : Pool) (position : Position)
    (timeInRange : Option Float) : Review :=
  let quotes := a.source.usdPrices [pool.tokenX.mint, pool.tokenY.mint, solMint]
  let (xUsd, yUsd) := MarketContext.resolveUsd (quotes.price? pool.tokenX.mint)
    (quotes.price? pool.tokenY.mint) pool.currentPrice
  let solUsd := ((quotes.price? solMint).filter fun p => p.isFinite && decide (p > 0)).getD
    a.settings.fallbackSolUsd
  let current := { position with active := pool.activeBin }
  let inputs : FeeInputs := ⟨xUsd, yUsd, timeInRange, a.settings.feeUplift,
    rebalanceCostUsd a.settings.rebalanceCostSol solUsd⟩
  let analysis := current.analyze pool.apr inputs
  ⟨current.range, analysis, CostBenefit.ofAnalysis analysis, current.unclaimedUsd xUsd yUsd, solUsd⟩

end Advisor

end RangeAdvisor
