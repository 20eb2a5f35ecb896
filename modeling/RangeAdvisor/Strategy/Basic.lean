import RangeAdvisor.Text.Blank
import RangeAdvisor.Market.Context
import RangeAdvisor.Bins.Range

/-!
# Strategies and recommendations

A strategy is the shape liquidity takes across a range: uniform (`spot`), concentrated at the
center (`curve`), or weighted toward the edges and sized per side (`bidAsk`). A name is read after
trimming blanks and lowering ASCII letters. A recommendation is a range with its center, its
width, the reasons in words, and the figures used.
-/

namespace RangeAdvisor

/-- The shape of liquidity across a range. -/
inductive Strategy where
  | spot
  | curve
  | bidAsk
  deriving DecidableEq

namespace Strategy

/-- The display name. -/
def name : Strategy → String
  | .spot => "Spot"
  | .curve => "Curve"
  | .bidAsk => "BidAsk"

/-- Reads a name: blanks trimmed, ASCII letters lowered, then `spot`, `curve`, or `bidask`,
`bid-ask`, `bid_ask`; any other name is refused and quoted as trimmed and lowered. -/
def parse (s : String) : Except AdvisorError Strategy :=
  match Text.asciiLower (Text.trim s) with
  | "spot" => .ok .spot
  | "curve" => .ok .curve
  | "bidask" | "bid-ask" | "bid_ask" => .ok .bidAsk
  | other => .error (.unknownStrategy other)

end Strategy

/-- The width of a range: the same number of bins on both sides, or a bid and an ask side. -/
inductive RangeWidth where
  | symmetric (perSide : Int32)
  | split (bid ask : Int32)

/-- The figures a recommendation used. -/
structure Metrics where
  volatility : Float
  deviation : Float
  bias : Bias
  atr : Option Float
  shift : Int32
  bidTarget : Option Float
  askTarget : Option Float
  bidCoverage : Option Float
  askCoverage : Option Float

/-- A recommended range with its reasons. -/
structure Recommendation where
  strategy : Strategy
  lower : Int32
  upper : Int32
  center : Int32
  width : RangeWidth
  rationale : List String
  metrics : Metrics

namespace Recommendation

/-- The recommended range. -/
def range (r : Recommendation) : BinRange := ⟨r.lower, r.upper⟩

/-- Prices at its edges and middle bin in a pool. -/
def priceRange (r : Recommendation) (pool : Pool) : PriceRange := pool.priceRange r.lower r.upper

end Recommendation

end RangeAdvisor
