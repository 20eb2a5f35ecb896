import RangeAdvisor.Bins.Price

/-!
# Pools and their bins

A pool trades token X against token Y in bins of a fixed step. Its price is the one a data source
reports when that is finite and positive, and otherwise the bin model's price at the active bin.
Samples of bins carry their reserves of both tokens.
-/

namespace RangeAdvisor

/-- A token: its mint address, symbol and number of decimals. -/
structure Token where
  mint : String
  symbol : String
  decimals : UInt8

/-- A pool as observed: the token pair, bin step, active bin, and what a data source may report. -/
structure Pool where
  address : String
  tokenX : Token
  tokenY : Token
  binStep : UInt16
  activeBin : Int32
  price : Option Float
  tvl : Option Float
  volume24h : Option Float
  apr : Option Float

namespace Pool

/-- The model price of bin `b` in this pool. -/
def priceAt (p : Pool) (b : Int32) : Float :=
  Bins.priceAt b p.binStep p.tokenX.decimals p.tokenY.decimals

/-- The reported price when finite and positive, else the model price at the active bin. -/
def currentPrice (p : Pool) : Float :=
  match p.price with
  | some x => if x.isFinite && decide (x > 0) then x else p.priceAt p.activeBin
  | none => p.priceAt p.activeBin

/-- The prices at the edges and the middle bin of `lower … upper`. -/
def priceRange (p : Pool) (lower upper : Int32) : PriceRange :=
  PriceRange.ofBins lower upper p.binStep p.tokenX.decimals p.tokenY.decimals

end Pool

/-- A sampled bin: its id, a price as recorded, and its reserves of X and Y. -/
structure BinSample where
  binId : Int32
  price : Float
  x : Float
  y : Float

/-- A bin holds liquidity when either reserve is positive. -/
def BinSample.hasLiquidity (s : BinSample) : Bool := decide (s.x > 0) || decide (s.y > 0)

/-- The reserves of one bin. -/
structure Reserves where
  binId : Int32
  x : Float
  y : Float

/-- One observation of a price series, at a time in unix seconds. -/
structure PricePoint where
  timestamp : Int64
  price : Float

end RangeAdvisor
