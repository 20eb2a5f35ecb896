import RangeAdvisor.Pool

/-!
# Price health

The pool's model price at the active bin is compared with an oracle price. The deviation is
`|pool - oracle| / oracle` for a finite positive oracle price and zero otherwise, and the pool is
healthy when the deviation is within the limit. The reported price of the pool plays no part.
-/

namespace RangeAdvisor

/-- The pool price against the oracle. -/
structure Health where
  healthy : Bool
  poolPrice : Float
  oraclePrice : Option Float
  deviation : Float
  oracleBin : Option Int32

/-- `|price - oracle| / oracle` for a finite positive oracle price, else zero. -/
def priceDeviation (price : Float) (oracle : Option Float) : Float :=
  match oracle with
  | some o => if o.isFinite && decide (o > 0) then (price - o).abs / o else 0.0
  | none => 0.0

/-- Checks the pool's model price at its active bin against an oracle price. -/
def Health.check (pool : Pool) (oracle : Option Float) (limit : Float) : Health :=
  let price := pool.priceAt pool.activeBin
  let oracle := oracle.filter fun p => p.isFinite && decide (p > 0)
  let deviation := priceDeviation price oracle
  ⟨decide (deviation ≤ limit), price, oracle, deviation,
    oracle >>= fun p => Bins.binFor? p pool.binStep pool.tokenX.decimals pool.tokenY.decimals⟩

end RangeAdvisor
