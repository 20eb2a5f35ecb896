import RangeAdvisor.Bins.Range

/-!
# Positions

A position holds reserves of X and Y over a range of bins, with fees not yet claimed and,
when known, the reserves of each of its bins. Its value and its unclaimed fees are valued at USD
prices of the two tokens.
-/

namespace RangeAdvisor

/-- The reserves a position holds in one bin. -/
structure PositionBin where
  binId : Int32
  x : Float
  y : Float

/-- A liquidity position. -/
structure Position where
  publicKey : String
  poolAddress : String
  lower : Int32
  upper : Int32
  active : Int32
  x : Float
  y : Float
  feeX : Float
  feeY : Float
  bins : List PositionBin

namespace Position

/-- The position's range. -/
def range (p : Position) : BinRange := ⟨p.lower, p.upper⟩

/-- Whether the active bin lies in the range. -/
def inRange (p : Position) : Bool := p.range.contains p.active

/-- The USD value of the reserves. -/
def valueUsd (p : Position) (xUsd yUsd : Float) : Float := p.x * xUsd + p.y * yUsd

/-- The USD value of the unclaimed fees. -/
def unclaimedUsd (p : Position) (xUsd yUsd : Float) : Float := p.feeX * xUsd + p.feeY * yUsd

end Position

end RangeAdvisor
