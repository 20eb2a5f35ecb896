import RangeAdvisor.Error

/-!
# Bin ranges

A range is an inclusive interval of bins. Its span counts its bins, zero when inverted and capped
at the largest 32-bit unsigned count; a range is accepted for a position when it is ordered and
its span is within the limit.
-/

namespace RangeAdvisor

/-- The bins from `lower` to `upper`, both included. -/
structure BinRange where
  lower : Int32
  upper : Int32
  deriving DecidableEq

namespace BinRange

/-- The most bins a position may hold unless settings say otherwise. -/
def defaultLimit : UInt32 := 70

/-- The largest 32-bit unsigned count. -/
def countMax : Nat := Nat.pow 2 32 - 1

/-- The number of bins, zero for an inverted range and at most `countMax`. -/
def span (r : BinRange) : UInt32 :=
  if r.upper < r.lower then 0
  else (min (r.upper.toInt - r.lower.toInt + 1).toNat countMax).toUInt32

/-- Whether `b` lies in the range, edges included. -/
def contains (r : BinRange) (b : Int32) : Bool := decide (r.lower ≤ b) && decide (b ≤ r.upper)

/-- The midpoint of the two edges. -/
def center (r : BinRange) : Float := (Float.ofInt r.lower.toInt + Float.ofInt r.upper.toInt) / 2.0

/-- An inverted range is refused first, then one wider than `limit` bins. -/
def validate (r : BinRange) (limit : UInt32) : Except AdvisorError Unit :=
  if r.upper < r.lower then .error (.invertedRange r.lower r.upper)
  else if limit < r.span then .error (.rangeTooWide r.span limit)
  else .ok ()

end BinRange

end RangeAdvisor
