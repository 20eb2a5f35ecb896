import RangeAdvisor.Binary64.Order
import RangeAdvisor.Saturating
import RangeAdvisor.Market.Context

/-!
# Coverage of one side

One side of a bid-ask range is sized by walking its coverage nodes nearest first, adding their
weights until the target share is reached; the side is as wide as the distance of the last node
taken, within the bounds. Without nodes the volatility fallback width stands.

The distance of each node taken is measured in 32-bit arithmetic, as `|b - active|`: a node more
than `2^31 - 1` bins from the active bin overflows that arithmetic, which aborts the computation.
`coverageWalkOverflow` is the first such overflow of a walk.
-/

namespace RangeAdvisor

/-- The width of one side and the share of the side's weight it covers. -/
structure CoverageSpan where
  bins : Int32
  coverage : Option Float

/-- The running weight and the distance of the last node taken, stopping once the weight reaches
the target. -/
def coverageWalk (active : Int32) (target : Float) : List CoverageNode → Float → Int → Float × Int
  | [], covered, distance => (covered, distance)
  | n :: rest, covered, _ =>
    let covered := covered + n.weight
    let distance := (n.binId.toInt - active.toInt).natAbs
    if covered ≥ target then (covered, distance) else coverageWalk active target rest covered distance

/-- The width of a side: the distance at which the walk stops, within `[lo, hi]`, and the weight
covered, at most one; the fallback width when there are no nodes. -/
def coverageSpan (nodes : List CoverageNode) (active : Int32) (target : Float) (lo hi : Int32)
    (fallback : Int32) : CoverageSpan :=
  if nodes.isEmpty then ⟨fallback, none⟩
  else
    let (covered, distance) := coverageWalk active target nodes 0.0 0
    ⟨Saturating.clamp (Saturating.ofInt distance) lo hi, some (Binary64.lesser covered 1.0)⟩

/-- An operation of 32-bit arithmetic whose result is out of range, which aborts the
computation. -/
inductive Overflow where
  /-- A difference past either end of the range. -/
  | subtract
  /-- The negation of `-2^31`, as its absolute value takes. -/
  | negate
  deriving DecidableEq

/-- The sentence an overflow aborts with. -/
def Overflow.message : Overflow → String
  | .subtract => "attempt to subtract with overflow"
  | .negate => "attempt to negate with overflow"

/-- How measuring `|b - active|` in 32-bit arithmetic overflows, if it does: the difference
leaves the range, or it is `-2^31`, whose absolute value does. -/
def distanceOverflow (active b : Int32) : Option Overflow :=
  let d := b.toInt - active.toInt
  if d < Saturating.lo ∨ Saturating.hi < d then some .subtract
  else if d = Saturating.lo then some .negate
  else none

/-- The first overflow in measuring the nodes the walk takes, nearest first until the weight
reaches the target. -/
def coverageWalkOverflow (active : Int32) (target : Float) :
    List CoverageNode → Float → Option Overflow
  | [], _ => none
  | n :: rest, covered =>
    let covered := covered + n.weight
    match distanceOverflow active n.binId with
    | some o => some o
    | none => if covered ≥ target then none else coverageWalkOverflow active target rest covered

end RangeAdvisor
