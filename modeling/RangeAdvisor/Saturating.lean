import RangeAdvisor.Binary64.Parts

/-!
# Saturating 32-bit integers

Bin ids and bin counts are 32-bit signed integers. A result past either end of the range stops at
that end instead of wrapping, and a float turned into such an integer does the same, with NaN
giving zero.
-/

namespace RangeAdvisor.Saturating

/-- The least 32-bit signed integer, `-2^31`. -/
def lo : Int := -2147483648

/-- The greatest 32-bit signed integer, `2^31 - 1`. -/
def hi : Int := 2147483647

/-- The 32-bit integer nearest to `i`. -/
def ofInt (i : Int) : Int32 := Int32.ofInt (max lo (min i hi))

/-- Sum, stopping at the ends of the range. -/
def add (a b : Int32) : Int32 := ofInt (a.toInt + b.toInt)

/-- Difference, stopping at the ends of the range. -/
def sub (a b : Int32) : Int32 := ofInt (a.toInt - b.toInt)

/-- `x` moved into `[l, h]`. -/
def clamp (x l h : Int32) : Int32 := if x < l then l else if h < x then h else x

/-- `⌊x⌋` as a 32-bit integer: the infinities stop at the ends and NaN gives zero. -/
def floorOf (x : Float) : Int32 :=
  match Binary64.ofFloat x with
  | .nan => 0
  | .inf neg => if neg then Int32.minValue else Int32.maxValue
  | .finite neg m e => ofInt (Binary64.floorOf neg m e)

/-- Rounds to the nearest integer with halves going up, `⌊x + 0.5⌋`, the sum taken in floats. -/
def roundHalfUp (x : Float) : Int32 := floorOf (x + 0.5)

end RangeAdvisor.Saturating
