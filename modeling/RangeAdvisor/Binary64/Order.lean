import RangeAdvisor.Binary64.Parts

/-!
# Orders and sums of floats

The lesser and greater of two floats ignore a NaN operand; clamping leaves a NaN unchanged; the
total order places `-0` below `+0` and orders NaNs by their sign, and is read off the bits as an
integer key. A sum adds from the left starting at `-0`, the neutral element of float addition.
-/

namespace RangeAdvisor.Binary64

/-- The lesser of two floats; a NaN operand yields the other. -/
def lesser (a b : Float) : Float :=
  if b.isNaN then a else if a.isNaN then b else if b < a then b else a

/-- The greater of two floats; a NaN operand yields the other. -/
def greater (a b : Float) : Float :=
  if b.isNaN then a else if a.isNaN then b else if a < b then b else a

/-- `x` raised to `lo` when below it and lowered to `hi` when above it; NaN stays NaN. -/
def clamp (x lo hi : Float) : Float :=
  let x := if x < lo then lo else x
  if x > hi then hi else x

/-- The position of a float in the total order of binary64 values, as an integer: the bits for a
positive sign, and minus one less the magnitude bits for a negative sign. -/
def totalKey (x : Float) : Int :=
  let n := x.toBits.toNat
  if n < Nat.pow 2 63 then (n : Int) else -((n - Nat.pow 2 63 : Nat) : Int) - 1

/-- The sum from the left, starting at `-0`. -/
def total (xs : List Float) : Float := xs.foldl (· + ·) (-0.0)

end RangeAdvisor.Binary64
