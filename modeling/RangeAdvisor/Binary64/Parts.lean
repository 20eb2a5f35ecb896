/-!
# Binary64 values by their parts

A `Float` is read through its bits: NaN, an infinity, or a finite value `±m·2^e` with the integer
significand `m` and exponent `e` of the IEEE-754 binary64 format. The floor and the nearest integer
are computed exactly on these parts, so they are statements about the real value the bits denote.
-/

namespace RangeAdvisor

/-- A binary64 value: NaN, an infinity of a sign, or the finite value `±m·2^e`. -/
inductive Binary64 where
  | nan
  | inf (neg : Bool)
  | finite (neg : Bool) (m : Nat) (e : Int)
  deriving DecidableEq

namespace Binary64

/-- The least exponent of the format, that of the subnormal values. -/
def minExp : Int := -1074

/-- Reads sign bit, biased exponent and trailing significand out of the 64 bits. -/
def ofBits (b : UInt64) : Binary64 :=
  let n : Nat := b.toNat
  let neg : Bool := decide (n / Nat.pow 2 63 = 1)
  let biased : Nat := n / Nat.pow 2 52 % Nat.pow 2 11
  let frac : Nat := n % Nat.pow 2 52
  if biased = 2047 then (if frac = 0 then .inf neg else .nan)
  else if biased = 0 then .finite neg frac minExp
  else .finite neg (Nat.pow 2 52 + frac) ((biased : Int) - 1075)

/-- The parts of a float. -/
def ofFloat (x : Float) : Binary64 := ofBits x.toBits

/-- `⌊±m·2^e⌋`: integer division by a positive power of two rounds toward minus infinity. -/
def floorOf (neg : Bool) (m : Nat) (e : Int) : Int :=
  let q : Int := if neg then -(m : Int) else (m : Int)
  if 0 ≤ e then q * Nat.pow 2 e.toNat else q / Nat.pow 2 (-e).toNat

/-- The integer nearest to `±m·2^e`, halves away from zero: `⌊|x| + ½⌋` with the sign put back. -/
def roundOf (neg : Bool) (m : Nat) (e : Int) : Int :=
  let r : Nat :=
    if 0 ≤ e then m * Nat.pow 2 e.toNat
    else (2 * m + Nat.pow 2 (-e).toNat) / Nat.pow 2 ((-e).toNat + 1)
  if neg then -(r : Int) else (r : Int)

end Binary64

end RangeAdvisor
