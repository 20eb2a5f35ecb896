import RangeAdvisor.Binary64.Parts

/-!
# Decimals

A `Decimal` is `digits · 10^exponent`. Binary64 values are compared with decimals exactly, by
cross-multiplying natural numbers, and quotients are rounded to the nearest natural number with a
stated rule for an exact half.
-/

namespace RangeAdvisor

/-- The number `digits · 10^exponent`. -/
structure Decimal where
  digits : Nat
  exponent : Int
  deriving DecidableEq

namespace Decimal

/-- How an exact tie between two candidates is settled. -/
inductive Tie where
  /-- The candidate whose last digit is even. -/
  | even
  /-- The larger candidate. -/
  | up
  deriving DecidableEq

/-- The number of decimal digits of `n`, one for zero. -/
def digitCount (n : Nat) : Nat := (Nat.toDigits 10 n).length

/-- Compares `a·10^k` with `b·2^j` exactly. -/
def compareScaled (a : Nat) (k : Int) (b : Nat) (j : Int) : Ordering :=
  compare (a * Nat.pow 10 k.toNat * Nat.pow 2 (-j).toNat) (b * Nat.pow 2 j.toNat * Nat.pow 10 (-k).toNat)

/-- `n / d` rounded to the nearest natural number, an exact half going as `tie` says. -/
def roundDiv (n d : Nat) (tie : Tie) : Nat :=
  let q := n / d
  let r := n % d
  if 2 * r < d then q
  else if d < 2 * r then q + 1
  else match tie with
    | .even => q + q % 2
    | .up => q + 1

/-- `n·10^k` with the trailing zero digits of `n` moved into the exponent. -/
def normalize (n : Nat) (k : Int) : Decimal :=
  if h : n ≠ 0 ∧ n % 10 = 0 then normalize (n / 10) (k + 1) else ⟨n, k⟩
termination_by n
decreasing_by omega

/-- The decimal digits of `n`, most significant first; `[0]` for zero. -/
def digitList (n : Nat) : List Nat := (Nat.toDigits 10 n).map fun c => c.toNat - '0'.toNat

end Decimal

end RangeAdvisor
