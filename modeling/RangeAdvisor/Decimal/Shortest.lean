import RangeAdvisor.Decimal.Basic

/-!
# Shortest decimal digits of a binary64 value

`Decimal.shortest m e tie` picks, for the finite positive value `m·2^e`, the fewest significant
digits whose decimal reads back as the same value, and of those the nearest to it; an exact tie
between two goes as `tie` says. The reals that round to `m·2^e` form an interval between the
midpoints to its two neighbours, ends included exactly when `m` is even. If a decimal grid of `p`
digits has a point in that interval, so does one of the two grid points next to the value, so only
those two are tested.
-/

namespace RangeAdvisor.Decimal

/-- The exponent of the leading decimal digit of `m·2^e` (`m > 0`): `10^k ≤ m·2^e < 10^(k+1)`.
The digit counts of numerator and denominator fix it up to one, and one comparison settles it. -/
def leadingExponent (m : Nat) (e : Int) : Int :=
  let a : Int := (digitCount (m * Nat.pow 2 e.toNat) : Int) - (digitCount (Nat.pow 2 (-e).toNat) : Int)
  if compareScaled 1 a m e == .gt then a - 1 else a

/-- Whether `d·10^k` rounds to `m·2^e`: it lies between the midpoints to the neighbours, which are
`(4m - 2)·2^(e-2)` and `(4m + 2)·2^(e-2)`, or `(4m - 1)·2^(e-2)` below a power of two whose lower
neighbour is closer. -/
def readsBack (m : Nat) (e : Int) (d : Nat) (k : Int) : Bool :=
  let below := if m = Nat.pow 2 52 ∧ Binary64.minExp < e then 1 else 2
  let lower := compareScaled d k (4 * m - below) (e - 2)
  let upper := compareScaled d k (4 * m + 2) (e - 2)
  if m % 2 = 0 then lower != .lt && upper != .gt else lower == .gt && upper == .lt

/-- The decimal with `p` significant digits that reads back as `m·2^e`, if one does: of the two
grid points next to the value, the one that reads back, or the nearer if both do. -/
def atPrecision (m : Nat) (e : Int) (tie : Tie) (p : Nat) : Option Decimal :=
  let k := leadingExponent m e - p + 1
  let down := (m * Nat.pow 2 e.toNat * Nat.pow 10 (-k).toNat) / (Nat.pow 2 (-e).toNat * Nat.pow 10 k.toNat)
  let up := down + 1
  match readsBack m e down k, readsBack m e up k with
  | false, false => none
  | true, false => some (normalize down k)
  | false, true => some (normalize up k)
  | true, true =>
    match compareScaled (2 * down + 1) k (2 * m) e with
    | .gt => some (normalize down k)
    | .lt => some (normalize up k)
    | .eq =>
      match tie with
      | .even => some (normalize (if down % 2 = 0 then down else up) k)
      | .up => some (normalize up k)

/-- Seventeen significant digits, rounded to nearest: these always read back. -/
def nearest17 (m : Nat) (e : Int) : Decimal :=
  let k := leadingExponent m e - 16
  normalize (roundDiv (m * Nat.pow 2 e.toNat * Nat.pow 10 (-k).toNat) (Nat.pow 2 (-e).toNat * Nat.pow 10 k.toNat) .even) k

/-- The fewest significant digits that read back as `m·2^e`, the nearest of those; zero for
`m = 0`. -/
def shortest (m : Nat) (e : Int) (tie : Tie) : Decimal :=
  if m = 0 then ⟨0, 0⟩
  else ((List.range 17).findSome? fun i => atPrecision m e tie (i + 1)).getD (nearest17 m e)

end RangeAdvisor.Decimal
