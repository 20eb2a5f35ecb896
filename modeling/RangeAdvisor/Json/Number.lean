import RangeAdvisor.Decimal.Reading
import RangeAdvisor.Json.Basic

/-!
# Numbers of JSON text

A written number becomes an unsigned 64-bit integer, a negative 64-bit integer or a float. Integer
digits are gathered into a 64-bit significand while it can take them; each integer digit after the
first that does not fit raises the decimal exponent by one. Fraction digits are gathered the same
way, each lowering the exponent, and from the first that does not fit on they are dropped. The
exponent written after `e` is added with saturation at the 32-bit limits, and the float is read by
scaling (`Decimal.scaled`). A plain integer beyond the 64-bit range, `-0`, and every number with a
point or an exponent are floats. A float that overflows is no number at all.
-/

namespace RangeAdvisor

/-- The value of a written number. -/
inductive Number where
  /-- An integer in `[0, 2^64)`. -/
  | nat (n : Nat)
  /-- An integer in `[-2^63, 0)`. -/
  | neg (i : Int)
  | float (x : Float)

namespace Number

/-- The greatest 64-bit unsigned integer. -/
def wordMax : Nat := Nat.pow 2 64 - 1

/-- A significand being gathered: its digits so far, the decimal exponent, and whether a digit
has not fitted. -/
structure Gathering where
  sig : Nat
  exp : Int
  full : Bool

/-- Takes one integer digit. -/
def wholeDigit (g : Gathering) (d : Nat) : Gathering :=
  if g.full then { g with exp := g.exp + 1 }
  else if wordMax < g.sig * 10 + d then { g with exp := g.exp + 1, full := true }
  else { g with sig := g.sig * 10 + d }

/-- Takes one fraction digit. -/
def fracDigit (g : Gathering) (d : Nat) : Gathering :=
  if g.full then g
  else if wordMax < g.sig * 10 + d then { g with full := true }
  else { g with sig := g.sig * 10 + d, exp := g.exp - 1 }

/-- `i` moved into the 32-bit signed range. -/
def clampExp (i : Int) : Int := max (-2147483648) (min i 2147483647)

/-- The float `±sig·10^exp`, read by scaling. -/
def scaledFloat (neg : Bool) (sig : Nat) (exp : Int) : Option Number :=
  (Decimal.scaled sig exp).map fun x => .float (if neg then -x else x)

/-- The value of a written number, `none` when it is out of the float range. -/
def ofNumeral (n : Numeral) : Option Number :=
  let w := n.whole.foldl wholeDigit ⟨0, 0, false⟩
  if n.frac.isEmpty ∧ n.exp.isNone ∧ ¬w.full then
    if ¬n.neg then some (.nat w.sig)
    else if w.sig = 0 ∨ Nat.pow 2 63 < w.sig then some (.float (-(Float.ofNat w.sig)))
    else some (.neg (-(w.sig : Int)))
  else
    let f := n.frac.foldl fracDigit { w with full := false }
    match n.exp with
    | none => scaledFloat n.neg f.sig f.exp
    | some e =>
      if 2147483647 < e.natAbs then
        if f.sig ≠ 0 ∧ 0 ≤ e then none else some (.float (if n.neg then -0.0 else 0.0))
      else scaledFloat n.neg f.sig (clampExp (f.exp + e))

/-- The number as a float; integers are rounded to the nearest float. -/
def toFloat : Number → Float
  | .nat n => Float.ofNat n
  | .neg i => Float.ofInt i
  | .float x => x

/-- The number as an integer, `none` for a float. -/
def toInt? : Number → Option Int
  | .nat n => some n
  | .neg i => some i
  | .float _ => none

end Number

namespace Json

/-- The value of a number, `none` for anything else or a number out of range. -/
def number? : Json → Option Number
  | .num n => Number.ofNumeral n
  | _ => none

/-- A number as a float. -/
def float? (j : Json) : Option Float := j.number?.map Number.toFloat

/-- A number written as an integer. -/
def int? (j : Json) : Option Int := j.number? >>= Number.toInt?

end Json

end RangeAdvisor
