import RangeAdvisor.Decimal.Basic

/-!
# Written numbers

A `Numeral` is a number as it is written: a sign, the digits before the point, the digits after
it, and an optional power of ten. Writing one is plain concatenation; the choice of digits and of
layout is made before.
-/

namespace RangeAdvisor

/-- A number as written: `-`, integer digits, `.` and fraction digits, `e` and an exponent. -/
structure Numeral where
  neg : Bool
  whole : List Nat
  frac : List Nat
  exp : Option Int
  deriving DecidableEq

namespace Numeral

/-- The character of a decimal digit. -/
def digitChar (d : Nat) : Char := Char.ofNat ('0'.toNat + d)

/-- The text of a numeral. -/
def toText (n : Numeral) : String :=
  let sign := if n.neg then "-" else ""
  let whole := String.ofList (n.whole.map digitChar)
  let frac := if n.frac.isEmpty then "" else "." ++ String.ofList (n.frac.map digitChar)
  let exp := match n.exp with
    | none => ""
    | some k => "e" ++ toString k
  sign ++ whole ++ frac ++ exp

/-- An integer written plainly. -/
def ofInt (i : Int) : Numeral := ⟨i < 0, Decimal.digitList i.natAbs, [], none⟩

end Numeral

end RangeAdvisor
