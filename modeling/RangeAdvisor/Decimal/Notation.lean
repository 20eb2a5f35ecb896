import RangeAdvisor.Binary64.Parts
import RangeAdvisor.Decimal.Shortest
import RangeAdvisor.Decimal.Numeral

/-!
# Notations for floats

A `Notation` gathers the layout decisions for writing a float from its shortest digits: which
exponents of the leading digit are written positionally, whether an integer keeps a `.0`, how a tie
between two shortest candidates goes, and the texts of NaN and infinity. One function then writes
every float of a notation, so two outputs that differ only in layout differ only in their record.
-/

namespace RangeAdvisor

/-- Layout decisions for the text of a float. -/
structure Notation where
  /-- Least exponent of the leading digit written positionally; `none` when there is no least. -/
  leastPositional : Option Int
  /-- Greatest exponent of the leading digit written positionally; `none` when there is none. -/
  greatestPositional : Option Int
  /-- Whether an integer written positionally keeps a `.0`. -/
  pointZero : Bool
  /-- How a tie between two shortest candidates is settled. -/
  tie : Decimal.Tie
  /-- Text of NaN. -/
  nan : String
  /-- Text of positive infinity; negative infinity has a minus sign before it. -/
  infinity : String

namespace Notation

/-- Whether the leading-digit exponent `lead` is written positionally. -/
def positional (n : Notation) (lead : Int) : Bool :=
  (match n.leastPositional with | none => true | some l => decide (l ≤ lead)) &&
  (match n.greatestPositional with | none => true | some g => decide (lead ≤ g))

/-- Lays out `±d·10^k` (`d` without trailing zeros) as a numeral. -/
def layout (n : Notation) (neg : Bool) (d : Decimal) : Numeral :=
  let ds := Decimal.digitList d.digits
  let len : Int := ds.length
  let lead := d.exponent + len - 1
  let zeroFrac := if n.pointZero then [0] else []
  if d.digits = 0 then ⟨neg, [0], zeroFrac, none⟩
  else if n.positional lead then
    if 0 ≤ d.exponent then ⟨neg, ds ++ List.replicate d.exponent.toNat 0, zeroFrac, none⟩
    else if 0 ≤ lead then ⟨neg, ds.take (lead + 1).toNat, ds.drop (lead + 1).toNat, none⟩
    else ⟨neg, [0], List.replicate (-(lead + 1)).toNat 0 ++ ds, none⟩
  else ⟨neg, ds.take 1, ds.drop 1, some lead⟩

/-- The numeral of a finite float, `none` for NaN and the infinities. -/
def numeral? (n : Notation) (x : Float) : Option Numeral :=
  match Binary64.ofFloat x with
  | .finite neg m e => some (n.layout neg (Decimal.shortest m e n.tie))
  | _ => none

/-- The text of a float in this notation. -/
def render (n : Notation) (x : Float) : String :=
  match Binary64.ofFloat x with
  | .nan => n.nan
  | .inf neg => (if neg then "-" else "") ++ n.infinity
  | .finite neg m e => (n.layout neg (Decimal.shortest m e n.tie)).toText

end Notation

end RangeAdvisor
