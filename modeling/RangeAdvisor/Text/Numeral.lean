import RangeAdvisor.Decimal.Reading

/-!
# Numerals in settings

Settings are read from text. An unsigned count is an optional `+` and one or more ASCII digits,
within the 32-bit range. A float is an optional sign, then either `inf`, `infinity` or `nan` in any
case, or digits with an optional point and fraction (at least one digit in all) and an optional
exponent `e` or `E` with an optional sign and at least one digit; its value is the nearest float.
Nothing else may stand in the text: no blanks, no `_`, no hexadecimal.
-/

namespace RangeAdvisor.Text

/-- The digits at the start of a text and the rest. -/
def digitsPrefix (cs : List Char) : List Char × List Char :=
  (cs.takeWhile Char.isDigit, cs.dropWhile Char.isDigit)

/-- The value of a run of digits. -/
def digitsValue (ds : List Char) : Nat := ds.foldl (fun a c => a * 10 + (c.toNat - '0'.toNat)) 0

/-- Reads an unsigned 32-bit count. -/
def readCount (s : String) : Option UInt32 :=
  let cs := match s.toList with
    | '+' :: rest => rest
    | cs => cs
  if cs.isEmpty || !cs.all Char.isDigit then none
  else
    let v := digitsValue cs
    if v < Nat.pow 2 32 then some v.toUInt32 else none

/-- The text in ASCII lower case. -/
def lowerChars (cs : List Char) : List Char :=
  cs.map fun c => if 'A' ≤ c ∧ c ≤ 'Z' then Char.ofNat (c.toNat + 32) else c

/-- Reads an unsigned decimal float without its sign. -/
def readMagnitude (cs : List Char) : Option Float :=
  match lowerChars cs with
  | ['i', 'n', 'f'] | ['i', 'n', 'f', 'i', 'n', 'i', 't', 'y'] => some (1.0 / 0.0)
  | ['n', 'a', 'n'] => some (0.0 / 0.0)
  | _ =>
    let (whole, rest) := digitsPrefix cs
    let (frac, rest) := match rest with
      | '.' :: r => digitsPrefix r
      | r => ([], r)
    let exp? : Option Int := match rest with
      | [] => some 0
      | e :: r =>
        if e = 'e' ∨ e = 'E' then
          let (neg, r) := match r with
            | '-' :: r' => (true, r')
            | '+' :: r' => (false, r')
            | r' => (false, r')
          if !r.isEmpty && r.all Char.isDigit then
            some (if neg then -(digitsValue r : Int) else (digitsValue r : Int))
          else none
        else none
    if whole.isEmpty && frac.isEmpty then none
    else exp?.map fun e => Decimal.nearest false (digitsValue (whole ++ frac)) (e - frac.length)

/-- Reads a float. -/
def readFloat (s : String) : Option Float :=
  match s.toList with
  | '-' :: rest => (readMagnitude rest).map fun x => -x
  | '+' :: rest => readMagnitude rest
  | cs => readMagnitude cs

end RangeAdvisor.Text
