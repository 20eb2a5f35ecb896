import RangeAdvisor.Decimal.Notation
import RangeAdvisor.Json.Basic

/-!
# Writing JSON text

Values are written compactly, members in their order. A string escapes the quote, the backslash
and the control characters and keeps every other character. A float is written with its shortest
digits in `Json.floatNotation`. A value with an unpaired surrogate has no text and is written as
`null`.
-/

namespace RangeAdvisor.Json

/-- Floats in JSON text: positional for leading-digit exponents from -5 to 15, otherwise `1e16`
or `1.5e-7`; an integer keeps `.0`; a tie between two shortest candidates goes to the even one. -/
def floatNotation : Notation :=
  ⟨some (-5), some 15, true, .even, "NaN", "inf"⟩

/-- A finite float as a JSON number, and `null` for NaN and the infinities, which JSON lacks. -/
def ofFloat (x : Float) : Json :=
  match floatNotation.numeral? x with
  | some n => .num n
  | none => .null

/-- An integer as a JSON number. -/
def ofInt (i : Int) : Json := .num (Numeral.ofInt i)

/-- Hexadecimal digit characters. -/
def hexChar (n : Nat) : Char := if n < 10 then Char.ofNat (48 + n) else Char.ofNat (87 + n)

/-- The escaped form of one character inside a string. -/
def escapeChar (c : Char) : List Char :=
  if c = '"' then ['\\', '"']
  else if c = '\\' then ['\\', '\\']
  else if c = '\n' then ['\\', 'n']
  else if c = '\r' then ['\\', 'r']
  else if c = '\t' then ['\\', 't']
  else if c.toNat = 8 then ['\\', 'b']
  else if c.toNat = 12 then ['\\', 'f']
  else if c.toNat < 0x20 then ['\\', 'u', '0', '0', hexChar (c.toNat / 16), hexChar (c.toNat % 16)]
  else [c]

/-- A string in quotes with its escapes. -/
def quote (s : String) : String :=
  String.ofList ('"' :: (s.toList.flatMap escapeChar ++ ['"']))

mutual

/-- The compact text of a value. -/
def render : Json → String
  | .null => "null"
  | .bool b => if b then "true" else "false"
  | .num n => n.toText
  | .str s => quote s
  | .arr items => "[" ++ renderItems items ++ "]"
  | .obj members => "\x7b" ++ renderMembers members ++ "\x7d"
  | .unpaired => "null"

/-- Items separated by commas. -/
def renderItems : List Json → String
  | [] => ""
  | [v] => render v
  | v :: rest => render v ++ "," ++ renderItems rest

/-- Members separated by commas. -/
def renderMembers : List (String × Json) → String
  | [] => ""
  | [(k, v)] => quote k ++ ":" ++ render v
  | (k, v) :: rest => quote k ++ ":" ++ render v ++ "," ++ renderMembers rest

end

end RangeAdvisor.Json
