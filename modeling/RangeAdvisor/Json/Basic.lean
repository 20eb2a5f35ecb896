import RangeAdvisor.Decimal.Numeral

/-!
# JSON values

A JSON value keeps its numbers as written, so that a number is turned into an integer or a float
only when a reader asks for one of these, by the rules of `Json.Number`. Objects keep their
members in the order written, duplicates included. A string or key whose escapes leave a surrogate
unpaired is grammatical but is no text; a lenient reading keeps such a value as `unpaired`, which
a reader may skip but cannot use.
-/

namespace RangeAdvisor

/-- A JSON value; numbers as written and object members in order. -/
inductive Json where
  | null
  | bool (b : Bool)
  | num (n : Numeral)
  | str (s : String)
  | arr (items : List Json)
  | obj (members : List (String × Json))
  /-- A string, or an object with a key, whose escapes leave a surrogate unpaired. -/
  | unpaired

namespace Json

/-- The value of the last member named `key`, as a later member overrides an earlier one. -/
def field? (j : Json) (key : String) : Option Json :=
  match j with
  | .obj members => (members.reverse.find? fun m => m.1 == key).map (·.2)
  | _ => none

/-- Whether the value is `null`. -/
def isNull : Json → Bool
  | .null => true
  | _ => false

/-- The text of a string value. -/
def str? : Json → Option String
  | .str s => some s
  | _ => none

/-- The items of an array. -/
def arr? : Json → Option (List Json)
  | .arr items => some items
  | _ => none

/-- The members of an object. -/
def obj? : Json → Option (List (String × Json))
  | .obj members => some members
  | _ => none

/-- The boolean of a `true` or `false`. -/
def bool? : Json → Option Bool
  | .bool b => some b
  | _ => none

end Json

end RangeAdvisor
