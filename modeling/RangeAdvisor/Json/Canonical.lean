import RangeAdvisor.Json.Number
import RangeAdvisor.Json.Writer

/-!
# Canonical JSON values

The form a JSON library gives a value when it holds numbers as 64-bit integers or floats and
objects as maps keyed by name: each number rewritten in its shortest form, each object with one
member per name, the last one written, in order of names. A number beyond the float range has no
such form.
-/

namespace RangeAdvisor.Json

/-- One member per name, the last one, sorted by name. -/
def lastByName (members : List (String × Json)) : List (String × Json) :=
  let kept := members.foldl (fun acc e => acc.filter (·.1 != e.1) ++ [e]) []
  kept.mergeSort fun a b => decide (a.1 ≤ b.1)

/-- A number as an integer or a float, in its shortest form. -/
def canonicalNumber : Number → Json
  | .nat k => ofInt k
  | .neg i => ofInt i
  | .float x => ofFloat x

mutual

/-- The canonical form of a value. -/
def canonical : Json → Option Json
  | .num n => (Number.ofNumeral n).map canonicalNumber
  | .arr items => (canonicalItems items).map .arr
  | .obj members => (canonicalMembers members).map fun ms => .obj (lastByName ms)
  | j => some j

/-- The canonical forms of items. -/
def canonicalItems : List Json → Option (List Json)
  | [] => some []
  | j :: rest => do pure ((← canonical j) :: (← canonicalItems rest))

/-- The canonical forms of members' values. -/
def canonicalMembers : List (String × Json) → Option (List (String × Json))
  | [] => some []
  | (k, v) :: rest => do pure ((k, ← canonical v) :: (← canonicalMembers rest))

end

end RangeAdvisor.Json
