import RangeAdvisor.Json.Writer
import RangeAdvisor.Error

/-!
# Answers as JSON

The JSON form of values the advisor returns. A finite float is a number; NaN and the infinities,
which JSON lacks, are the strings `"nan"`, `"inf"` and `"-inf"`; an absent value is `null`. An
error is an object with its kind and its message.
-/

namespace RangeAdvisor.Report

/-- A float as a JSON number, or the string of a value JSON lacks. -/
def float (x : Float) : Json :=
  match Binary64.ofFloat x with
  | .nan => .str "nan"
  | .inf neg => .str (if neg then "-inf" else "inf")
  | .finite .. => Json.ofFloat x

/-- An optional value, `null` when absent. -/
def opt {α : Type} (f : α → Json) : Option α → Json
  | some a => f a
  | none => .null

/-- A 32-bit integer. -/
def int32 (i : Int32) : Json := Json.ofInt i.toInt

/-- A natural number. -/
def nat (n : Nat) : Json := Json.ofInt n

/-- The name of an error kind. -/
def kindName : ErrorKind → String
  | .config => "Config"
  | .invalidInput => "InvalidInput"
  | .rangeTooWide => "RangeTooWide"
  | .dataUnavailable => "DataUnavailable"
  | .external => "External"

/-- An error as its kind and message. -/
def error (e : AdvisorError) : Json :=
  .obj [("error", .str (kindName e.kind)), ("message", .str e.message)]

end RangeAdvisor.Report
