import RangeAdvisor.Decimal.Notation

/-!
# Errors of the advisor

Each error names its cause. `AdvisorError.kind` groups causes into the five kinds the advisor
reports, and `AdvisorError.message` gives the sentence shown for it.
-/

namespace RangeAdvisor

/-- The kinds of error: bad settings, bad input, a range too wide, missing data, and a failed
call to a data source. -/
inductive ErrorKind where
  | config
  | invalidInput
  | rangeTooWide
  | dataUnavailable
  | external
  deriving DecidableEq

/-- Why a request was refused. -/
inductive AdvisorError where
  /-- A bin step of zero basis points. -/
  | zeroBinStep
  /-- A range whose lower bin is above its upper bin. -/
  | invertedRange (lower upper : Int32)
  /-- A range of more bins than a position may hold. -/
  | rangeTooWide (span limit : UInt32)
  /-- An amount of X that is negative, infinite or NaN. -/
  | badAmountX (x : Float)
  /-- A strategy name that names no strategy. -/
  | unknownStrategy (name : String)
  /-- The active bin is not among the recorded bins. -/
  | activeBinMissing (id : Int32)
  /-- The snapshot records no bins. -/
  | noBinsRecorded

namespace AdvisorError

/-- The kind of each cause. -/
def kind : AdvisorError → ErrorKind
  | .zeroBinStep | .invertedRange .. | .badAmountX _ => .invalidInput
  | .rangeTooWide .. => .rangeTooWide
  | .unknownStrategy _ => .config
  | .activeBinMissing _ => .dataUnavailable
  | .noBinsRecorded => .external

/-- Amounts in messages: shortest digits, always positional, an integer without a point. -/
def amountNotation : Notation := ⟨none, none, false, .up, "NaN", "inf"⟩

/-- The sentence shown for an error. -/
def message : AdvisorError → String
  | .zeroBinStep => "Invalid input: bin step must be greater than zero"
  | .invertedRange lower upper =>
    s!"Invalid input: min bin {lower.toInt} is above max bin {upper.toInt}"
  | .rangeTooWide span limit =>
    s!"Range spans {span} bins, exceeding the protocol limit of {limit} bins per position"
  | .badAmountX x =>
    "Invalid input: amount_x must be a finite non-negative number, got " ++ amountNotation.render x
  | .unknownStrategy name => s!"Configuration error: unknown strategy '{name}'"
  | .activeBinMissing id => s!"Data unavailable: active bin {id.toInt} not in fixture"
  | .noBinsRecorded => "External call failed (fixture): no bins recorded"

end AdvisorError

end RangeAdvisor
