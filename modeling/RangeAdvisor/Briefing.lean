import RangeAdvisor.Advisor
import RangeAdvisor.Snapshot.Decode
import RangeAdvisor.Report.Rebalance
import RangeAdvisor.Json.Writer
import RangeAdvisor.Text.Numeral

/-!
# Briefings

A briefing runs the advisor once over a recorded snapshot for its own pool and reports, in order:
the rationale of a recommendation for the chosen strategy; when an amount of X is given, the cross
check's warning and the amount of Y to pair with it over the recommended range; when the snapshot
holds a position that should move, the record of moving it to the recommended range; and a warning
when the pool's price is off the oracle's. The first error stops the briefing, after the notes
already made.

The request is read from variables by name: `STRATEGY` (spot when absent), `AMOUNT_X` (read
exactly, without trimming) and the names of `Settings.ofLookup`.
-/

namespace RangeAdvisor

/-- One line of a briefing. -/
inductive Note where
  /-- A line of the recommendation's rationale. -/
  | rationale (line : String)
  /-- The cross check's warning about the paired amount. -/
  | amountWarning (text : String)
  /-- The amount of Y paired with an amount of X over the recommended range. -/
  | deposit (amountX amountY : Float)
  /-- A suggested move of the recorded position. -/
  | rebalance (record : RebalanceRecord)
  /-- The pool's price deviates from the oracle's beyond the limit. -/
  | offOracle (deviation : Float)

/-- Why a briefing stopped. -/
inductive BriefingError where
  /-- The advisor refused a request. -/
  | advisor (e : AdvisorError)
  /-- The amount of X is not a float. -/
  | badAmount (text : String)
  /-- The snapshot text is not a snapshot document. -/
  | unreadableSnapshot

namespace Note

/-- Floats in notes: shortest digits, positional for leading-digit exponents from -4 to 15, an
integer keeps `.0`. -/
def floatNotation : Notation := ⟨some (-4), some 15, true, .even, "NaN", "inf"⟩

/-- The text of a note, with its level and topic. -/
def text : Note → String
  | .rationale line => "INFO [RANGE] " ++ line
  | .amountWarning w => "WARN [AMOUNT] " ++ w
  | .deposit x y => "INFO [AMOUNT] deposit for recommended range amount_x=" ++
      floatNotation.render x ++ " amount_y=" ++ floatNotation.render y
  | .rebalance r => "INFO [REBAL] rebalance suggested record=" ++ Json.render (Report.record r)
  | .offOracle d => "WARN [HEALTH] pool price is off the oracle; treat the range with care deviation=" ++
      floatNotation.render d

end Note

namespace BriefingError

/-- The sentence shown for an error. -/
def message : BriefingError → String
  | .advisor e => e.message
  | .badAmount text =>
    if text.isEmpty then "Parse float error: cannot parse float from empty string"
    else "Parse float error: invalid float literal"
  | .unreadableSnapshot => "Serialization error: the snapshot is not a snapshot document"

end BriefingError

/-- The notes of a briefing and the error that stopped it, if one did. -/
structure Briefing where
  notes : List Note
  failure : Option BriefingError

namespace Briefing

/-- A briefing that stopped at an error after some notes. -/
def stopped (notes : List Note) (e : BriefingError) : Briefing := ⟨notes, some e⟩

/-- The notes after the recommendation: the paired deposit, the position's move and the health
warning. -/
def afterRecommendation (a : Advisor) (r : Recommendation) (amountX : Option Float)
    (healthy : Bool) (deviation : Float) : Briefing :=
  let paired : Except AdvisorError (List Note) := match amountX with
    | none => .ok []
    | some x => (a.pairedAmount a.source.pool r.range x a.source.referenceAmountY).map fun p =>
      p.quote.warning.toList.map Note.amountWarning ++ [Note.deposit x p.quote.amountY]
  match paired with
  | .error e => stopped [] (.advisor e)
  | .ok deposit =>
    let move := match a.source.position with
      | some pos =>
        let review := a.evaluatePosition a.source.pool pos none
        if review.analysis.priority.shouldRebalance then [Note.rebalance (review.record r.range)]
        else []
      | none => []
    let warning := if healthy then [] else [Note.offOracle deviation]
    ⟨deposit ++ move ++ warning, none⟩

/-- Briefs on a snapshot with the request's variables. -/
def run (lookup : String → Option String) (snapshotText : String) : Briefing :=
  match Strategy.parse ((lookup "STRATEGY").getD "spot") with
  | .error e => stopped [] (.advisor e)
  | .ok strategy =>
    let amount : Except BriefingError (Option Float) := match lookup "AMOUNT_X" with
      | none => .ok none
      | some t => match Text.readFloat t with
        | some x => .ok (some x)
        | none => .error (.badAmount t)
    match amount with
    | .error e => stopped [] e
    | .ok amountX =>
      match Snapshot.read snapshotText with
      | none => stopped [] .unreadableSnapshot
      | some snap =>
        let a : Advisor := ⟨snap, Settings.ofLookup lookup⟩
        let health := a.priceHealth snap.pool
        match a.recommend snap.pool strategy with
        | .error e => stopped [] (.advisor e)
        | .ok r =>
          let rest := afterRecommendation a r amountX health.healthy health.deviation
          ⟨r.rationale.map Note.rationale ++ rest.notes, rest.failure⟩

end Briefing

end RangeAdvisor
