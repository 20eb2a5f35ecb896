import RangeAdvisor.Report.Bins
import RangeAdvisor.Report.Rebalance
import RangeAdvisor.Advisor

/-!
# Answers of the advisor

The JSON form of what the snapshot and the advisor return: reserves, sampled bins, price series,
quotes by mint, paired deposits and position reviews.
-/

namespace RangeAdvisor.Report

/-- The reserves of a bin. -/
def reserves (r : Reserves) : Json :=
  .obj [("bin_id", int32 r.binId), ("x_amount", float r.x), ("y_amount", float r.y)]

/-- A sampled bin. -/
def sample (s : BinSample) : Json :=
  .obj [("bin_id", int32 s.binId), ("price", float s.price), ("x_amount", float s.x),
    ("y_amount", float s.y)]

/-- A point of a price series. -/
def point (p : PricePoint) : Json :=
  .obj [("timestamp", Json.ofInt p.timestamp.toInt), ("price", float p.price)]

/-- Quotes by mint. -/
def quotes (q : Quotes) : Json := .obj (q.map fun (m, p) => (m, float p))

/-- A paired deposit. -/
def pairing (p : Pairing) : Json :=
  .obj [("solved", deposit p.solved), ("quote", quote p.quote), ("amount_y", float p.quote.amountY)]

/-- A position review, with the record of a move when a new range is given. -/
def review (r : Review) (newRange : Option BinRange) : Json :=
  let base := [("range", binRange r.range), ("analysis", analysis r.analysis),
    ("cost_benefit", costBenefit r.costBenefit), ("unclaimed_fees_usd", float r.unclaimedUsd),
    ("sol_usd", float r.solUsd)]
  match newRange with
  | some nr => .obj (base ++ [("record", record (r.record nr))])
  | none => .obj base

end RangeAdvisor.Report
