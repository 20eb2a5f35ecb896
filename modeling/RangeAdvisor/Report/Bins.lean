import RangeAdvisor.Report.Basic
import RangeAdvisor.Bins.Deposit

/-!
# Answers about bins and deposits

The JSON form of price ranges, solved deposits and cross-checked quotes.
-/

namespace RangeAdvisor.Report

/-- Prices at the edges and the middle of a range. -/
def priceRange (p : PriceRange) : Json :=
  .obj [("min", float p.min), ("center", float p.center), ("max", float p.max)]

/-- A solved deposit. -/
def deposit (d : Deposit) : Json :=
  .obj [("amount_y", float d.amountY), ("capacity_x", float d.capacityX),
    ("capacity_y", float d.capacityY), ("degenerate", .bool d.degenerate)]

/-- The name of an amount source. -/
def amountSource : AmountSource → Json
  | .binSpread => .str "BinSpread"
  | .reference => .str "Reference"

/-- A cross-checked quote. -/
def quote (q : Quote) : Json :=
  .obj [("amount_y", float q.amountY), ("source", amountSource q.source),
    ("bin_spread_amount_y", float q.binSpreadAmountY),
    ("reference_amount_y", opt float q.referenceAmountY),
    ("divergence", opt float q.divergence), ("warning", opt Json.str q.warning)]

end RangeAdvisor.Report
