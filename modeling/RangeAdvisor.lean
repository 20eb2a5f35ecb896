import RangeAdvisor.Binary64.Parts
import RangeAdvisor.Saturating
import RangeAdvisor.Decimal.Basic
import RangeAdvisor.Decimal.Shortest
import RangeAdvisor.Decimal.Numeral
import RangeAdvisor.Decimal.Notation
import RangeAdvisor.Decimal.Fixed
import RangeAdvisor.Decimal.Reading
import RangeAdvisor.Json.Basic
import RangeAdvisor.Json.Number
import RangeAdvisor.Json.Reader
import RangeAdvisor.Json.Writer
import RangeAdvisor.Error
import RangeAdvisor.Bins.Price
import RangeAdvisor.Bins.Range
import RangeAdvisor.Report.Basic
import RangeAdvisor.Binary64.Order
import RangeAdvisor.Pool
import RangeAdvisor.Bins.Deposit
import RangeAdvisor.Market.Volatility
import RangeAdvisor.Market.Context
import RangeAdvisor.Market.Health
import RangeAdvisor.Report.Bins
import RangeAdvisor.Report.Market
import RangeAdvisor.Text.Blank
import RangeAdvisor.Strategy.Basic
import RangeAdvisor.Strategy.Coverage
import RangeAdvisor.Strategy.Recommend
import RangeAdvisor.Report.Strategy
import RangeAdvisor.Position
import RangeAdvisor.Rebalance.Cost
import RangeAdvisor.Rebalance.Priority
import RangeAdvisor.Rebalance.Analysis
import RangeAdvisor.Report.Rebalance
import RangeAdvisor.Text.Numeral
import RangeAdvisor.Settings
import RangeAdvisor.Report.Settings
import RangeAdvisor.Snapshot.Basic
import RangeAdvisor.Snapshot.Decode
import RangeAdvisor.Json.Canonical
import RangeAdvisor.Advisor
import RangeAdvisor.Report.Advisor
import RangeAdvisor.Briefing
import RangeAdvisor.Main
import RangeAdvisor.Proofs.Saturating
import RangeAdvisor.Proofs.RangeShape
import RangeAdvisor.Proofs.Admission
import RangeAdvisor.Proofs.Float.Nearest
import RangeAdvisor.Proofs.Float.Round
import RangeAdvisor.Proofs.Float.Bits
import RangeAdvisor.Proofs.Float.Order
import RangeAdvisor.Proofs.Float.Arith
import RangeAdvisor.Proofs.Float.Floor
import RangeAdvisor.Proofs.Float.Error
import RangeAdvisor.Proofs.Float.Value
import RangeAdvisor.Proofs.Float.Log
import RangeAdvisor.Proofs.Power
import RangeAdvisor.Proofs.BinInverse
import RangeAdvisor.Proofs.Widening
import RangeAdvisor.Proofs.CoverageDepth
import RangeAdvisor.Proofs.SampleOrder
import RangeAdvisor.Proofs.Review
import RangeAdvisor.Proofs.PriceOrder
import RangeAdvisor.Proofs.StableSort
import RangeAdvisor.Proofs.Float.Share
import RangeAdvisor.Proofs.ContextNodes
import RangeAdvisor.Proofs.ShiftReport
import RangeAdvisor.Proofs.DepositChecks
import RangeAdvisor.Proofs.Float.Exact
import RangeAdvisor.Proofs.ReferenceChoice
import RangeAdvisor.Proofs.VolatilityRange
import RangeAdvisor.Proofs.Float.Bounds
import RangeAdvisor.Proofs.DepositCapacity
import RangeAdvisor.Proofs.PriceRatios
import RangeAdvisor.Proofs.Float.Gain
import RangeAdvisor.Proofs.HealthVerdict
import RangeAdvisor.Proofs.Float.Halves
import RangeAdvisor.Proofs.RoundHalfUp
import RangeAdvisor.Proofs.Urgency
import RangeAdvisor.Proofs.Payback
import RangeAdvisor.Proofs.CurveMirror
import RangeAdvisor.Proofs.VolumeBias
import RangeAdvisor.Proofs.RangeCount
import RangeAdvisor.Proofs.SnapshotAnswers
import RangeAdvisor.Proofs.CoverageOverflow
