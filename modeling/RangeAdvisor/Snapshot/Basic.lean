import RangeAdvisor.Error
import RangeAdvisor.Pool
import RangeAdvisor.Position

/-!
# Recorded snapshots

A snapshot records a pool, samples of its bins, USD quotes and price series per mint, optionally a
position and a reference amount. It answers the questions a live data source would: the active
bin's reserves, the bins near it, quotes, a recent window of a price series, and the ratio of two
quotes. Its own pool decides which bin is active.
-/

namespace RangeAdvisor

/-- Prices by mint, one per mint. -/
abbrev Quotes := List (String × Float)

/-- The price of a mint. -/
def Quotes.price? (q : Quotes) (mint : String) : Option Float :=
  (List.find? (fun e => e.1 == mint) q).map (·.2)

/-- A recorded snapshot of a pool and its market. -/
structure Snapshot where
  pool : Pool
  bins : List BinSample
  quotes : Quotes
  series : List (String × List PricePoint)
  position : Option Position
  referenceAmountY : Option Float

/-- The mint of wrapped SOL, which prices the cost of actions. -/
def solMint : String := "So11111111111111111111111111111111111111112"

namespace Snapshot

/-- The first recorded bin at the active bin, or an error naming the missing bin. -/
def activeBin (s : Snapshot) : Except AdvisorError Reserves :=
  match s.bins.find? (·.binId == s.pool.activeBin) with
  | some b => .ok ⟨b.binId, b.x, b.y⟩
  | none => .error (.activeBinMissing s.pool.activeBin)

/-- The recorded bins within `radius` of the active bin, in recorded order; an error when no bin
is recorded. -/
def binsAround (s : Snapshot) (radius : UInt32) : Except AdvisorError (List BinSample) :=
  if s.bins.isEmpty then .error .noBinsRecorded
  else .ok (s.bins.filter fun b => (b.binId.toInt - s.pool.activeBin.toInt).natAbs ≤ radius.toNat)

/-- A list sorted by key with each key once: of neighbours with the same key the first stays. -/
def dedupSorted : Quotes → Quotes
  | a :: b :: rest => if a.1 == b.1 then dedupSorted (a :: rest) else a :: dedupSorted (b :: rest)
  | q => q

/-- Quotes of the mints that have one, sorted by mint and each once. -/
def usdPrices (s : Snapshot) (mints : List String) : Quotes :=
  let found := mints.filterMap fun m => (s.quotes.price? m).map (m, ·)
  dedupSorted (found.mergeSort fun a b => decide (a.1 ≤ b.1))

/-- The points of a mint's series from `hours` before its latest point on, sorted by time; none
for a mint without points. -/
def usdPriceSeries (s : Snapshot) (mint : String) (hours : UInt32) : Option (List PricePoint) := do
  let series ← (s.series.find? (·.1 == mint)).map (·.2)
  let latest ← (series.map (·.timestamp.toInt)).max?
  let cutoff := latest - 3600 * hours.toNat
  pure ((series.filter fun p => cutoff ≤ p.timestamp.toInt).mergeSort
    fun a b => a.timestamp ≤ b.timestamp)

/-- The ratio of two quotes, when both exist and the second is positive. -/
def priceRatio (s : Snapshot) (mintX mintY : String) : Option Float := do
  let x ← s.quotes.price? mintX
  let y ← s.quotes.price? mintY
  if y ≤ 0 then none else some (x / y)

end Snapshot

end RangeAdvisor
