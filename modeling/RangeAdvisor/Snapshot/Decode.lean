import RangeAdvisor.Json.Reader
import RangeAdvisor.Json.Number
import RangeAdvisor.Snapshot.Basic

/-!
# Reading a snapshot document

A snapshot is read from JSON text by strict rules. A record is either an object whose members are
its fields by name, where a field named twice is refused and other members are ignored, or an
array of its fields in declared order, which may stop early but not run over. A required field must
be there; a field with a default may be left out; `null` stands only for an optional value.
Integers must be written as integers within the range of their type, while a float may be written
as an integer. A table keyed by mint is an object, and of two members with one name the later
counts.
-/

namespace RangeAdvisor.Snapshot.Decode

/-- The values of a record's fields, in the order of `names`. -/
def fieldValues (names : List String) : Json → Option (List (Option Json))
  | .obj members =>
    if names.any fun n => (members.filter (·.1 == n)).length > 1 then none
    else some (names.map fun n => (members.find? (·.1 == n)).map (·.2))
  | .arr items =>
    if names.length < items.length then none else some ((List.range names.length).map (items[·]?))
  | _ => none

/-- A field that must be present. -/
def required {α : Type} (v : Option Json) (f : Json → Option α) : Option α := v >>= f

/-- A field that takes a default when left out. -/
def withDefault {α : Type} (v : Option Json) (f : Json → Option α) (d : α) : Option α :=
  match v with
  | none => some d
  | some j => f j

/-- An optional field: left out or `null` is none. -/
def optional {α : Type} (v : Option Json) (f : Json → Option α) : Option (Option α) :=
  match v with
  | none => some none
  | some .null => some none
  | some j => (f j).map some

/-- A float, written as any number in range. -/
def float (j : Json) : Option Float :=
  match j with
  | .num n => (Number.ofNumeral n).map Number.toFloat
  | _ => none

/-- An integer written as one, within `[lo, hi]`. -/
def intIn (lo hi : Int) (j : Json) : Option Int :=
  match j with
  | .num n => (Number.ofNumeral n >>= Number.toInt?).filter fun i => lo ≤ i ∧ i ≤ hi
  | _ => none

/-- A 32-bit signed integer. -/
def int32 (j : Json) : Option Int32 := (intIn (-2147483648) 2147483647 j).map Int32.ofInt

/-- A 64-bit signed integer. -/
def int64 (j : Json) : Option Int64 :=
  (intIn (-9223372036854775808) 9223372036854775807 j).map Int64.ofInt

/-- A 16-bit unsigned integer. -/
def word16 (j : Json) : Option UInt16 := (intIn 0 65535 j).map fun i => i.toNat.toUInt16

/-- An 8-bit unsigned integer. -/
def byte (j : Json) : Option UInt8 := (intIn 0 255 j).map fun i => i.toNat.toUInt8

/-- A string. -/
def string (j : Json) : Option String := j.str?

/-- An array of items. -/
def list {α : Type} (f : Json → Option α) (j : Json) : Option (List α) := j.arr? >>= (·.mapM f)

/-- A table by name; a later member replaces an earlier one of the same name. -/
def table {α : Type} (f : Json → Option α) (j : Json) : Option (List (String × α)) := do
  let members ← j.obj?
  let values ← members.mapM fun (k, v) => (f v).map (k, ·)
  pure (values.foldl (fun acc e => acc.filter (·.1 != e.1) ++ [e]) [])

/-- A token. -/
def token (j : Json) : Option Token := do
  let [mint, symbol, decimals] ← fieldValues ["mint", "symbol", "decimals"] j | none
  pure ⟨← required mint string, ← required symbol string, ← required decimals byte⟩

/-- A pool. -/
def pool (j : Json) : Option Pool := do
  let [address, tokenX, tokenY, step, active, price, tvl, volume, apr] ← fieldValues
    ["address", "token_x", "token_y", "bin_step", "active_bin_id", "price", "tvl", "volume_24h",
      "apr"] j | none
  pure ⟨← required address string, ← required tokenX token, ← required tokenY token,
    ← required step word16, ← required active int32, ← optional price float, ← optional tvl float,
    ← optional volume float, ← optional apr float⟩

/-- A sampled bin. -/
def sample (j : Json) : Option BinSample := do
  let [binId, price, x, y] ← fieldValues ["bin_id", "price", "x_amount", "y_amount"] j | none
  pure ⟨← required binId int32, ← withDefault price float 0.0, ← required x float,
    ← required y float⟩

/-- A point of a price series. -/
def point (j : Json) : Option PricePoint := do
  let [timestamp, price] ← fieldValues ["timestamp", "price"] j | none
  pure ⟨← required timestamp int64, ← required price float⟩

/-- A position's bin. -/
def positionBin (j : Json) : Option PositionBin := do
  let [binId, x, y] ← fieldValues ["bin_id", "x_amount", "y_amount"] j | none
  pure ⟨← required binId int32, ← required x float, ← required y float⟩

/-- A position. -/
def position (j : Json) : Option Position := do
  let [key, poolAddress, lower, upper, active, x, y, feeX, feeY, bins] ← fieldValues
    ["public_key", "pool_address", "lower_bin_id", "upper_bin_id", "active_bin_id", "x_amount",
      "y_amount", "fee_x", "fee_y", "bins"] j | none
  pure ⟨← required key string, ← required poolAddress string, ← required lower int32,
    ← required upper int32, ← required active int32, ← required x float, ← required y float,
    ← withDefault feeX float 0.0, ← withDefault feeY float 0.0,
    ← withDefault bins (list positionBin) []⟩

/-- A snapshot. -/
def snapshot (j : Json) : Option Snapshot := do
  let [pool', bins, quotes, series, position', reference] ← fieldValues
    ["pool", "bins", "usd_prices", "price_series", "position", "reference_amount_y"] j | none
  pure ⟨← required pool' pool, ← withDefault bins (list sample) [],
    ← withDefault quotes (table float) [], ← withDefault series (table (list point)) [],
    ← optional position' position, ← optional reference float⟩

end Decode

/-- Reads a snapshot from JSON text; none when the text is not JSON or not a snapshot. -/
def read (text : String) : Option Snapshot :=
  match Json.parseLenient text with
  | .ok j => Decode.snapshot j
  | .error _ => none

end RangeAdvisor.Snapshot
