import RangeAdvisor.Proofs.PriceRatios
import RangeAdvisor.Proofs.Review
import RangeAdvisor.Proofs.Float.Gain

/-!
# What a snapshot answers

A snapshot serves the advisor's data requests from what it records. The bins near the active bin
are the recorded bins within the radius, in recorded order, and asking for them fails only when no
bin is recorded. The active bin is the first recorded bin at the pool's active bin. A mint's price
series is the window of its recorded points from `hours` hours before its latest point on, stably
sorted by time, so every point at the latest time is in it; there is none only for a mint with no
points. The ratio of two quotes exists exactly when both mints are quoted and the second quote is
above zero, for quotes that are numbers, as quotes read from a document are. Main statement:
`Snapshot.answers`.
-/

set_option autoImplicit false

namespace RangeAdvisor

namespace Snapshot

variable (s : Snapshot)

/-- The points recorded for a mint. -/
def recorded (mint : String) : Option (List PricePoint) :=
  (s.series.find? (·.1 == mint)).map (·.2)

/-- Every quote is a number, as a quote read from a document is. -/
def NumericQuotes : Prop := ∀ e ∈ s.quotes, e.2.isNaN = false

instance : Decidable s.NumericQuotes := inferInstanceAs (Decidable (∀ e ∈ s.quotes, _))

/-! ### Bins -/

theorem binsAround_eq_error_iff (radius : UInt32) :
    s.binsAround radius = .error .noBinsRecorded ↔ s.bins = [] := by
  by_cases h : s.bins = [] <;> simp [binsAround, h]

/-- With bins recorded, the bins near the active bin are those within the radius, in recorded
order. -/
theorem binsAround_of_ne_nil {radius : UInt32} (h : s.bins ≠ []) :
    s.binsAround radius = .ok (s.bins.filter fun b =>
      decide (|b.binId.toInt - s.pool.activeBin.toInt| ≤ radius.toNat)) := by
  have hnear : ∀ b : BinSample,
      decide ((b.binId.toInt - s.pool.activeBin.toInt).natAbs ≤ radius.toNat) =
        decide (|b.binId.toInt - s.pool.activeBin.toInt| ≤ radius.toNat) :=
    fun b => by rw [decide_eq_decide, abs_le]; omega
  simp only [binsAround, List.isEmpty_iff, h, if_false]
  exact congrArg Except.ok (List.filter_congr fun b _ => hnear b)

/-- The active bin is the first recorded bin at the pool's active bin. -/
theorem activeBin_eq_ok_iff {r : Reserves} :
    s.activeBin = .ok r ↔ ∃ pre b post, s.bins = pre ++ b :: post ∧
      b.binId = s.pool.activeBin ∧ (∀ c ∈ pre, c.binId ≠ s.pool.activeBin) ∧
        r = ⟨b.binId, b.x, b.y⟩ := by
  unfold activeBin
  constructor
  · intro h
    split at h
    · next b hb =>
      obtain ⟨hid, pre, post, hbins, hpre⟩ := List.find?_eq_some_iff_append.mp hb
      refine ⟨pre, b, post, hbins, beq_iff_eq.mp hid, fun c hc => ?_, ?_⟩
      · simpa using hpre c hc
      · cases h
        rfl
    · cases h
  · rintro ⟨pre, b, post, hbins, hid, hpre, rfl⟩
    have hfind : s.bins.find? (·.binId == s.pool.activeBin) = some b :=
      List.find?_eq_some_iff_append.mpr
        ⟨beq_iff_eq.mpr hid, pre, post, hbins, fun c hc => by simpa using hpre c hc⟩
    rw [hfind]

theorem activeBin_eq_error_iff :
    s.activeBin = .error (.activeBinMissing s.pool.activeBin) ↔
      ∀ b ∈ s.bins, b.binId ≠ s.pool.activeBin := by
  unfold activeBin
  cases hfind : s.bins.find? (·.binId == s.pool.activeBin) with
  | none =>
    simp only [true_iff]
    intro b hb hid
    exact absurd (beq_iff_eq.mpr hid) (by simpa using List.find?_eq_none.mp hfind b hb)
  | some b =>
    simp only [reduceCtorEq, false_iff, not_forall, not_not]
    have hid := List.find?_some hfind
    exact ⟨b, List.mem_of_find?_eq_some hfind, by simpa using hid⟩

/-! ### Price series -/

variable {s}

theorem usdPriceSeries_eq_none_iff (mint : String) (hours : UInt32) :
    s.usdPriceSeries mint hours = none ↔ s.recorded mint = none ∨ s.recorded mint = some [] := by
  unfold usdPriceSeries
  cases hrec : s.recorded mint with
  | none =>
    simp only [recorded] at hrec
    simp [hrec]
  | some ps =>
    simp only [recorded] at hrec
    cases ps with
    | nil => simp [hrec]
    | cons p rest => simp [hrec]

/-- The window of a recorded series: the points from `hours` hours before the latest on, stably
sorted by time. -/
theorem usdPriceSeries_of_recorded {mint : String} {ps : List PricePoint}
    (h : s.recorded mint = some ps) {latest : Int} (hmem : ∃ p ∈ ps, p.timestamp.toInt = latest)
    (hmax : ∀ p ∈ ps, p.timestamp.toInt ≤ latest) (hours : UInt32) :
    s.usdPriceSeries mint hours = some (MarketContext.byTime
      (ps.filter fun p => decide (latest - 3600 * hours.toNat ≤ p.timestamp.toInt))) := by
  have hlatest : (ps.map (·.timestamp.toInt)).max? = some latest := by
    rw [List.max?_eq_some_iff]
    obtain ⟨p, hp, hpl⟩ := hmem
    exact ⟨List.mem_map.mpr ⟨p, hp, hpl⟩, by simpa using hmax⟩
  simp only [recorded] at h
  simp [usdPriceSeries, h, hlatest, MarketContext.byTime]

/-- A window holds every point at the latest time. -/
theorem mem_window {ps : List PricePoint} {latest : Int} (hours : UInt32) {p : PricePoint}
    (hp : p ∈ ps) (hpl : p.timestamp.toInt = latest) :
    p ∈ MarketContext.byTime
      (ps.filter fun p => decide (latest - 3600 * hours.toNat ≤ p.timestamp.toInt)) :=
  (List.mergeSort_perm _ _).mem_iff.mpr (List.mem_filter.mpr ⟨hp, by simp; omega⟩)

/-! ### Ratios -/

theorem priceRatio_eq_some_iff (hq : s.NumericQuotes) {mintX mintY : String} {r : Float} :
    s.priceRatio mintX mintY = some r ↔ ∃ x y, s.quotes.price? mintX = some x ∧
      s.quotes.price? mintY = some y ∧ y > 0 ∧ r = x / y := by
  unfold priceRatio
  cases hx : s.quotes.price? mintX with
  | none => simp
  | some x =>
    cases hy : s.quotes.price? mintY with
    | none => simp
    | some y =>
      by_cases hle : y ≤ 0
      · have hnpos : ¬ 0 < y := fun h => Binary64.not_le_of_lt h hle
        simp [hle, hnpos]
      · -- a quote that is a number and not at most zero is above zero
        have hyn : y.isNaN = false := hq (mintY, y) (Quotes.mem_of_price?_eq_some hy)
        have hpos : 0 < y := by
          rcases (Binary64.not_le_iff hyn).mp hle with h0 | hlt
          · exact absurd h0 (by decide)
          · exact hlt
        simp [hle, hpos, eq_comm]

/-! ### Everything a snapshot answers -/

/-- The answers of a snapshot to a bin radius, a series request and a ratio request. -/
structure Answers (s : Snapshot) (radius : UInt32) (mint : String) (hours : UInt32)
    (mintX mintY : String) : Prop where
  bins_error : s.binsAround radius = .error .noBinsRecorded ↔ s.bins = []
  bins_ok : s.bins ≠ [] → s.binsAround radius = .ok (s.bins.filter fun b =>
    decide (|b.binId.toInt - s.pool.activeBin.toInt| ≤ radius.toNat))
  active_ok : ∀ r : Reserves, s.activeBin = .ok r ↔ ∃ pre b post, s.bins = pre ++ b :: post ∧
    b.binId = s.pool.activeBin ∧ (∀ c ∈ pre, c.binId ≠ s.pool.activeBin) ∧ r = ⟨b.binId, b.x, b.y⟩
  active_error : s.activeBin = .error (.activeBinMissing s.pool.activeBin) ↔
    ∀ b ∈ s.bins, b.binId ≠ s.pool.activeBin
  series_none : s.usdPriceSeries mint hours = none ↔
    s.recorded mint = none ∨ s.recorded mint = some []
  series_window : ∀ (ps : List PricePoint) (latest : Int), s.recorded mint = some ps →
    (∃ p ∈ ps, p.timestamp.toInt = latest) → (∀ p ∈ ps, p.timestamp.toInt ≤ latest) →
    ∃ w, s.usdPriceSeries mint hours = some w ∧
      StablyByTime (ps.filter fun p => decide (latest - 3600 * hours.toNat ≤ p.timestamp.toInt)) w ∧
      ∀ p ∈ ps, p.timestamp.toInt = latest → p ∈ w
  ratio : ∀ r : Float, s.priceRatio mintX mintY = some r ↔ ∃ x y, s.quotes.price? mintX = some x ∧
    s.quotes.price? mintY = some y ∧ y > 0 ∧ r = x / y

/-- A snapshot whose quotes are numbers answers every request from what it records. -/
theorem answers (hq : s.NumericQuotes) (radius : UInt32) (mint : String) (hours : UInt32)
    (mintX mintY : String) : s.Answers radius mint hours mintX mintY where
  bins_error := s.binsAround_eq_error_iff radius
  bins_ok h := s.binsAround_of_ne_nil h
  active_ok _ := s.activeBin_eq_ok_iff
  active_error := s.activeBin_eq_error_iff
  series_none := usdPriceSeries_eq_none_iff mint hours
  series_window ps latest h hmem hmax := by
    rw [usdPriceSeries_of_recorded h hmem hmax hours]
    exact ⟨_, rfl, stablyByTime_byTime _, fun p hp hpl => mem_window hours hp hpl⟩
  ratio _ := priceRatio_eq_some_iff hq

/-- A pool at bin 10 with bins recorded at 8, 10 and 13, both tokens quoted, and three points of
X's price recorded out of time order. -/
def sample : Snapshot :=
  ⟨⟨"pool1", ⟨"MX", "X", 6⟩, ⟨"MY", "Y", 6⟩, 20, 10, none, none, none, none⟩,
    [⟨8, 0.0, 0.0, 5.0⟩, ⟨10, 0.0, 1.0, 2.0⟩, ⟨13, 0.0, 4.0, 0.0⟩],
    [("MX", 2.0), ("MY", 1.0)],
    [("MX", [⟨0, 1.0⟩, ⟨36000, 2.2⟩, ⟨30000, 2.0⟩])], none, none⟩

theorem answers_sample : sample.NumericQuotes ∧ sample.Answers 2 "MX" 6 "MX" "MY" :=
  have hq : sample.NumericQuotes := by decide
  ⟨hq, answers hq 2 "MX" 6 "MX" "MY"⟩

end Snapshot

end RangeAdvisor
