import RangeAdvisor.Proofs.VolatilityRange
import RangeAdvisor.Proofs.StableSort

/-!
# Aligning two price histories

The X/Y ratio series sorts both histories by time, stably, and pairs them from the newest point
back: of the last `k = min n m` points of each, the `i`-th with the `i`-th, so the newest points
pair and the longer history loses its oldest points. Pairs whose Y price is not above zero are
dropped. Without a Y history of two points the X prices are divided by the Y spot quote, when that
is finite and above zero. Of the ratios only the finite ones above zero count, and a series needs
two of them; the volatility estimate then draws on the price series exactly when the series exists.
Main statement: `ratioSeries_pairs_newest`.
-/

set_option autoImplicit false

namespace RangeAdvisor

open Binary64

/-! ### Sorting by time -/

/-- `ps'` is `ps` stably sorted by time: its points in time order, those of one timestamp in the
order `ps` has them. -/
structure StablyByTime (ps ps' : List PricePoint) : Prop where
  perm : ps'.Perm ps
  sorted : ps'.Pairwise fun a b => a.timestamp ≤ b.timestamp
  stable : ∀ t, ps'.filter (·.timestamp == t) = ps.filter (·.timestamp == t)

theorem byTime_totalPreorder :
    TotalPreorder fun a b : PricePoint => decide (a.timestamp ≤ b.timestamp) :=
  TotalPreorder.onKey (fun p : PricePoint => p.timestamp) (fun _ _ _ => Int64.le_trans)
    Int64.le_total

/-- Points are tied in time exactly when their timestamps agree. -/
theorem tied_byTime (a : PricePoint) :
    Tied (fun a b : PricePoint => decide (a.timestamp ≤ b.timestamp)) a =
      (·.timestamp == a.timestamp) := by
  funext b
  rw [Bool.eq_iff_iff]
  simp only [Tied, Bool.and_eq_true, decide_eq_true_eq, beq_iff_eq]
  constructor
  · rintro ⟨hab, hba⟩
    exact Int64.le_antisymm hba hab
  · intro h
    rw [h]
    exact ⟨Int64.le_refl _, Int64.le_refl _⟩

/-- Sorting by time sorts stably. -/
theorem stablyByTime_byTime (ps : List PricePoint) : StablyByTime ps (MarketContext.byTime ps) where
  perm := List.mergeSort_perm ps _
  sorted := by
    have h := List.pairwise_mergeSort byTime_totalPreorder.trans byTime_totalPreorder.total ps
    simpa [MarketContext.byTime] using h
  -- the points of one timestamp are those tied with a point of that timestamp
  stable t := filter_mergeSort_of_tied byTime_totalPreorder ps ⟨t, 0⟩ (p := (·.timestamp == t))
    fun x hx => by rw [tied_byTime]; exact (beq_iff_eq.mp hx).symm ▸ beq_self_eq_true _

/-- A list in time order is its own stable sort. -/
theorem stablyByTime_of_sorted {ps : List PricePoint}
    (h : ps.Pairwise fun a b => a.timestamp ≤ b.timestamp) : StablyByTime ps ps :=
  ⟨List.Perm.refl ps, h, fun _ => rfl⟩

/-- A list is stably sorted by time only as `byTime` sorts it. -/
theorem eq_byTime_of_stablyByTime {ps ps' : List PricePoint} (h : StablyByTime ps ps') :
    ps' = MarketContext.byTime ps := by
  have hsort := stablyByTime_byTime ps
  refine eq_of_perm_of_filter_tied byTime_totalPreorder (h.perm.trans hsort.perm.symm)
    (by simpa using h.sorted) (by simpa using hsort.sorted) fun a => ?_
  rw [tied_byTime, h.stable, hsort.stable]

/-! ### Pairing from the newest point -/

section Pairing

variable {α β : Type*}

/-- Two lists paired from their last elements back: for `i < k = min n m`, element `n - k + i` of
the first with element `m - k + i` of the second. -/
def pairedFromNewest (xs : List α) (ys : List β) : List (α × β) :=
  List.ofFn fun i : Fin (min xs.length ys.length) =>
    (xs.get ⟨xs.length - min xs.length ys.length + i, by have := i.isLt; omega⟩,
      ys.get ⟨ys.length - min xs.length ys.length + i, by have := i.isLt; omega⟩)

/-- Zipping two lists from their ends and reversing back pairs them from the newest element. -/
theorem reverse_zip_reverse (xs : List α) (ys : List β) :
    (xs.reverse.zip ys.reverse).reverse = pairedFromNewest xs ys := by
  apply List.ext_getElem
  · simp [pairedFromNewest]
  · intro i h₁ h₂
    simp only [List.length_reverse, List.length_zip] at h₁
    simp only [pairedFromNewest, List.getElem_reverse, List.getElem_zip, List.getElem_ofFn,
      List.get_eq_getElem, List.length_zip, List.length_reverse, Prod.mk.injEq]
    constructor <;> congr 1 <;> omega

end Pairing

/-! ### The ratio series -/

/-- The ratios that count, finite and above zero, when at least two of them do. -/
def keepCounting (rs : List Float) : Option (List Float) :=
  let kept := rs.filter fun r => r.isFinite && decide (r > 0)
  if 2 ≤ kept.length then some kept else none

/-- Kept ratios are at least two, each finite and above zero. -/
theorem keepCounting_some {rs s : List Float} (h : keepCounting rs = some s) :
    2 ≤ s.length ∧ ∀ r ∈ s, r.isFinite = true ∧ (0 : Float) < r := by
  unfold keepCounting at h
  dsimp only at h
  split at h
  · cases h
    refine ⟨‹_›, fun r hr => ?_⟩
    simpa using (List.mem_filter.mp hr).2
  · cases h

namespace MarketContext

theorem ratioSeries_none (ys : Option (List PricePoint)) (q : Option Float) :
    ratioSeries none ys q = none := rfl

/-- With a Y history of two points or more, the series divides the X prices by the Y prices paired
from the newest points back, over the pairs whose Y price is above zero. -/
theorem ratioSeries_of_history (xs ys : List PricePoint) (q : Option Float) (h : 2 ≤ ys.length) :
    ratioSeries (some xs) (some ys) q =
      keepCounting (((pairedFromNewest (byTime xs) (byTime ys)).filter fun p => p.2.price > 0).map
        fun p => p.1.price / p.2.price) := by
  have hf : (some ys).filter (·.length ≥ 2) = some ys := by simp [h]
  simp only [ratioSeries, hf]
  rw [← reverse_zip_reverse, List.filter_reverse, List.map_reverse]
  rfl

/-- Without a Y history of two points, the series divides the X prices by the Y spot quote when it
is finite and above zero, and there is none without such a quote. -/
theorem ratioSeries_of_spot (xs : List PricePoint) (ys : Option (List PricePoint)) (q : Option Float)
    (h : ∀ l, ys = some l → l.length < 2) :
    ratioSeries (some xs) ys q =
      (q.filter fun v => v.isFinite && decide (v > 0)).bind fun v =>
        keepCounting ((byTime xs).map fun x => x.price / v) := by
  have hf : ys.filter (·.length ≥ 2) = none := by
    rcases ys with _ | l
    · rfl
    · have hl := h l rfl
      simp only [Option.filter_some, decide_eq_true_eq, ge_iff_le]
      rw [if_neg (by omega)]
  simp only [ratioSeries, hf]
  rcases q.filter fun v => v.isFinite && decide (v > 0) with _ | v <;> rfl

/-- A series is at least two ratios, each finite and above zero. -/
theorem ratioSeries_some {xs ys : Option (List PricePoint)} {q : Option Float} {s : List Float}
    (h : ratioSeries xs ys q = some s) :
    2 ≤ s.length ∧ ∀ r ∈ s, r.isFinite = true ∧ (0 : Float) < r := by
  rcases xs with _ | xs
  · cases h
  by_cases hy : ∃ l, ys = some l ∧ 2 ≤ l.length
  · obtain ⟨l, rfl, hl⟩ := hy
    rw [ratioSeries_of_history xs l q hl] at h
    exact keepCounting_some h
  · rw [ratioSeries_of_spot xs ys q fun l hl => by
      by_contra hlen
      exact hy ⟨l, hl, by omega⟩] at h
    obtain ⟨v, -, hv⟩ := Option.bind_eq_some_iff.mp h
    exact keepCounting_some hv

end MarketContext

/-- A series of at least two finite prices above zero gives an estimate. -/
theorem Volatility.ofSeries_isSome {s : List Float} (hlen : 2 ≤ s.length)
    (hs : ∀ p ∈ s, p.isFinite = true ∧ (0 : Float) < p) : (Volatility.ofSeries s).isSome := by
  have hcheck : (s.length < 2 || s.any fun p => !(p.isFinite && decide (p > 0))) = false := by
    simp only [Bool.or_eq_false_iff, decide_eq_false_iff_not, Nat.not_lt, List.any_eq_false]
    exact ⟨hlen, fun p hp => by simp [(hs p hp).1, (hs p hp).2]⟩
  have hne : s ≠ [] := List.ne_nil_of_length_pos (by omega)
  obtain ⟨x, rest, rfl⟩ := List.exists_cons_of_ne_nil hne
  -- past the check, the last price and the range of a list of one price or more exist
  rw [Volatility.ofSeries, if_neg (by rw [hcheck]; exact Bool.false_ne_true),
    List.getLast?_eq_some_getLast hne, Volatility.range?_cons]
  rfl

/-- The estimate draws on the price series exactly when the series gives one. -/
theorem Volatility.estimate_source_eq_priceSeries_iff (inputs : VolatilityInputs) :
    (Volatility.estimate inputs).source = .priceSeries ↔
      ∃ s, inputs.series = some s ∧ (Volatility.ofSeries s).isSome := by
  constructor
  · intro hsrc
    obtain ⟨-, -, -, hest, -⟩ := Volatility.estimate_first inputs
    rw [hsrc] at hest
    obtain ⟨s, hs, hv⟩ := Option.bind_eq_some_iff.mp hest
    exact ⟨s, hs, by rw [hv]; rfl⟩
  · rintro ⟨s, hs, hv⟩
    obtain ⟨v, hv⟩ := Option.isSome_iff_exists.mp hv
    -- the price series is the first source tried
    have hfirst : VolatilitySource.estimate inputs .priceSeries = some v := by
      show inputs.series >>= Volatility.ofSeries = some v
      rw [hs]
      exact hv
    have hest : Volatility.estimate inputs = v := by
      rw [Volatility.estimate, VolatilitySource.order, List.findSome?_cons, hfirst]
      rfl
    rw [hest]
    exact (VolatilitySource.backed_of_estimate hfirst).1

/-- A context's volatility comes from the price series exactly when the ratio series exists. -/
theorem MarketContext.build_source_eq_priceSeries_iff (pool : Pool) (inputs : MarketInputs) :
    (MarketContext.build pool inputs).source = some .priceSeries ↔
      (MarketContext.ratioSeries inputs.xSeries inputs.ySeries inputs.yUsd).isSome := by
  obtain ⟨vin, hseries, hsrc⟩ : ∃ vin : VolatilityInputs,
      vin.series = MarketContext.ratioSeries inputs.xSeries inputs.ySeries inputs.yUsd ∧
        (MarketContext.build pool inputs).source = some (Volatility.estimate vin).source :=
    ⟨_, rfl, rfl⟩
  rw [hsrc, Option.some.injEq, Volatility.estimate_source_eq_priceSeries_iff, hseries]
  constructor
  · rintro ⟨s, hs, -⟩
    rw [hs]
    rfl
  · intro h
    obtain ⟨s, hs⟩ := Option.isSome_iff_exists.mp h
    obtain ⟨hlen, hpos⟩ := MarketContext.ratioSeries_some hs
    exact ⟨s, hs, Volatility.ofSeries_isSome hlen hpos⟩

/-- The ratio series for histories that `xs'` and `ys'` sort stably by time and a spot quote `q`:
none without an X history; with a Y history of two points or more, the ratios of the points paired
from the newest back whose Y price is above zero; otherwise the X prices over the spot quote when
it is finite and above zero, and none without one. In every case only the finite ratios above zero
are kept, and a series needs two. A context's volatility comes from the price series exactly when
the series exists. -/
theorem ratioSeries_pairs_newest {xs ys xs' ys' : List PricePoint} (hx : StablyByTime xs xs')
    (hy : StablyByTime ys ys') (q : Option Float) :
    (∀ Y, MarketContext.ratioSeries none Y q = none) ∧
    (2 ≤ ys'.length → MarketContext.ratioSeries (some xs) (some ys) q =
      keepCounting (((pairedFromNewest xs' ys').filter fun p => p.2.price > 0).map
        fun p => p.1.price / p.2.price)) ∧
    (∀ Y, (∀ l, Y = some l → l.length < 2) → MarketContext.ratioSeries (some xs) Y q =
      (q.filter fun v => v.isFinite && decide (v > 0)).bind fun v =>
        keepCounting (xs'.map fun x => x.price / v)) ∧
    ∀ (pool : Pool) (inputs : MarketInputs),
      (MarketContext.build pool inputs).source = some .priceSeries ↔
        (MarketContext.ratioSeries inputs.xSeries inputs.ySeries inputs.yUsd).isSome := by
  -- the stable sorts by time are the ones the series makes
  obtain rfl := eq_byTime_of_stablyByTime hx
  obtain rfl := eq_byTime_of_stablyByTime hy
  refine ⟨fun Y => MarketContext.ratioSeries_none Y q, fun hlen => ?_,
    fun Y hY => MarketContext.ratioSeries_of_spot xs Y q hY,
    MarketContext.build_source_eq_priceSeries_iff⟩
  exact MarketContext.ratioSeries_of_history xs ys q (hlen.trans_eq hy.perm.length_eq)

/-- Four X points against the last two of their times in Y. -/
def unevenHistories : List PricePoint × List PricePoint :=
  ([⟨1, 100.0⟩, ⟨2, 100.0⟩, ⟨3, 100.0⟩, ⟨4, 200.0⟩], [⟨3, 1.0⟩, ⟨4, 1.0⟩])

/-- The two Y points pair with the two newest X points. -/
theorem ratioSeries_uneven_histories :
    MarketContext.ratioSeries (some unevenHistories.1) (some unevenHistories.2) none =
      some [100.0, 200.0] := by
  have hx : StablyByTime unevenHistories.1 unevenHistories.1 :=
    stablyByTime_of_sorted (by decide)
  have hy : StablyByTime unevenHistories.2 unevenHistories.2 :=
    stablyByTime_of_sorted (by decide)
  rw [(ratioSeries_pairs_newest hx hy none).2.1 (by decide)]
  decide +kernel

end RangeAdvisor
