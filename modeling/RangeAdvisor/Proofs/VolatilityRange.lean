import RangeAdvisor.Market.Context
import RangeAdvisor.Proofs.Float.Exact

/-!
# Volatility estimates stay in range

The estimate is that of the first source, in the order series, bin spread, turnover, default, that
answers; the default always does. Each source tags its estimate with itself and clamps its score,
so the score lies in `[0.02, 0.5]` provided the number clamped is not NaN, a clamp passing NaN
through. The series and the bin spread draw on prices that are finite and above zero: the least and
greatest of them are read off by a running lesser and greater, the spread of the greatest over the
least is at least zero (possibly `+∞`, never NaN), and so is the mean absolute step over the last
price, a 64-bit count of steps being finite. The turnover divides a finite volume of at least zero
by a finite value above zero. Every context built therefore has a score in range and a source. Main
statement: `estimate_in_range`.
-/

set_option autoImplicit false

namespace RangeAdvisor

open Binary64 Rounding

/-! ### Least and greatest -/

/-- `lo` and `hi` are among `xs`, the least and the greatest of them. -/
structure Extremes (xs : List Float) (lo hi : Float) : Prop where
  lo_mem : lo ∈ xs
  hi_mem : hi ∈ xs
  lo_le : ∀ p ∈ xs, lo ≤ p
  le_hi : ∀ p ∈ xs, p ≤ hi

namespace Volatility

/-- The least and greatest so far, after one more value. -/
def widen (acc : Float × Float) (v : Float) : Float × Float := (lesser acc.1 v, greater acc.2 v)

theorem range?_cons (x : Float) (xs : List Float) : range? (x :: xs) = some (xs.foldl widen (x, x)) := by
  unfold range?
  rw [List.foldl_cons]
  generalize (x, x) = acc
  induction xs generalizing acc with
  | nil => rfl
  | cons y ys ih =>
    rw [List.foldl_cons, List.foldl_cons]
    exact ih (widen acc y)

theorem extremes_singleton {x : Float} (hx : x.isNaN = false) : Extremes [x] x x where
  lo_mem := List.mem_singleton_self x
  hi_mem := List.mem_singleton_self x
  lo_le p hp := by rw [List.mem_singleton.mp hp]; exact le_refl_of_not_isNaN hx
  le_hi p hp := by rw [List.mem_singleton.mp hp]; exact le_refl_of_not_isNaN hx

/-- One more value that is a number keeps the least and the greatest. -/
theorem extremes_widen {xs : List Float} {lo hi y : Float} (h : Extremes xs lo hi)
    (hxs : ∀ p ∈ xs, p.isNaN = false) (hy : y.isNaN = false) :
    Extremes (xs ++ [y]) (Volatility.widen (lo, hi) y).1 (Volatility.widen (lo, hi) y).2 := by
  have hlo := hxs lo h.lo_mem
  have hhi := hxs hi h.hi_mem
  refine ⟨?_, ?_, fun p hp => ?_, fun p hp => ?_⟩
  · rcases lesser_mem hlo hy with h' | h' <;> simp [Volatility.widen, h', h.lo_mem]
  · rcases greater_mem hhi hy with h' | h' <;> simp [Volatility.widen, h', h.hi_mem]
  · rcases List.mem_append.mp hp with hp | hp
    · exact le_trans (lesser_le_left hlo hy) (h.lo_le p hp)
    · rw [List.mem_singleton.mp hp]
      exact lesser_le_right hlo hy
  · rcases List.mem_append.mp hp with hp | hp
    · exact le_trans (h.le_hi p hp) (le_greater_left hhi hy)
    · rw [List.mem_singleton.mp hp]
      exact le_greater_right hy _

/-- Widening by each of `ys` in turn gives the least and the greatest of all values taken in. -/
theorem extremes_foldl_widen {xs ys : List Float} {lo hi : Float} (h : Extremes xs lo hi)
    (hxs : ∀ p ∈ xs, p.isNaN = false) (hys : ∀ p ∈ ys, p.isNaN = false) :
    Extremes (xs ++ ys) (ys.foldl widen (lo, hi)).1 (ys.foldl widen (lo, hi)).2 := by
  induction ys generalizing xs lo hi with
  | nil => simpa using h
  | cons y ys ih =>
    have hy := hys y List.mem_cons_self
    have hstep := extremes_widen h hxs hy
    have hxs' : ∀ p ∈ xs ++ [y], p.isNaN = false := by
      intro p hp
      rcases List.mem_append.mp hp with hp | hp
      · exact hxs p hp
      · rw [List.mem_singleton.mp hp]
        exact hy
    have := ih hstep hxs' fun p hp => hys p (List.mem_cons_of_mem _ hp)
    simpa using this

/-- A list of numbers that is not empty has a least and a greatest, which `range?` finds. -/
theorem range?_extremes {xs : List Float} (hne : xs ≠ []) (hxs : ∀ p ∈ xs, p.isNaN = false) :
    ∃ lo hi, range? xs = some (lo, hi) ∧ Extremes xs lo hi := by
  obtain ⟨x, ys, rfl⟩ := List.exists_cons_of_ne_nil hne
  have hx := hxs x List.mem_cons_self
  refine ⟨_, _, range?_cons x ys, ?_⟩
  simpa using extremes_foldl_widen (extremes_singleton hx) (by simpa using hx)
    fun p hp => hxs p (List.mem_cons_of_mem _ hp)

end Volatility

/-! ### What an estimate carries -/

/-- The prices of the bins that hold liquidity at a finite price above zero. -/
def fundedPrices (bins : List BinSample) : List Float :=
  (bins.filter fun b => b.hasLiquidity && b.price.isFinite && decide (b.price > 0)).map (·.price)

/-- An estimate drawn from the prices `ps`: its low and high are the least and greatest of them,
finite and above zero. -/
def Volatility.DrawnFrom (ps : List Float) (v : Volatility) : Prop :=
  ∃ lo hi, v.recentLow = some lo ∧ v.recentHigh = some hi ∧ Extremes ps lo hi ∧ lo.isFinite = true ∧
    (0 : Float) < lo ∧ lo ≤ hi ∧ hi.isFinite = true

/-- An average true range that is reported and at least zero, so not NaN. -/
def Volatility.AtrNonneg (v : Volatility) : Prop := ∃ a, v.atr = some a ∧ (0 : Float) ≤ a

/-- What an estimate carries: a score within `[0.02, 0.5]`; for the series and the bin spread the
least and greatest of the prices drawn on, with an average true range of at least zero (for the
series, of fewer than `2^64` prices, as a slice holds); for the turnover and the default none of
these. -/
structure Volatility.Backed (inputs : VolatilityInputs) (v : Volatility) : Prop where
  score : Volatility.minScore ≤ v.score ∧ v.score ≤ Volatility.maxScore
  series : v.source = .priceSeries →
    ∃ ps, inputs.series = some ps ∧ v.DrawnFrom ps ∧ (ps.length < 2 ^ 64 → v.AtrNonneg)
  bins : v.source = .binSpread → v.DrawnFrom (fundedPrices inputs.bins) ∧ v.AtrNonneg
  bare : v.source = .turnover ∨ v.source = .fallback →
    v.atr = none ∧ v.recentHigh = none ∧ v.recentLow = none

namespace Volatility

section Spread

variable {lo hi : Float}

theorem toReal_zero : toReal 0 = 0 := rfl

theorem zero_lt_of_one_le {x : Float} (hx : x.isFinite = true) (h : 1 ≤ toReal x) : (0 : Float) < x :=
  lt_of_toReal_lt rfl hx (by rw [toReal_zero]; linarith)

/-- The spread of the greatest over the least, finite and above zero, is at least zero. -/
theorem zero_le_spread (hlo : lo.isFinite = true) (hpos : (0 : Float) < lo) (hhi : hi.isFinite = true)
    (hle : lo ≤ hi) : (0 : Float) ≤ (hi - lo) / lo := by
  obtain ⟨hn, hv⟩ := sub_value hhi hlo
  have hdiff : (0 : Float) ≤ hi - lo := by
    refine le_iff.mpr ⟨rfl, hn, ?_⟩
    rw [hv, show value 0 = toBinary64 0 by rw [toBinary64_zero]; rfl]
    exact toBinary64_mono (sub_nonneg.mpr (toReal_le_of_le hlo hhi hle))
  exact zero_le_div_of_isFinite hdiff hpos hlo

/-- A score clamped into `[0.02, 0.5]` from a number lies there. -/
theorem clamp_score {x : Float} (hx : x.isNaN = false) :
    minScore ≤ clamp x minScore maxScore ∧ clamp x minScore maxScore ≤ maxScore :=
  clamp_mem hx (by decide)

theorem drawnFrom_of_extremes {ps : List Float} {v : Volatility}
    (hps : ∀ p ∈ ps, p.isFinite = true ∧ (0 : Float) < p) (h : Extremes ps lo hi)
    (hlow : v.recentLow = some lo) (hhigh : v.recentHigh = some hi) : v.DrawnFrom ps :=
  ⟨lo, hi, hlow, hhigh, h, (hps lo h.lo_mem).1, (hps lo h.lo_mem).2, h.lo_le hi h.hi_mem,
    (hps hi h.hi_mem).1⟩

/-- Finite prices above zero, at least one, have a range, their extremes, and its spread is at
least zero. -/
theorem range?_of_prices {ps : List Float} (hne : ps ≠ [])
    (hps : ∀ p ∈ ps, p.isFinite = true ∧ (0 : Float) < p) :
    ∃ lo hi, range? ps = some (lo, hi) ∧ Extremes ps lo hi ∧ (0 : Float) ≤ (hi - lo) / lo := by
  obtain ⟨lo, hi, hrange, hext⟩ := range?_extremes hne
    fun p hp => isNaN_eq_false_of_isFinite (hps p hp).1
  refine ⟨lo, hi, hrange, hext, ?_⟩
  exact zero_le_spread (hps lo hext.lo_mem).1 (hps lo hext.lo_mem).2 (hps hi hext.hi_mem).1
    (hext.lo_le hi hext.hi_mem)

end Spread

/-! ### The sources one by one -/

/-- The absolute steps of a series of finite prices are at least zero. -/
theorem zero_le_steps {s : List Float} (hs : ∀ p ∈ s, p.isFinite = true) :
    ∀ x ∈ (s.zip s.tail).map (fun (a, b) => (b - a).abs), (0 : Float) ≤ x := by
  intro x hx
  obtain ⟨⟨a, b⟩, hab, rfl⟩ := List.mem_map.mp hx
  have ha := hs a (List.of_mem_zip hab).1
  have hb := hs b (List.mem_of_mem_tail (List.of_mem_zip hab).2)
  exact zero_le_abs (isNaN_sub (isNaN_eq_false_of_isFinite hb) ha)

/-- The mean absolute step of at least two and fewer than `2^64` finite prices, over a last price
above zero, is at least zero. -/
theorem zero_le_meanStep {s : List Float} {last : Float} (hs : ∀ p ∈ s, p.isFinite = true)
    (hlen : 2 ≤ s.length) (hbig : s.length < 2 ^ 64) (hlast : last.isFinite = true)
    (hpos : (0 : Float) < last) :
    (0 : Float) ≤ total ((s.zip s.tail).map (fun (a, b) => (b - a).abs)) /
      Float.ofNat (s.length - 1) / last := by
  have htotal : (0 : Float) ≤ total ((s.zip s.tail).map (fun (a, b) => (b - a).abs)) :=
    le_trans (by decide) ((le_foldl_add (by decide) (zero_le_steps hs)).1)
  obtain ⟨hfin, hone⟩ := ofNat_pos (n := s.length - 1) (by omega) (by omega)
  exact zero_le_div_of_isFinite (zero_le_div_of_isFinite htotal (zero_lt_of_one_le hfin hone) hfin)
    hpos hlast

theorem ofSeries_some {s : List Float} {v : Volatility} (h : ofSeries s = some v) :
    v.source = .priceSeries ∧ (minScore ≤ v.score ∧ v.score ≤ maxScore) ∧ v.DrawnFrom s ∧
      (s.length < 2 ^ 64 → v.AtrNonneg) := by
  unfold ofSeries at h
  split at h
  · cases h
  rename_i hcheck
  simp only [Bool.or_eq_true, decide_eq_true_eq, List.any_eq_true, Bool.not_eq_true',
    Bool.and_eq_false_iff, not_or, not_lt, not_exists, not_and] at hcheck
  obtain ⟨hlen, hvalid⟩ := hcheck
  have hps : ∀ p ∈ s, p.isFinite = true ∧ (0 : Float) < p := by
    intro p hp
    have := hvalid p hp
    simp only [Bool.not_eq_false, decide_eq_true_eq] at this
    exact this
  have hne : s ≠ [] := List.ne_nil_of_length_pos (by omega)
  obtain ⟨lo, hi, hrange, hext, hspread⟩ := range?_of_prices hne hps
  obtain ⟨last, hlast⟩ : ∃ last, s.getLast? = some last := ⟨_, List.getLast?_eq_some_getLast hne⟩
  have hlastMem := hps last (List.mem_of_getLast? hlast)
  simp only [hlast, hrange, Option.bind_eq_bind, Option.bind_some, Option.pure_def,
    Option.some.injEq] at h
  subst h
  refine ⟨rfl, clamp_score (isNaN_eq_false_of_le_right hspread), drawnFrom_of_extremes hps hext rfl rfl,
    fun hbig => ⟨_, rfl, ?_⟩⟩
  exact zero_le_meanStep (fun p hp => (hps p hp).1) hlen hbig hlastMem.1 hlastMem.2

theorem ofBinSpread_some {bins : List BinSample} {v : Volatility} (h : ofBinSpread bins = some v) :
    v.source = .binSpread ∧ (minScore ≤ v.score ∧ v.score ≤ maxScore) ∧
      v.DrawnFrom (fundedPrices bins) ∧ v.AtrNonneg := by
  have hps : ∀ p ∈ fundedPrices bins, p.isFinite = true ∧ (0 : Float) < p := by
    intro p hp
    obtain ⟨b, hb, rfl⟩ := List.mem_map.mp hp
    simp only [List.mem_filter, Bool.and_eq_true, decide_eq_true_eq] at hb
    exact ⟨hb.2.1.2, hb.2.2⟩
  unfold ofBinSpread at h
  rw [← fundedPrices] at h
  dsimp only at h
  split at h
  · cases h
  rename_i hlen
  have hne : fundedPrices bins ≠ [] := List.ne_nil_of_length_pos (by omega)
  obtain ⟨lo, hi, hrange, hext, hspread⟩ := range?_of_prices hne hps
  rw [hrange] at h
  simp only [Option.bind_eq_bind, Option.bind_some, Option.pure_def, Option.some.injEq] at h
  subst h
  exact ⟨rfl, clamp_score (isNaN_eq_false_of_le_right hspread),
    drawnFrom_of_extremes hps hext rfl rfl, ⟨_, rfl, hspread⟩⟩

theorem ofTurnover_some {volume tvl : Option Float} {v : Volatility}
    (h : ofTurnover volume tvl = some v) :
    v.source = .turnover ∧ (minScore ≤ v.score ∧ v.score ≤ maxScore) ∧
      v.atr = none ∧ v.recentHigh = none ∧ v.recentLow = none := by
  unfold ofTurnover at h
  obtain ⟨vol, hvol, h⟩ := Option.bind_eq_some_iff.mp h
  obtain ⟨t, ht, h⟩ := Option.bind_eq_some_iff.mp h
  simp only [Option.pure_def, Option.some.injEq] at h
  subst h
  obtain ⟨-, hvf⟩ := Option.filter_eq_some_iff.mp hvol
  obtain ⟨-, htf⟩ := Option.filter_eq_some_iff.mp ht
  simp only [Bool.and_eq_true, decide_eq_true_eq] at hvf htf
  -- a volume of at least zero over a value locked above zero, scaled by a positive constant
  have hrate : (0 : Float) ≤ vol / t := zero_le_div hvf.2 hvf.1 htf.2
  have hscaled : (0 : Float) * 0.15 ≤ vol / t * 0.15 := mul_le_mul_of_pos (by decide) (by decide) hrate
  obtain ⟨hlo, hhi⟩ := clamp_mem (isNaN_eq_false_of_le_right hscaled)
    (show (0.025 : Float) ≤ 0.3 by decide)
  exact ⟨rfl, ⟨le_trans (by decide) hlo, le_trans hhi (by decide)⟩, rfl, rfl, rfl⟩

end Volatility

namespace VolatilitySource

/-- Each source's estimate is tagged with the source and carries what `Backed` says. -/
theorem backed_of_estimate {inputs : VolatilityInputs} {s : VolatilitySource} {v : Volatility}
    (h : VolatilitySource.estimate inputs s = some v) : v.source = s ∧ v.Backed inputs := by
  cases s with
  | priceSeries =>
    obtain ⟨ps, hps, hv⟩ := Option.bind_eq_some_iff.mp h
    obtain ⟨hsrc, hscore, hdrawn, hatr⟩ := Volatility.ofSeries_some hv
    refine ⟨hsrc, hscore, fun _ => ⟨ps, hps, hdrawn, hatr⟩, fun h' => ?_, fun h' => ?_⟩ <;>
      rw [hsrc] at h' <;> simp at h'
  | binSpread =>
    obtain ⟨hsrc, hscore, hdrawn, hatr⟩ := Volatility.ofBinSpread_some h
    refine ⟨hsrc, hscore, fun h' => ?_, fun _ => ⟨hdrawn, hatr⟩, fun h' => ?_⟩ <;>
      rw [hsrc] at h' <;> simp at h'
  | turnover =>
    obtain ⟨hsrc, hscore, hbare⟩ := Volatility.ofTurnover_some h
    refine ⟨hsrc, hscore, fun h' => ?_, fun h' => ?_, fun _ => hbare⟩ <;>
      rw [hsrc] at h' <;> simp at h'
  | fallback =>
    obtain rfl : Volatility.fallback = v := Option.some.inj h
    exact ⟨rfl, ⟨by decide, by decide⟩, fun h' => absurd h' (by decide),
      fun h' => absurd h' (by decide), fun _ => ⟨rfl, rfl, rfl⟩⟩

end VolatilitySource

/-- The estimate is the first answer along the fixed order of sources. -/
theorem Volatility.estimate_first (inputs : VolatilityInputs) :
    ∃ pre post, VolatilitySource.order = pre ++ (Volatility.estimate inputs).source :: post ∧
      VolatilitySource.estimate inputs (Volatility.estimate inputs).source =
        some (Volatility.estimate inputs) ∧
      ∀ s ∈ pre, VolatilitySource.estimate inputs s = none := by
  -- the default always answers, so some source does
  have hsome : (VolatilitySource.order.findSome? (VolatilitySource.estimate inputs)).isSome :=
    List.findSome?_isSome_iff.mpr ⟨.fallback, by simp [VolatilitySource.order], rfl⟩
  obtain ⟨v, hv⟩ := Option.isSome_iff_exists.mp hsome
  obtain ⟨pre, s, post, horder, hs, hpre⟩ := List.findSome?_eq_some_iff.mp hv
  have hest : Volatility.estimate inputs = v := by
    rw [Volatility.estimate, hv]
    rfl
  have hsrc := (VolatilitySource.backed_of_estimate hs).1
  rw [hest, hsrc]
  exact ⟨pre, post, horder, hs, hpre⟩

/-- The estimate is that of the first source in order that answers, tagged with that source; its
score lies in `[0.02, 0.5]` and is a number; the series and the bin spread report the least and
greatest of the finite prices above zero they drew on and an average true range of at least zero,
the turnover and the default none of these. Every context built has a score in `[0.02, 0.5]` and a
source. -/
theorem estimate_in_range :
    (∀ inputs : VolatilityInputs,
      (∃ pre post, VolatilitySource.order = pre ++ (Volatility.estimate inputs).source :: post ∧
        VolatilitySource.estimate inputs (Volatility.estimate inputs).source =
          some (Volatility.estimate inputs) ∧
        ∀ s ∈ pre, VolatilitySource.estimate inputs s = none) ∧
      (Volatility.estimate inputs).score.isNaN = false ∧ (Volatility.estimate inputs).Backed inputs) ∧
    ∀ (pool : Pool) (inputs : MarketInputs), ∃ score,
      (MarketContext.build pool inputs).volatility = some score ∧
        Volatility.minScore ≤ score ∧ score ≤ Volatility.maxScore ∧
        (MarketContext.build pool inputs).source.isSome := by
  have hbacked (inputs : VolatilityInputs) : (Volatility.estimate inputs).Backed inputs := by
    obtain ⟨_, _, _, hs, _⟩ := Volatility.estimate_first inputs
    exact (VolatilitySource.backed_of_estimate hs).2
  refine ⟨fun inputs => ⟨Volatility.estimate_first inputs,
    isNaN_eq_false_of_le_right (hbacked inputs).score.1, hbacked inputs⟩, fun pool inputs => ?_⟩
  exact ⟨_, rfl, (hbacked _).score.1, (hbacked _).score.2, rfl⟩

end RangeAdvisor
