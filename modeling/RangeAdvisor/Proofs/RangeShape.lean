import RangeAdvisor.Strategy.Recommend
import RangeAdvisor.Proofs.Saturating

/-!
# The shape of a recommended range

Every strategy lays its range out the same way: a number of bins below and above the active bin,
then the center shift added to the lower edge when negative and to the upper edge when positive,
every sum saturating at the 32-bit limits. Spot keeps the center on the active bin and never
shifts; curve moves the center with the shift; bid-ask sizes its two sides apart. The shift is
capped by the room the bin limit leaves beside the unshifted span, so a range never spans more
than the larger of the limit and its unshifted span. Main statement: `recommend_laid_out`.
-/

set_option autoImplicit false

namespace RangeAdvisor

namespace RangeWidth

/-- Bins below the center before any shift. -/
def below : RangeWidth → Int32
  | .symmetric w => w
  | .split b _ => b

/-- Bins above the center before any shift. -/
def above : RangeWidth → Int32
  | .symmetric w => w
  | .split _ k => k

/-- The bins a width spans before any shift: `2w + 1`, or `bid + ask + 1`. -/
def bins (w : RangeWidth) : Int := w.below.toInt + w.above.toInt + 1

end RangeWidth

/-- `w` bins below `a`, then down by the shift when it is negative, each step saturating. -/
def lowerEdge (a w s : Int32) : Int32 := Saturating.add (Saturating.sub a w) (min s 0)

/-- `w` bins above `a`, then up by the shift when it is positive, each step saturating. -/
def upperEdge (a w s : Int32) : Int32 := Saturating.add (Saturating.add a w) (max s 0)

/-- The widths, center and shift a strategy gives a range around the active bin `a`. -/
def Strategy.Shapes : Strategy → Int32 → Recommendation → Prop
  | .spot, a, r => (∃ w, r.width = .symmetric w ∧ 2 ≤ w.toInt ∧ w.toInt ≤ 11) ∧
      r.center = a ∧ r.metrics.shift = 0
  | .curve, a, r => (∃ w, r.width = .symmetric w ∧ 4 ≤ w.toInt ∧ w.toInt ≤ 25) ∧
      r.center = Saturating.add a r.metrics.shift
  | .bidAsk, a, r => (∃ b k, r.width = .split b k ∧ 3 ≤ b.toInt ∧ b.toInt ≤ 20 ∧
      4 ≤ k.toInt ∧ k.toInt ≤ 30) ∧ r.center = a

/-- A recommendation laid out by `strategy` around active bin `a` under a limit of `maxBins`. -/
structure Recommendation.LaidOut (r : Recommendation) (strategy : Strategy) (a : Int32)
    (maxBins : UInt32) : Prop where
  strategy_eq : r.strategy = strategy
  shapes : strategy.Shapes a r
  lower_eq : r.lower = lowerEdge a r.width.below r.metrics.shift
  upper_eq : r.upper = upperEdge a r.width.above r.metrics.shift
  shift_le : (r.metrics.shift.toInt.natAbs : Int) ≤ max 0 ((maxBins.toNat : Int) - r.width.bins)

section Edges

variable (a s : Int32) {w : Int32}

/-- The lower edge on the integers: `a - w`, then the negative part of the shift, each sum moved
into `[lo, hi]`. -/
theorem toInt_lowerEdge : (lowerEdge a w s).toInt =
    max Saturating.lo (min (max Saturating.lo (min (a.toInt - w.toInt) Saturating.hi) +
      min s.toInt 0) Saturating.hi) := by
  simp only [lowerEdge, Saturating.toInt_add, Saturating.toInt_sub, Saturating.toInt_min,
    Int32.toInt_zero]

/-- The upper edge on the integers: `a + w`, then the positive part of the shift, each sum moved
into `[lo, hi]`. -/
theorem toInt_upperEdge : (upperEdge a w s).toInt =
    max Saturating.lo (min (max Saturating.lo (min (a.toInt + w.toInt) Saturating.hi) +
      max s.toInt 0) Saturating.hi) := by
  simp only [upperEdge, Saturating.toInt_add, Saturating.toInt_max, Int32.toInt_zero]

theorem lowerEdge_le (hw : 0 ≤ w.toInt) : (lowerEdge a w s).toInt ≤ a.toInt := by
  have := Saturating.lo_le_toInt a
  rw [toInt_lowerEdge]
  simp only [Saturating.lo, Saturating.hi] at *
  omega

theorem lowerEdge_le_shifted (hw : 0 ≤ w.toInt) :
    (lowerEdge a w s).toInt ≤ (Saturating.add a s).toInt := by
  have := Saturating.lo_le_toInt a
  have := Saturating.toInt_le_hi a
  rw [toInt_lowerEdge, Saturating.toInt_add]
  simp only [Saturating.lo, Saturating.hi] at *
  omega

theorem le_upperEdge (hw : 0 ≤ w.toInt) : a.toInt ≤ (upperEdge a w s).toInt := by
  have := Saturating.toInt_le_hi a
  rw [toInt_upperEdge]
  simp only [Saturating.lo, Saturating.hi] at *
  omega

theorem shifted_le_upperEdge (hw : 0 ≤ w.toInt) :
    (Saturating.add a s).toInt ≤ (upperEdge a w s).toInt := by
  have := Saturating.lo_le_toInt a
  have := Saturating.toInt_le_hi a
  rw [toInt_upperEdge, Saturating.toInt_add]
  simp only [Saturating.lo, Saturating.hi] at *
  omega

/-- Saturation only narrows a range: its edges are at most `b + k + |s|` apart. -/
theorem upperEdge_sub_lowerEdge {b k : Int32} (hb : 0 ≤ b.toInt) (hk : 0 ≤ k.toInt) :
    (upperEdge a k s).toInt - (lowerEdge a b s).toInt ≤ b.toInt + k.toInt + s.toInt.natAbs := by
  have := Saturating.lo_le_toInt a
  have := Saturating.toInt_le_hi a
  rw [toInt_upperEdge, toInt_lowerEdge]
  simp only [Saturating.lo, Saturating.hi] at *
  omega

end Edges

theorem downPart_eq_min (s : Int32) : downPart s = min s 0 := by
  rw [← Int32.toInt_inj, Saturating.toInt_min, Int32.toInt_zero]
  unfold downPart
  by_cases h : s < 0
  · rw [if_pos h]
    rw [Int32.lt_iff_toInt_lt, Int32.toInt_zero] at h
    omega
  · rw [if_neg h, Int32.toInt_zero]
    rw [Int32.lt_iff_toInt_lt, Int32.toInt_zero] at h
    omega

theorem upPart_eq_max (s : Int32) : upPart s = max s 0 := by
  rw [← Int32.toInt_inj, Saturating.toInt_max, Int32.toInt_zero]
  unfold upPart
  by_cases h : 0 < s
  · rw [if_pos h]
    rw [Int32.lt_iff_toInt_lt, Int32.toInt_zero] at h
    omega
  · rw [if_neg h, Int32.toInt_zero]
    rw [Int32.lt_iff_toInt_lt, Int32.toInt_zero] at h
    omega

/-- The capped shift is the raw shift cut down to the room the limit leaves beside `base`, a room
kept within `[0, 2^31 - 1]`. -/
theorem natAbs_capShift (raw base : Int32) (maxBins : UInt32) :
    ((capShift raw base maxBins).toInt.natAbs : Int) =
      min (raw.toInt.natAbs : Int) (min (max 0 ((maxBins.toNat : Int) - base.toInt)) 2147483647) := by
  obtain ⟨room, hroom, hcap⟩ : ∃ room : Int32,
      room.toInt = min (max 0 ((maxBins.toNat : Int) - base.toInt)) 2147483647 ∧
      capShift raw base maxBins = Saturating.clamp raw (-room) room := by
    refine ⟨_, ?_, rfl⟩
    rw [Saturating.toInt_ofInt]
    simp only [Saturating.lo, Saturating.hi]
    omega
  -- the room is in `[0, hi]`, so its negation does not wrap
  have hneg : (-room).toInt = -room.toInt := by
    rw [Int32.toInt_neg]
    exact Int.bmod_eq_of_le (by omega) (by omega)
  have hlo := Saturating.lo_le_toInt raw
  rw [hcap, Saturating.toInt_clamp, hneg, ← hroom]
  simp only [Saturating.lo] at hlo
  by_cases h₁ : raw.toInt < -room.toInt <;> by_cases h₂ : room.toInt < raw.toInt <;>
    simp only [h₁, h₂, if_true, if_false] <;> omega

theorem capShift_natAbs_le (raw base : Int32) (maxBins : UInt32) :
    ((capShift raw base maxBins).toInt.natAbs : Int) ≤ max 0 ((maxBins.toNat : Int) - base.toInt) := by
  have := natAbs_capShift raw base maxBins
  omega

namespace BinRange

theorem span_toNat_of_le (r : BinRange) (h : r.lower ≤ r.upper) :
    r.span.toNat = min (r.upper.toInt - r.lower.toInt + 1).toNat countMax := by
  unfold span
  rw [Int32.le_iff_toInt_le] at h
  rw [if_neg (by rw [Int32.lt_iff_toInt_lt]; omega)]
  rw [show countMax = 4294967295 from rfl]
  simp only [Nat.toUInt32, UInt32.toNat_ofNat']
  omega

theorem span_le (r : BinRange) :
    (r.span.toNat : Int) ≤ max 0 (r.upper.toInt - r.lower.toInt + 1) := by
  by_cases h : r.lower ≤ r.upper
  · rw [span_toNat_of_le r h]
    omega
  · unfold span
    rw [if_pos (by rw [Int32.le_iff_toInt_le] at h; rw [Int32.lt_iff_toInt_lt]; omega)]
    simp only [UInt32.toNat_zero, Int.natCast_zero]
    omega

end BinRange

section Widths

variable (s : Signals)

theorem Signals.spotBase_mem : 2 ≤ s.spotBase.toInt ∧ s.spotBase.toInt ≤ 10 :=
  Saturating.clamp_mem _ (by decide)

/-- Spot's bins per side are its base, one more past 25% deviation. -/
theorem Signals.toInt_spotPerSide :
    s.spotPerSide.toInt = s.spotBase.toInt + if s.deviation > spotExpansion then 1 else 0 := by
  obtain ⟨h₁, h₂⟩ := s.spotBase_mem
  unfold Signals.spotPerSide
  split
  · rw [Saturating.toInt_wrapping_add] <;> simp only [Int32.toInt_one, Saturating.lo, Saturating.hi] <;>
      omega
  · omega

theorem Signals.spotPerSide_mem : 2 ≤ s.spotPerSide.toInt ∧ s.spotPerSide.toInt ≤ 11 := by
  obtain ⟨h₁, h₂⟩ := s.spotBase_mem
  rw [s.toInt_spotPerSide]
  split <;> omega

theorem Signals.curvePerSide_mem : 4 ≤ s.curvePerSide.toInt ∧ s.curvePerSide.toInt ≤ 25 :=
  Saturating.clamp_mem _ (by decide)

theorem Signals.bidFallback_mem : 3 ≤ s.bidFallback.toInt ∧ s.bidFallback.toInt ≤ 20 :=
  Saturating.clamp_mem _ (by decide)

theorem Signals.askFallback_mem : 4 ≤ s.askFallback.toInt ∧ s.askFallback.toInt ≤ 30 :=
  Saturating.clamp_mem _ (by decide)

/-- A side's width stays within its bounds whichever way it was found. -/
theorem coverageSpan_bins_mem (nodes : List CoverageNode) (active : Int32) (target : Float)
    {lo hi fallback : Int32} (hlh : lo.toInt ≤ hi.toInt)
    (hf : lo.toInt ≤ fallback.toInt ∧ fallback.toInt ≤ hi.toInt) :
    lo.toInt ≤ (coverageSpan nodes active target lo hi fallback).bins.toInt ∧
      (coverageSpan nodes active target lo hi fallback).bins.toInt ≤ hi.toInt := by
  unfold coverageSpan
  split
  · exact hf
  · exact Saturating.clamp_mem _ hlh

theorem Signals.bidSide_mem (ctx : MarketContext) :
    3 ≤ (s.bidSide ctx).bins.toInt ∧ (s.bidSide ctx).bins.toInt ≤ 20 :=
  coverageSpan_bins_mem _ _ _ (by decide) s.bidFallback_mem

theorem Signals.askSide_mem (ctx : MarketContext) :
    4 ≤ (s.askSide ctx).bins.toInt ∧ (s.askSide ctx).bins.toInt ≤ 30 :=
  coverageSpan_bins_mem _ _ _ (by decide) s.askFallback_mem

end Widths

theorem toInt_two_mul_add_one {w : Int32} (h₁ : 0 ≤ w.toInt) (h₂ : w.toInt ≤ 25) :
    (2 * w + 1).toInt = 2 * w.toInt + 1 := by
  have hmul : (2 * w).toInt = 2 * w.toInt := by
    rw [Int32.toInt_mul, show (2 : Int32).toInt = 2 by decide]
    exact Int.bmod_eq_of_le (by omega) (by omega)
  rw [Saturating.toInt_wrapping_add] <;> simp only [hmul, Int32.toInt_one, Saturating.lo,
    Saturating.hi] <;> omega

section Strategies

variable (s : Signals)

theorem spot_laidOut : (spot s).LaidOut .spot s.active s.maxBins where
  strategy_eq := rfl
  shapes := ⟨⟨s.spotPerSide, rfl, s.spotPerSide_mem⟩, rfl, rfl⟩
  lower_eq := by
    simp only [spot, lowerEdge, RangeWidth.below, Signals.metrics]
    rw [show min (0 : Int32) 0 = 0 by decide, Saturating.add_zero]
  upper_eq := by
    simp only [spot, upperEdge, RangeWidth.above, Signals.metrics]
    rw [show max (0 : Int32) 0 = 0 by decide, Saturating.add_zero]
  shift_le := by
    simp only [spot, Signals.metrics, Int32.toInt_zero]
    omega

theorem curve_laidOut : (curve s).LaidOut .curve s.active s.maxBins where
  strategy_eq := rfl
  shapes := ⟨⟨s.curvePerSide, by simp only [curve], s.curvePerSide_mem⟩,
    by simp only [curve, Signals.metrics]⟩
  lower_eq := by simp only [curve, lowerEdge, RangeWidth.below, Signals.metrics, downPart_eq_min]
  upper_eq := by simp only [curve, upperEdge, RangeWidth.above, Signals.metrics, upPart_eq_max]
  shift_le := by
    -- the cap is taken against `2w + 1`, the unshifted span
    have hcap := capShift_natAbs_le s.curveRawShift (2 * s.curvePerSide + 1) s.maxBins
    obtain ⟨h₁, h₂⟩ := s.curvePerSide_mem
    rw [toInt_two_mul_add_one (by omega) h₂] at hcap
    simp only [curve, Signals.metrics, RangeWidth.bins, RangeWidth.below, RangeWidth.above]
    omega

theorem Signals.toInt_splitBase (ctx : MarketContext) :
    ((s.bidSide ctx).bins + (s.askSide ctx).bins + 1).toInt =
      (s.bidSide ctx).bins.toInt + (s.askSide ctx).bins.toInt + 1 := by
  obtain ⟨h₁, h₂⟩ := s.bidSide_mem ctx
  obtain ⟨h₃, h₄⟩ := s.askSide_mem ctx
  have hsum : ((s.bidSide ctx).bins + (s.askSide ctx).bins).toInt =
      (s.bidSide ctx).bins.toInt + (s.askSide ctx).bins.toInt := by
    rw [Saturating.toInt_wrapping_add] <;> simp only [Saturating.lo, Saturating.hi] <;> omega
  rw [Saturating.toInt_wrapping_add, hsum, Int32.toInt_one] <;>
    simp only [hsum, Int32.toInt_one, Saturating.lo, Saturating.hi] <;> omega

theorem bidAsk_laidOut (ctx : MarketContext) : (bidAsk s ctx).LaidOut .bidAsk s.active s.maxBins where
  strategy_eq := rfl
  shapes := by
    obtain ⟨h₁, h₂⟩ := s.bidSide_mem ctx
    obtain ⟨h₃, h₄⟩ := s.askSide_mem ctx
    exact ⟨⟨_, _, rfl, h₁, h₂, h₃, h₄⟩, rfl⟩
  lower_eq := by simp only [bidAsk, lowerEdge, RangeWidth.below, Signals.metrics, downPart_eq_min]
  upper_eq := by simp only [bidAsk, upperEdge, RangeWidth.above, Signals.metrics, upPart_eq_max]
  shift_le := by
    -- the cap is taken against `bid + ask + 1`, the unshifted span
    have hcap := capShift_natAbs_le s.bidAskRawShift
      ((s.bidSide ctx).bins + (s.askSide ctx).bins + 1) s.maxBins
    rw [s.toInt_splitBase ctx] at hcap
    simp only [bidAsk, Signals.metrics, RangeWidth.bins, RangeWidth.below, RangeWidth.above]
    exact hcap

/-- The recommendation a strategy makes from the signals, reading the context's coverage nodes. -/
def Signals.recommendFor (ctx : MarketContext) : Strategy → Recommendation
  | .spot => spot s
  | .curve => curve s
  | .bidAsk => bidAsk s ctx

theorem Signals.recommendFor_laidOut (ctx : MarketContext) (strategy : Strategy) :
    (s.recommendFor ctx strategy).LaidOut strategy s.active s.maxBins := by
  cases strategy with
  | spot => exact spot_laidOut s
  | curve => exact curve_laidOut s
  | bidAsk => exact bidAsk_laidOut s ctx

end Strategies

/-- With a non-zero bin step, `recommend` answers with the strategy's recommendation from the
signals of the context. -/
theorem recommend_eq_ok {pool : Pool} (hstep : 0 < pool.binStep) (strategy : Strategy)
    (ctx : MarketContext) (oracle : Option Float) (maxBins : UInt32) :
    recommend strategy pool ctx oracle maxBins =
      .ok ((Signals.ofContext pool ctx oracle maxBins).recommendFor ctx strategy) := by
  have hcheck : Bins.checkStep pool.binStep = .ok () := by
    have hne : pool.binStep ≠ 0 := by
      intro h
      rw [h] at hstep
      exact absurd hstep (by decide)
    simp [Bins.checkStep, hne]
  rw [recommend, hcheck]
  cases strategy <;> rfl

/-- With a non-zero bin step every strategy answers, and lays its range out as it should. -/
theorem recommend_ok {pool : Pool} (hstep : 0 < pool.binStep) (strategy : Strategy)
    (ctx : MarketContext) (oracle : Option Float) (maxBins : UInt32) :
    ∃ r, recommend strategy pool ctx oracle maxBins = .ok r ∧
      r.LaidOut strategy pool.activeBin maxBins :=
  ⟨_, recommend_eq_ok hstep strategy ctx oracle maxBins,
    (Signals.ofContext pool ctx oracle maxBins).recommendFor_laidOut ctx strategy⟩

namespace Recommendation.LaidOut

variable {r : Recommendation} {strategy : Strategy} {a : Int32} {maxBins : UInt32}

theorem width_mem (h : r.LaidOut strategy a maxBins) :
    0 ≤ r.width.below.toInt ∧ 0 ≤ r.width.above.toInt ∧ r.width.bins ≤ 51 := by
  have hs := h.shapes
  cases strategy with
  | spot =>
    obtain ⟨⟨w, hw, h₁, h₂⟩, -, -⟩ := hs
    simp only [RangeWidth.bins, hw, RangeWidth.below, RangeWidth.above]
    omega
  | curve =>
    obtain ⟨⟨w, hw, h₁, h₂⟩, -⟩ := hs
    simp only [RangeWidth.bins, hw, RangeWidth.below, RangeWidth.above]
    omega
  | bidAsk =>
    obtain ⟨⟨b, k, hw, h₁, h₂, h₃, h₄⟩, -⟩ := hs
    simp only [RangeWidth.bins, hw, RangeWidth.below, RangeWidth.above]
    omega

theorem lower_le_center (h : r.LaidOut strategy a maxBins) : r.lower ≤ r.center := by
  obtain ⟨hb, -, -⟩ := h.width_mem
  have hs := h.shapes
  rw [Int32.le_iff_toInt_le, h.lower_eq]
  cases strategy with
  | spot => rw [hs.2.1]; exact lowerEdge_le _ _ hb
  | curve => rw [hs.2]; exact lowerEdge_le_shifted _ _ hb
  | bidAsk => rw [hs.2]; exact lowerEdge_le _ _ hb

theorem center_le_upper (h : r.LaidOut strategy a maxBins) : r.center ≤ r.upper := by
  obtain ⟨-, hk, -⟩ := h.width_mem
  have hs := h.shapes
  rw [Int32.le_iff_toInt_le, h.upper_eq]
  cases strategy with
  | spot => rw [hs.2.1]; exact le_upperEdge _ _ hk
  | curve => rw [hs.2]; exact shifted_le_upperEdge _ _ hk
  | bidAsk => rw [hs.2]; exact le_upperEdge _ _ hk

theorem span_le_bins_add (h : r.LaidOut strategy a maxBins) :
    (r.range.span.toNat : Int) ≤ r.width.bins + r.metrics.shift.toInt.natAbs := by
  obtain ⟨hb, hk, -⟩ := h.width_mem
  have hspan := BinRange.span_le r.range
  have hedges := upperEdge_sub_lowerEdge a r.metrics.shift hb hk
  rw [← h.lower_eq, ← h.upper_eq] at hedges
  simp only [Recommendation.range, RangeWidth.bins] at *
  omega

theorem span_le (h : r.LaidOut strategy a maxBins) :
    (r.range.span.toNat : Int) ≤ max (maxBins.toNat : Int) r.width.bins := by
  have hspan := h.span_le_bins_add
  have hshift := h.shift_le
  omega

theorem span_le_limit (h : r.LaidOut strategy a maxBins) (hb : r.width.bins ≤ maxBins.toNat) :
    r.range.span ≤ maxBins := by
  have hspan := h.span_le
  rw [UInt32.le_iff_toNat_le]
  omega

end Recommendation.LaidOut

/-- Every strategy answers a pool with a non-zero step with a range ordered around its center,
laid out by the strategy's formulas, whose shift fits the room the bin limit leaves: the range
spans at most the larger of the limit and its unshifted span. -/
theorem recommend_laid_out (strategy : Strategy) (pool : Pool) (ctx : MarketContext)
    (oracle : Option Float) (maxBins : UInt32) (hstep : 0 < pool.binStep) :
    ∃ r, recommend strategy pool ctx oracle maxBins = .ok r ∧
      r.LaidOut strategy pool.activeBin maxBins ∧ r.lower ≤ r.center ∧ r.center ≤ r.upper ∧
      (r.range.span.toNat : Int) ≤ max (maxBins.toNat : Int) r.width.bins ∧
      (r.width.bins ≤ maxBins.toNat → r.range.span ≤ maxBins) := by
  obtain ⟨r, hr, hlaid⟩ := recommend_ok hstep strategy ctx oracle maxBins
  exact ⟨r, hr, hlaid, hlaid.lower_le_center, hlaid.center_le_upper, hlaid.span_le,
    hlaid.span_le_limit⟩

/-- A pool of 20 basis point bins, two bins below the top bin. -/
def nearTopPool : Pool :=
  ⟨"pool", ⟨"MX", "X", 6⟩, ⟨"MY", "Y", 6⟩, 20, 2147483645, none, none, none, none⟩

theorem recommend_laid_out_near_top :
    0 < nearTopPool.binStep ∧
      ∃ r, recommend .curve nearTopPool MarketContext.empty none 19 = .ok r ∧
        r.LaidOut .curve nearTopPool.activeBin 19 ∧ r.lower ≤ r.center ∧ r.center ≤ r.upper ∧
        (r.range.span.toNat : Int) ≤ max ((19 : UInt32).toNat : Int) r.width.bins ∧
        (r.width.bins ≤ (19 : UInt32).toNat → r.range.span ≤ 19) :=
  ⟨by decide, recommend_laid_out .curve nearTopPool MarketContext.empty none 19 (by decide)⟩

end RangeAdvisor
