import RangeAdvisor.Proofs.RangeShape
import RangeAdvisor.Proofs.Float.Floor

/-!
# Wider ranges for stronger signals

A recommendation grows with the market signals it reads. A higher volatility score widens the sides
of every strategy; a larger deviation from the oracle widens spot by a bin past 25% and moves curve
and bid-ask further toward the bias; a higher average true range raises bid-ask's coverage targets,
so each side walks further along nodes listed nearest first. Every width is a float formula rounded
half up and clamped, monotone because float arithmetic, the floor and the clamps are. The cap on the
shift never takes back more than the sides gained, so the unshifted span plus the shift grows too,
and that is the range's span when neither edge stops at a 32-bit limit. Main statement:
`recommend_widens`.
-/

set_option autoImplicit false

open Float.Model Float.Model.UnpackedFloat

namespace RangeAdvisor

/-- The unshifted span plus the capped shift grows with the span and with the size of the raw
shift: the room lost to a wider span is at most what the span gained. -/
theorem reach_mono {raw₁ raw₂ base₁ base₂ : Int32} (maxBins : UInt32)
    (hbase : base₁.toInt ≤ base₂.toInt) (hraw : raw₁.toInt.natAbs ≤ raw₂.toInt.natAbs) :
    base₁.toInt + (capShift raw₁ base₁ maxBins).toInt.natAbs ≤
      base₂.toInt + (capShift raw₂ base₂ maxBins).toInt.natAbs := by
  have h₁ := natAbs_capShift raw₁ base₁ maxBins
  have h₂ := natAbs_capShift raw₂ base₂ maxBins
  omega

namespace Recommendation

/-- Neither edge of a range laid out around `a` stopped at a 32-bit limit: each is the exact sum of
`a`, the side's width and the part of the shift on that side. -/
def Unsaturated (r : Recommendation) (a : Int32) : Prop :=
  r.lower.toInt = a.toInt - r.width.below.toInt + min r.metrics.shift.toInt 0 ∧
    r.upper.toInt = a.toInt + r.width.above.toInt + max r.metrics.shift.toInt 0

/-- `r₂` is at least as wide as `r₁` on each side, and spans at least as many bins unless an edge
of `r₂` stopped at a 32-bit limit. -/
structure Widens (r₁ r₂ : Recommendation) (a : Int32) : Prop where
  below_le : r₁.width.below.toInt ≤ r₂.width.below.toInt
  above_le : r₁.width.above.toInt ≤ r₂.width.above.toInt
  span_le : r₂.Unsaturated a → r₁.range.span ≤ r₂.range.span

namespace LaidOut

variable {r r₁ r₂ : Recommendation} {strategy strategy₂ : Strategy} {a : Int32}
  {maxBins maxBins₂ : UInt32}

theorem span_eq (h : r.LaidOut strategy a maxBins) (hu : r.Unsaturated a) :
    (r.range.span.toNat : Int) = r.width.bins + r.metrics.shift.toInt.natAbs := by
  obtain ⟨hb, hk, hbins⟩ := h.width_mem
  have hle : r.lower ≤ r.upper := by
    have h₁ := h.lower_le_center
    have h₂ := h.center_le_upper
    rw [Int32.le_iff_toInt_le] at *
    omega
  have hs₁ := Saturating.lo_le_toInt r.metrics.shift
  have hs₂ := Saturating.toInt_le_hi r.metrics.shift
  obtain ⟨hlo, hhi⟩ := hu
  rw [BinRange.span_toNat_of_le r.range hle, show BinRange.countMax = 4294967295 from rfl]
  simp only [Recommendation.range, RangeWidth.bins, Saturating.lo, Saturating.hi] at *
  omega

/-- Two ranges laid out around one bin: when the second is at least as wide on each side and its
unshifted span plus shift is at least the first's, it widens the first. -/
theorem widens (h₁ : r₁.LaidOut strategy a maxBins) (h₂ : r₂.LaidOut strategy₂ a maxBins₂)
    (hb : r₁.width.below.toInt ≤ r₂.width.below.toInt)
    (ha : r₁.width.above.toInt ≤ r₂.width.above.toInt)
    (hreach : r₁.width.bins + r₁.metrics.shift.toInt.natAbs ≤
      r₂.width.bins + r₂.metrics.shift.toInt.natAbs) :
    r₁.Widens r₂ a where
  below_le := hb
  above_le := ha
  span_le hu := by
    have hspan₁ := h₁.span_le_bins_add
    have hspan₂ := h₂.span_eq hu
    rw [UInt32.le_iff_toNat_le]
    omega

end LaidOut

end Recommendation

/-! ### Widths and shifts from the signals -/

/-- `c + v·k` rounded half up and clamped into `[lo, hi]` grows with `v`, for a finite `c` and a
finite positive `k`: the form of every volatility width. -/
theorem scaledWidth_mono {c k : Float} {lo hi : Int32} (hc : c.isFinite = true)
    (hk : (0 : Float) < k) (hkf : k.isFinite = true) (hlh : lo.toInt ≤ hi.toInt) {v₁ v₂ : Float}
    (h : v₁ ≤ v₂) :
    (Saturating.clamp (Saturating.roundHalfUp (c + v₁ * k)) lo hi).toInt ≤
      (Saturating.clamp (Saturating.roundHalfUp (c + v₂ * k)) lo hi).toInt :=
  Saturating.clamp_mono hlh
    (Saturating.roundHalfUp_mono (Binary64.add_le_add_left hc (Binary64.mul_le_mul_of_pos hk hkf h)))

/-- A shift toward the bias: an input of at least one, scaled by the bias's sign and rounded half
up, grows in size with the input. -/
theorem natAbs_roundHalfUp_mul_signum_le (b : Bias) {x₁ x₂ : Float} (h₁ : (1.0 : Float) ≤ x₁)
    (h : x₁ ≤ x₂) :
    (Saturating.roundHalfUp (x₁ * Float.ofInt b.signum.toInt)).toInt.natAbs ≤
      (Saturating.roundHalfUp (x₂ * Float.ofInt b.signum.toInt)).toInt.natAbs := by
  cases b with
  | bullish =>
    have hpos : (0 : Float) < Float.ofInt Bias.bullish.signum.toInt := by decide
    have hfin : (Float.ofInt Bias.bullish.signum.toInt).isFinite = true := by decide
    have hone : (Saturating.roundHalfUp (1.0 * Float.ofInt Bias.bullish.signum.toInt)).toInt = 1 := by
      decide
    have hlow := Saturating.roundHalfUp_mono (Binary64.mul_le_mul_of_pos hpos hfin h₁)
    have hmono := Saturating.roundHalfUp_mono (Binary64.mul_le_mul_of_pos hpos hfin h)
    omega
  | bearish =>
    have hneg : Float.ofInt Bias.bearish.signum.toInt < (0 : Float) := by decide
    have hfin : (Float.ofInt Bias.bearish.signum.toInt).isFinite = true := by decide
    have hone : (Saturating.roundHalfUp (1.0 * Float.ofInt Bias.bearish.signum.toInt)).toInt = -1 := by
      decide
    have hlow := Saturating.roundHalfUp_mono (Binary64.mul_le_mul_of_neg hneg hfin h₁)
    have hmono := Saturating.roundHalfUp_mono (Binary64.mul_le_mul_of_neg hneg hfin h)
    omega
  | neutral =>
    have hz : (Float.ofInt Bias.neutral.signum.toInt).toModel.unpack = .zero .positive := rfl
    rw [Saturating.roundHalfUp_mul_zero _ hz, Saturating.roundHalfUp_mul_zero _ hz]

/-! ### Walking the coverage nodes -/

/-- How far a node's bin lies from the active bin. -/
def CoverageNode.distance (active : Int32) (n : CoverageNode) : ℕ :=
  (n.binId.toInt - active.toInt).natAbs

/-- Nodes listed nearest the active bin first. -/
def NearestFirst (active : Int32) (nodes : List CoverageNode) : Prop :=
  nodes.Pairwise fun m n => m.distance active ≤ n.distance active

section Walk

variable {active : Int32}

/-- A walk along nodes listed nearest first ends no nearer than where it starts, when every node
lies at least that far. -/
theorem le_coverageWalk (t : Float) {nodes : List CoverageNode} (hs : NearestFirst active nodes)
    {covered : Float} {d : Int} (hd : ∀ n ∈ nodes, d ≤ n.distance active) :
    d ≤ (coverageWalk active t nodes covered d).2 := by
  induction nodes generalizing covered d with
  | nil => exact le_rfl
  | cons n rest ih =>
    obtain ⟨hn, hrest⟩ := List.pairwise_cons.mp hs
    have hdn := hd n List.mem_cons_self
    rw [coverageWalk]
    split
    · exact hdn
    · exact hdn.trans (ih hrest fun m hm => by exact_mod_cast hn m hm)

/-- A higher target walks at least as far along nodes listed nearest first: a walk that stops at a
node for the higher target stops there or before for the lower one. -/
theorem coverageWalk_mono {t₁ t₂ : Float} (ht : t₁ ≤ t₂) {nodes : List CoverageNode}
    (hs : NearestFirst active nodes) (covered : Float) (d : Int) :
    (coverageWalk active t₁ nodes covered d).2 ≤ (coverageWalk active t₂ nodes covered d).2 := by
  induction nodes generalizing covered d with
  | nil => exact le_rfl
  | cons n rest ih =>
    obtain ⟨hn, hrest⟩ := List.pairwise_cons.mp hs
    rw [coverageWalk, coverageWalk]
    by_cases h₂ : covered + n.weight ≥ t₂
    · rw [if_pos (Binary64.le_trans ht h₂), if_pos h₂]
    · rw [if_neg h₂]
      by_cases h₁ : covered + n.weight ≥ t₁
      · -- only the lower target stops here; the other walks on to nodes no nearer
        rw [if_pos h₁]
        show ((n.distance active : ℕ) : Int) ≤
          (coverageWalk active t₂ rest (covered + n.weight) (n.distance active)).2
        exact le_coverageWalk t₂ hrest fun m hm => by exact_mod_cast hn m hm
      · rw [if_neg h₁]
        exact ih hrest _ _

end Walk

section Coverage

variable {nodes : List CoverageNode} {active : Int32} {lo hi : Int32}

theorem coverageSpan_bins_mono_fallback (t : Float) {f₁ f₂ : Int32} (hf : f₁.toInt ≤ f₂.toInt) :
    (coverageSpan nodes active t lo hi f₁).bins.toInt ≤
      (coverageSpan nodes active t lo hi f₂).bins.toInt := by
  unfold coverageSpan
  split
  · exact hf
  · exact le_rfl

theorem coverageSpan_bins_mono_target {t₁ t₂ : Float} (ht : t₁ ≤ t₂) (hs : NearestFirst active nodes)
    (hlh : lo.toInt ≤ hi.toInt) (f : Int32) :
    (coverageSpan nodes active t₁ lo hi f).bins.toInt ≤
      (coverageSpan nodes active t₂ lo hi f).bins.toInt := by
  have hwalk := coverageWalk_mono ht hs 0.0 0
  unfold coverageSpan
  split
  · exact le_rfl
  · generalize coverageWalk active t₁ nodes 0.0 0 = w₁ at hwalk
    generalize coverageWalk active t₂ nodes 0.0 0 = w₂ at hwalk
    obtain ⟨c₁, d₁⟩ := w₁
    obtain ⟨c₂, d₂⟩ := w₂
    exact Saturating.clamp_mono hlh (Saturating.ofInt_mono hwalk)

end Coverage

/-! ### The trend of the average true range -/

/-- A higher average true range never moves the trend down: contracting, stable, expanding. -/
theorem AtrTrend.adjustment_ofAtr_mono {a₁ a₂ : Float} (h : a₁ ≤ a₂) :
    (AtrTrend.ofAtr (some a₁)).adjustment ≤ (AtrTrend.ofAtr (some a₂)).adjustment := by
  have hlow : ∀ t : AtrTrend, (-0.15 : Float) ≤ t.adjustment := by
    intro t
    cases t <;> decide
  simp only [AtrTrend.ofAtr]
  by_cases e₁ : a₁ > 0.02
  · rw [if_pos e₁, if_pos (Binary64.lt_of_lt_of_le e₁ h)]
    decide
  · rw [if_neg e₁]
    by_cases c₁ : a₁ < 0.008
    · rw [if_pos c₁]
      exact hlow _
    · rw [if_neg c₁]
      -- from stable the trend can only stay or expand: contracting would put `a₁` below 0.8%
      have c₂ : ¬ a₂ < 0.008 := fun c₂ => c₁ (Binary64.lt_of_le_of_lt h c₂)
      by_cases e₂ : a₂ > 0.02
      · rw [if_pos e₂]
        decide
      · rw [if_neg e₂, if_neg c₂]
        decide

theorem bidTarget_mono_trend (b : Bias) {t₁ t₂ : AtrTrend} (h : t₁.adjustment ≤ t₂.adjustment) :
    Binary64.clamp (0.55 + t₁.adjustment - (if b == .bearish then 0.1 else 0.0)) 0.35 0.9 ≤
      Binary64.clamp (0.55 + t₂.adjustment - (if b == .bearish then 0.1 else 0.0)) 0.35 0.9 := by
  cases t₁ <;> cases t₂ <;> cases b <;> revert h <;> decide

theorem askTarget_mono_trend (b : Bias) {t₁ t₂ : AtrTrend} (h : t₁.adjustment ≤ t₂.adjustment) :
    Binary64.clamp (0.65 + t₁.adjustment + (if b == .bullish then 0.1 else 0.0)) 0.4 0.95 ≤
      Binary64.clamp (0.65 + t₂.adjustment + (if b == .bullish then 0.1 else 0.0)) 0.4 0.95 := by
  cases t₁ <;> cases t₂ <;> cases b <;> revert h <;> decide

/-! ### What each width reads

Each width and shift reads a few of the signals; these lemmas compare two signals on those alone. -/

namespace Signals

variable {s₁ s₂ : Signals}

theorem spotBase_mono (h : s₁.volatility ≤ s₂.volatility) : s₁.spotBase.toInt ≤ s₂.spotBase.toInt :=
  scaledWidth_mono (by decide) (by decide) (by decide) (by decide) h

theorem curvePerSide_mono (h : s₁.volatility ≤ s₂.volatility) :
    s₁.curvePerSide.toInt ≤ s₂.curvePerSide.toInt :=
  scaledWidth_mono (by decide) (by decide) (by decide) (by decide) h

theorem bidFallback_mono (h : s₁.volatility ≤ s₂.volatility) :
    s₁.bidFallback.toInt ≤ s₂.bidFallback.toInt :=
  scaledWidth_mono (by decide) (by decide) (by decide) (by decide) h

theorem askFallback_mono (h : s₁.volatility ≤ s₂.volatility) :
    s₁.askFallback.toInt ≤ s₂.askFallback.toInt :=
  scaledWidth_mono (by decide) (by decide) (by decide) (by decide) h

theorem spotPerSide_mono (hb : s₁.spotBase.toInt ≤ s₂.spotBase.toInt)
    (hd : s₁.deviation > spotExpansion → s₂.deviation > spotExpansion) :
    s₁.spotPerSide.toInt ≤ s₂.spotPerSide.toInt := by
  rw [toInt_spotPerSide, toInt_spotPerSide]
  by_cases h₁ : s₁.deviation > spotExpansion
  · rw [if_pos h₁, if_pos (hd h₁)]
    omega
  · rw [if_neg h₁]
    split <;> omega

theorem curveRawShift_eq (s : Signals) :
    s.curveRawShift = Saturating.roundHalfUp
      (Binary64.greater (s.deviation * 10.0) 1.0 * Float.ofInt s.bias.signum.toInt) := by
  rw [curveRawShift, Binary64.float_mul_comm]

/-- Curve's shift grows in size with the deviation: ten bins per unit, and at least one. -/
theorem curveRawShift_natAbs_mono (hb : s₁.bias = s₂.bias) (h : s₁.deviation ≤ s₂.deviation) :
    s₁.curveRawShift.toInt.natAbs ≤ s₂.curveRawShift.toInt.natAbs := by
  have hone : (1.0 : Float).isNaN = false := by decide
  have hscale := Binary64.mul_le_mul_of_pos (c := 10.0) (by decide) (by decide) h
  rw [curveRawShift_eq, curveRawShift_eq, hb]
  exact natAbs_roundHalfUp_mul_signum_le s₂.bias (Binary64.le_greater_right hone _)
    (Binary64.greater_mono_left hone hscale)

/-- Bid-ask's shift grows in size with a deviation that is not negative: one bin plus ten per
unit. -/
theorem bidAskRawShift_natAbs_mono (hb : s₁.bias = s₂.bias) (h₀ : 0 ≤ s₁.deviation)
    (h : s₁.deviation ≤ s₂.deviation) :
    s₁.bidAskRawShift.toInt.natAbs ≤ s₂.bidAskRawShift.toInt.natAbs := by
  have hstep : ∀ {x y : Float}, x ≤ y → x * 10.0 + 1.0 ≤ y * 10.0 + 1.0 := fun hxy =>
    Binary64.add_le_add_right (by decide) (Binary64.mul_le_mul_of_pos (by decide) (by decide) hxy)
  have hone : (1.0 : Float) ≤ 0 * 10.0 + 1.0 := by decide
  rw [bidAskRawShift, bidAskRawShift, hb]
  exact natAbs_roundHalfUp_mul_signum_le s₂.bias (Binary64.le_trans hone (hstep h₀)) (hstep h)

theorem bidTarget_mono (h : (AtrTrend.ofAtr s₁.atr).adjustment ≤ (AtrTrend.ofAtr s₂.atr).adjustment)
    (hb : s₁.bias = s₂.bias) :
    s₁.bidTarget ≤ s₂.bidTarget := by
  unfold bidTarget
  rw [hb]
  exact bidTarget_mono_trend s₂.bias h

theorem askTarget_mono (h : (AtrTrend.ofAtr s₁.atr).adjustment ≤ (AtrTrend.ofAtr s₂.atr).adjustment)
    (hb : s₁.bias = s₂.bias) :
    s₁.askTarget ≤ s₂.askTarget := by
  unfold askTarget
  rw [hb]
  exact askTarget_mono_trend s₂.bias h

end Signals

/-- The deviation from the oracle is never below zero: a magnitude divided by a positive price, or
zero. -/
theorem priceDeviation_nonneg (price : Float) (oracle : Option Float)
    (h : (priceDeviation price oracle).isNaN = false) : 0 ≤ priceDeviation price oracle := by
  have hzero : (0.0 : Float).toModel.unpack = .zero .positive := rfl
  apply Binary64.zero_le_of_nonNeg h
  unfold priceDeviation
  split
  · rename_i o
    split
    · rename_i hok
      obtain ⟨hfin, hpos⟩ : o.isFinite = true ∧ (0 : Float) < o := by simpa using hok
      obtain ⟨m, e, hm, ho⟩ := Binary64.unpack_of_pos hpos hfin
      rw [Binary64.unpack_div, ho, Binary64.unpack_abs]
      exact Unpacked.nonNeg_repack (Unpacked.nonNeg_div (Unpacked.nonNeg_repack (Unpacked.nonNeg_abs _)) rfl)
    · rw [hzero]
      rfl
  · rw [hzero]
    rfl

/-! ### Each strategy widens with its widths -/

section Strategies

variable {s₁ s₂ : Signals}

theorem spot_widens (ha : s₁.active = s₂.active) (hw : s₁.spotPerSide.toInt ≤ s₂.spotPerSide.toInt) :
    (spot s₁).Widens (spot s₂) s₁.active := by
  have h₂ := spot_laidOut s₂
  rw [← ha] at h₂
  refine (spot_laidOut s₁).widens h₂ hw hw ?_
  simp only [spot, Signals.metrics, RangeWidth.bins, RangeWidth.below, RangeWidth.above,
    Int32.toInt_zero]
  omega

theorem curve_widens (ha : s₁.active = s₂.active) (hM : s₁.maxBins = s₂.maxBins)
    (hw : s₁.curvePerSide.toInt ≤ s₂.curvePerSide.toInt)
    (hr : s₁.curveRawShift.toInt.natAbs ≤ s₂.curveRawShift.toInt.natAbs) :
    (curve s₁).Widens (curve s₂) s₁.active := by
  have h₂ := curve_laidOut s₂
  rw [← ha] at h₂
  obtain ⟨h₁lo, h₁hi⟩ := s₁.curvePerSide_mem
  obtain ⟨h₂lo, h₂hi⟩ := s₂.curvePerSide_mem
  have hbase₁ := toInt_two_mul_add_one (w := s₁.curvePerSide) (by omega) h₁hi
  have hbase₂ := toInt_two_mul_add_one (w := s₂.curvePerSide) (by omega) h₂hi
  have hbase : (2 * s₁.curvePerSide + 1).toInt ≤ (2 * s₂.curvePerSide + 1).toInt := by
    rw [hbase₁, hbase₂]
    omega
  -- the cap is taken against `2w + 1` under the same limit
  have hreach := reach_mono s₂.maxBins hbase hr
  rw [hbase₁, hbase₂] at hreach
  refine (curve_laidOut s₁).widens h₂ hw hw ?_
  simp only [curve, Signals.metrics, RangeWidth.bins, RangeWidth.below, RangeWidth.above, hM]
  omega

theorem bidAsk_widens {ctx₁ ctx₂ : MarketContext} (ha : s₁.active = s₂.active)
    (hM : s₁.maxBins = s₂.maxBins) (hb : (s₁.bidSide ctx₁).bins.toInt ≤ (s₂.bidSide ctx₂).bins.toInt)
    (hk : (s₁.askSide ctx₁).bins.toInt ≤ (s₂.askSide ctx₂).bins.toInt)
    (hr : s₁.bidAskRawShift.toInt.natAbs ≤ s₂.bidAskRawShift.toInt.natAbs) :
    (bidAsk s₁ ctx₁).Widens (bidAsk s₂ ctx₂) s₁.active := by
  have h₂ := bidAsk_laidOut s₂ ctx₂
  rw [← ha] at h₂
  have hbase : ((s₁.bidSide ctx₁).bins + (s₁.askSide ctx₁).bins + 1).toInt ≤
      ((s₂.bidSide ctx₂).bins + (s₂.askSide ctx₂).bins + 1).toInt := by
    rw [s₁.toInt_splitBase ctx₁, s₂.toInt_splitBase ctx₂]
    omega
  -- the cap is taken against `bid + ask + 1` under the same limit
  have hreach := reach_mono s₂.maxBins hbase hr
  rw [s₁.toInt_splitBase ctx₁, s₂.toInt_splitBase ctx₂] at hreach
  refine (bidAsk_laidOut s₁ ctx₁).widens h₂ hb hk ?_
  simp only [bidAsk, Signals.metrics, RangeWidth.bins, RangeWidth.below, RangeWidth.above, hM]
  omega

end Strategies

/-! ### Changing one signal of the context -/

section Context

variable (pool : Pool) (ctx : MarketContext) (oracle : Option Float) (maxBins : UInt32)

theorem Signals.volatility_ofContext {v : Float} (hv : v.isFinite = true) (h₀ : 0 ≤ v) :
    (Signals.ofContext pool { ctx with volatility := some v } oracle maxBins).volatility = v := by
  have hkeep : (v.isFinite && decide (v ≥ 0)) = true := by simp [hv, h₀]
  simp only [Signals.ofContext]
  rw [Option.filter_some_pos (p := fun x : Float => x.isFinite && decide (x ≥ 0)) hkeep]
  rfl

theorem Signals.atr_ofContext {a : Float} (ha : a.isFinite = true) :
    (Signals.ofContext pool { ctx with atr := some a } oracle maxBins).atr = some a := by
  simp only [Signals.ofContext, Option.filter_some_pos ha]

/-- A higher volatility score widens every strategy's range. -/
theorem recommendFor_widens_of_volatility (strategy : Strategy) {v₁ v₂ : Float}
    (hv₁ : v₁.isFinite = true) (hv₂ : v₂.isFinite = true) (h₀ : 0 ≤ v₁) (h : v₁ ≤ v₂) :
    ((Signals.ofContext pool { ctx with volatility := some v₁ } oracle maxBins).recommendFor
        { ctx with volatility := some v₁ } strategy).Widens
      ((Signals.ofContext pool { ctx with volatility := some v₂ } oracle maxBins).recommendFor
        { ctx with volatility := some v₂ } strategy) pool.activeBin := by
  have hvol : (Signals.ofContext pool { ctx with volatility := some v₁ } oracle maxBins).volatility ≤
      (Signals.ofContext pool { ctx with volatility := some v₂ } oracle maxBins).volatility := by
    rw [Signals.volatility_ofContext pool ctx oracle maxBins hv₁ h₀,
      Signals.volatility_ofContext pool ctx oracle maxBins hv₂ (Binary64.le_trans h₀ h)]
    exact h
  -- the score moves the widths alone; the deviation, bias, trend and nodes stay
  cases strategy with
  | spot => exact spot_widens rfl (Signals.spotPerSide_mono (Signals.spotBase_mono hvol) id)
  | curve => exact curve_widens rfl rfl (Signals.curvePerSide_mono hvol) le_rfl
  | bidAsk =>
    exact bidAsk_widens rfl rfl
      (coverageSpan_bins_mono_fallback _ (Signals.bidFallback_mono hvol))
      (coverageSpan_bins_mono_fallback _ (Signals.askFallback_mono hvol)) le_rfl

/-- A larger deviation from the oracle widens every strategy's range. -/
theorem recommendFor_widens_of_deviation (strategy : Strategy) {o₁ o₂ : Option Float}
    (h : priceDeviation pool.currentPrice o₁ ≤ priceDeviation pool.currentPrice o₂) :
    ((Signals.ofContext pool ctx o₁ maxBins).recommendFor ctx strategy).Widens
      ((Signals.ofContext pool ctx o₂ maxBins).recommendFor ctx strategy) pool.activeBin := by
  have h₀ := priceDeviation_nonneg _ _ (Binary64.isNaN_eq_false_of_le_left h)
  -- the deviation moves spot's extra bin and the shifts alone
  cases strategy with
  | spot =>
    exact spot_widens rfl (Signals.spotPerSide_mono le_rfl fun h₁ => Binary64.lt_of_lt_of_le h₁ h)
  | curve => exact curve_widens rfl rfl le_rfl (Signals.curveRawShift_natAbs_mono rfl h)
  | bidAsk => exact bidAsk_widens rfl rfl le_rfl le_rfl (Signals.bidAskRawShift_natAbs_mono rfl h₀ h)

/-- A higher average true range widens bid-ask's range when its coverage nodes are listed nearest
first. -/
theorem bidAsk_widens_of_atr (hbid : NearestFirst pool.activeBin ctx.bidNodes)
    (hask : NearestFirst pool.activeBin ctx.askNodes) {a₁ a₂ : Float} (ha₁ : a₁.isFinite = true)
    (ha₂ : a₂.isFinite = true) (h : a₁ ≤ a₂) :
    (bidAsk (Signals.ofContext pool { ctx with atr := some a₁ } oracle maxBins)
        { ctx with atr := some a₁ }).Widens
      (bidAsk (Signals.ofContext pool { ctx with atr := some a₂ } oracle maxBins)
        { ctx with atr := some a₂ }) pool.activeBin := by
  have hadj : (AtrTrend.ofAtr (Signals.ofContext pool { ctx with atr := some a₁ } oracle maxBins).atr).adjustment ≤
      (AtrTrend.ofAtr (Signals.ofContext pool { ctx with atr := some a₂ } oracle maxBins).atr).adjustment := by
    rw [Signals.atr_ofContext pool ctx oracle maxBins ha₁, Signals.atr_ofContext pool ctx oracle maxBins ha₂]
    exact AtrTrend.adjustment_ofAtr_mono h
  -- the trend moves the coverage targets alone, and each side walks further
  exact bidAsk_widens rfl rfl
    (coverageSpan_bins_mono_target (Signals.bidTarget_mono hadj rfl) hbid (by decide) _)
    (coverageSpan_bins_mono_target (Signals.askTarget_mono hadj rfl) hask (by decide) _) le_rfl

end Context

/-- Stronger market signals never give a narrower range. For a pool with a non-zero bin step, each
of these gives a recommendation at least as wide on each side, spanning at least as many bins unless
one of its edges stops at a 32-bit limit: a higher volatility score, finite and not negative, for
every strategy; a larger deviation of the pool price from the oracle, for every strategy; and a
higher finite average true range, for bid-ask with its coverage nodes listed nearest first. -/
theorem recommend_widens (pool : Pool) (ctx : MarketContext) (oracle : Option Float)
    (maxBins : UInt32) (hstep : 0 < pool.binStep) :
    (∀ (strategy : Strategy) (v₁ v₂ : Float), v₁.isFinite = true → v₂.isFinite = true → 0 ≤ v₁ →
      v₁ ≤ v₂ → ∃ r₁ r₂,
        recommend strategy pool { ctx with volatility := some v₁ } oracle maxBins = .ok r₁ ∧
        recommend strategy pool { ctx with volatility := some v₂ } oracle maxBins = .ok r₂ ∧
        r₁.Widens r₂ pool.activeBin) ∧
    (∀ (strategy : Strategy) (o₁ o₂ : Option Float),
      priceDeviation pool.currentPrice o₁ ≤ priceDeviation pool.currentPrice o₂ → ∃ r₁ r₂,
        recommend strategy pool ctx o₁ maxBins = .ok r₁ ∧
        recommend strategy pool ctx o₂ maxBins = .ok r₂ ∧ r₁.Widens r₂ pool.activeBin) ∧
    (NearestFirst pool.activeBin ctx.bidNodes → NearestFirst pool.activeBin ctx.askNodes →
      ∀ a₁ a₂ : Float, a₁.isFinite = true → a₂.isFinite = true → a₁ ≤ a₂ → ∃ r₁ r₂,
        recommend .bidAsk pool { ctx with atr := some a₁ } oracle maxBins = .ok r₁ ∧
        recommend .bidAsk pool { ctx with atr := some a₂ } oracle maxBins = .ok r₂ ∧
        r₁.Widens r₂ pool.activeBin) := by
  refine ⟨?_, ?_, ?_⟩
  · intro strategy v₁ v₂ hv₁ hv₂ h₀ h
    exact ⟨_, _, recommend_eq_ok hstep _ _ _ _, recommend_eq_ok hstep _ _ _ _,
      recommendFor_widens_of_volatility pool ctx oracle maxBins strategy hv₁ hv₂ h₀ h⟩
  · intro strategy o₁ o₂ h
    exact ⟨_, _, recommend_eq_ok hstep _ _ _ _, recommend_eq_ok hstep _ _ _ _,
      recommendFor_widens_of_deviation pool ctx maxBins strategy h⟩
  · intro hbid hask a₁ a₂ ha₁ ha₂ h
    exact ⟨_, _, recommend_eq_ok hstep _ _ _ _, recommend_eq_ok hstep _ _ _ _,
      bidAsk_widens_of_atr pool ctx oracle maxBins hbid hask ha₁ ha₂ h⟩

theorem recommend_widens_near_top :
    0 < nearTopPool.binStep ∧
    (∀ (strategy : Strategy) (v₁ v₂ : Float), v₁.isFinite = true → v₂.isFinite = true → 0 ≤ v₁ →
      v₁ ≤ v₂ → ∃ r₁ r₂,
        recommend strategy nearTopPool { MarketContext.empty with volatility := some v₁ } none 19 =
          .ok r₁ ∧
        recommend strategy nearTopPool { MarketContext.empty with volatility := some v₂ } none 19 =
          .ok r₂ ∧
        r₁.Widens r₂ nearTopPool.activeBin) ∧
    (∀ (strategy : Strategy) (o₁ o₂ : Option Float),
      priceDeviation nearTopPool.currentPrice o₁ ≤ priceDeviation nearTopPool.currentPrice o₂ →
      ∃ r₁ r₂, recommend strategy nearTopPool MarketContext.empty o₁ 19 = .ok r₁ ∧
        recommend strategy nearTopPool MarketContext.empty o₂ 19 = .ok r₂ ∧
        r₁.Widens r₂ nearTopPool.activeBin) ∧
    (NearestFirst nearTopPool.activeBin MarketContext.empty.bidNodes →
      NearestFirst nearTopPool.activeBin MarketContext.empty.askNodes →
      ∀ a₁ a₂ : Float, a₁.isFinite = true → a₂.isFinite = true → a₁ ≤ a₂ → ∃ r₁ r₂,
        recommend .bidAsk nearTopPool { MarketContext.empty with atr := some a₁ } none 19 = .ok r₁ ∧
        recommend .bidAsk nearTopPool { MarketContext.empty with atr := some a₂ } none 19 = .ok r₂ ∧
        r₁.Widens r₂ nearTopPool.activeBin) :=
  ⟨by decide, recommend_widens nearTopPool MarketContext.empty none 19 (by decide)⟩

end RangeAdvisor
