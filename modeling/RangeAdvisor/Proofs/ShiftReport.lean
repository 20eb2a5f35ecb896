import RangeAdvisor.Proofs.Widening
import RangeAdvisor.Proofs.PriceOrder
import RangeAdvisor.Proofs.Float.Share

/-!
# What a recommendation reports of its shift

Curve and bid-ask move the range toward the liquidity bias by a raw shift of at least one bin,
then cap it to the room the bin limit leaves beside the unshifted span. That room is a 32-bit
count: it stops at `2^31 - 1` even where the limit leaves more. The shift therefore points the way
of the bias, is zero without one, and is the raw shift cut to the room. The rationale names the
direction of the bias and the size of the shift, and notes a cap exactly when the shift came out
smaller than the raw shift. Main statement: `recommend_reports_shift`; `curve_shift_short_of_room`
is a curve shift that the 32-bit room cuts below what the limit leaves.
-/

set_option autoImplicit false

namespace RangeAdvisor

namespace Bias

/-- `n` points the way of the bias: up under a bullish bias, down under a bearish one, nowhere
without one. -/
def Toward : Bias → Int → Prop
  | .bullish, n => 1 ≤ n
  | .bearish, n => n ≤ -1
  | .neutral, n => n = 0

/-- Where the heavier liquidity sits, in words. -/
def side : Bias → String
  | .bullish => "above"
  | .bearish => "below"
  | .neutral => "around"

/-- The way a range moves toward the heavier liquidity, in words. -/
def way : Bias → String
  | .bullish => "up"
  | .bearish => "down"
  | .neutral => "nowhere"

end Bias

/-- The room a limit of `maxBins` leaves for a shift beside a span of `base` bins, as a 32-bit
count. -/
def shiftRoom (base : Int) (maxBins : UInt32) : Int :=
  min (max 0 ((maxBins.toNat : Int) - base)) 2147483647

/-- A shift taken toward `bias` from `raw` within `room`: it points the way of the bias, is zero
without a bias, and otherwise is the raw shift, of at least one bin, cut to the room. -/
structure ShiftsToward (bias : Bias) (raw shift : Int32) (room : Int) : Prop where
  sign_mul_nonneg : 0 ≤ shift.toInt * bias.signum.toInt
  neutral : bias = .neutral → shift = 0
  capped : bias ≠ .neutral →
    (shift.toInt.natAbs : Int) = min (raw.toInt.natAbs : Int) room ∧ 1 ≤ raw.toInt.natAbs

/-- The note on a cap: there exactly when the shift came out smaller than the raw shift. -/
def capNote (raw shift : Int32) (maxBins : UInt32) : String :=
  if shift.toInt.natAbs < raw.toInt.natAbs then
    s!" (capped from {raw.toInt.natAbs} to fit {maxBins} bins)"
  else ""

/-- Curve's line on its shift: none to make, one dropped to fit, or the shift toward the bias. -/
def curveShiftLine (bias : Bias) (raw shift : Int32) (maxBins : UInt32) : String :=
  if shift = 0 then
    if raw = 0 then "Liquidity balanced around price, no center shift"
    else s!"Center shift of {raw.toInt.natAbs} bins dropped to fit {maxBins} bins"
  else
    s!"Liquidity concentrated {bias.side} price, center shifted {bias.way} {shift.toInt.natAbs} bins" ++
      capNote raw shift maxBins

/-- Bid-ask's line on its shift: no bias, or the shift toward the bias. -/
def bidAskShiftLine (bias : Bias) (raw shift : Int32) (maxBins : UInt32) : String :=
  if bias = .neutral then "No directional liquidity bias"
  else
    s!"Liquidity weighted {bias.side} price, range nudged {bias.way} {shift.toInt.natAbs} bins" ++
      capNote raw shift maxBins

/-- What a recommendation by a strategy reports of its shift, for a liquidity bias, a deviation `d`
from the oracle and a limit of `maxBins` bins. Spot never shifts and gives three reasons. Curve and
bid-ask shift toward the bias from their raw shifts, `±max(10d, 1)` and `±(10d + 1)` rounded half
up, within the room beside their unshifted span; they give two and five reasons, one more past a
deviation of 50%, and the second and the fourth is the line on the shift. -/
def Recommendation.ReportsShift (r : Recommendation) (bias : Bias) (d : Float) (maxBins : UInt32) :
    Strategy → Prop
  | .spot => r.metrics.shift = 0 ∧ r.rationale.length = 3
  | .curve =>
    let raw := Saturating.roundHalfUp
      (Float.ofInt bias.signum.toInt * Binary64.greater (d * 10.0) 1.0)
    ShiftsToward bias raw r.metrics.shift (shiftRoom r.width.bins maxBins) ∧
      r.rationale.length = 2 + (if d > highDeviation then 1 else 0) ∧
      r.rationale[1]? = some (curveShiftLine bias raw r.metrics.shift maxBins)
  | .bidAsk =>
    let raw := Saturating.roundHalfUp ((d * 10.0 + 1.0) * Float.ofInt bias.signum.toInt)
    ShiftsToward bias raw r.metrics.shift (shiftRoom r.width.bins maxBins) ∧
      r.rationale.length = 5 + (if d > highDeviation then 1 else 0) ∧
      r.rationale[3]? = some (bidAskShiftLine bias raw r.metrics.shift maxBins)

/-! ### The capped shift -/

section Cap

variable {bias : Bias} {raw : Int32}

theorem shiftRoom_mem (base : Int) (maxBins : UInt32) :
    0 ≤ shiftRoom base maxBins ∧ shiftRoom base maxBins ≤ 2147483647 := by
  unfold shiftRoom
  omega

/-- The capped shift is the raw shift clamped to `±room`. -/
theorem toInt_capShift (raw base : Int32) (maxBins : UInt32) :
    (capShift raw base maxBins).toInt =
      max (-shiftRoom base.toInt maxBins) (min raw.toInt (shiftRoom base.toInt maxBins)) := by
  have hmem := shiftRoom_mem base.toInt maxBins
  obtain ⟨room, hroom, hcap⟩ : ∃ room : Int32, room.toInt = shiftRoom base.toInt maxBins ∧
      capShift raw base maxBins = Saturating.clamp raw (-room) room := by
    refine ⟨_, ?_, rfl⟩
    rw [Saturating.toInt_ofInt]
    simp only [shiftRoom, Saturating.lo, Saturating.hi]
    omega
  -- the room is in `[0, 2^31 - 1]`, so its negation does not wrap
  have hneg : (-room).toInt = -room.toInt := by
    rw [Int32.toInt_neg]
    exact Int.bmod_eq_of_le (by omega) (by omega)
  rw [hcap, Saturating.toInt_clamp, hneg, hroom]
  split_ifs <;> omega

/-- A raw shift of at least one, scaled by the sign of the bias and rounded half up, points the
way of the bias. -/
theorem Bias.toward_roundHalfUp (b : Bias) {x : Float} (h : (1.0 : Float) ≤ x) :
    b.Toward (Saturating.roundHalfUp (x * Float.ofInt b.signum.toInt)).toInt := by
  cases b with
  | bullish =>
    have hpos : (0 : Float) < Float.ofInt Bias.bullish.signum.toInt := by decide
    have hfin : (Float.ofInt Bias.bullish.signum.toInt).isFinite = true := by decide
    have hone : (Saturating.roundHalfUp (1.0 * Float.ofInt Bias.bullish.signum.toInt)).toInt = 1 := by
      decide
    have hlow := Saturating.roundHalfUp_mono (Binary64.mul_le_mul_of_pos hpos hfin h)
    show 1 ≤ _
    omega
  | bearish =>
    have hneg : Float.ofInt Bias.bearish.signum.toInt < (0 : Float) := by decide
    have hfin : (Float.ofInt Bias.bearish.signum.toInt).isFinite = true := by decide
    have hone : (Saturating.roundHalfUp (1.0 * Float.ofInt Bias.bearish.signum.toInt)).toInt = -1 := by
      decide
    have hlow := Saturating.roundHalfUp_mono (Binary64.mul_le_mul_of_neg hneg hfin h)
    show _ ≤ -1
    omega
  | neutral =>
    have hz : (Float.ofInt Bias.neutral.signum.toInt).toModel.unpack = .zero .positive := rfl
    show _ = 0
    rw [Saturating.roundHalfUp_mul_zero _ hz, Int32.toInt_zero]

/-- A raw shift that points the way of the bias, capped, is a shift toward the bias. -/
theorem shiftsToward_capShift (hraw : bias.Toward raw.toInt) (base : Int32) (maxBins : UInt32) :
    ShiftsToward bias raw (capShift raw base maxBins) (shiftRoom base.toInt maxBins) := by
  have hs := toInt_capShift raw base maxBins
  have hmem := shiftRoom_mem base.toInt maxBins
  cases bias with
  | bullish =>
    have hr : 1 ≤ raw.toInt := hraw
    have hsig : Bias.bullish.signum.toInt = 1 := rfl
    exact ⟨by rw [hsig]; omega, fun h => (by cases h), fun _ => ⟨by omega, by omega⟩⟩
  | bearish =>
    have hr : raw.toInt ≤ -1 := hraw
    have hsig : Bias.bearish.signum.toInt = -1 := rfl
    exact ⟨by rw [hsig]; omega, fun h => (by cases h), fun _ => ⟨by omega, by omega⟩⟩
  | neutral =>
    have hr : raw.toInt = 0 := hraw
    refine ⟨?_, fun _ => ?_, fun h => absurd rfl h⟩
    · simp only [Bias.signum, Int32.toInt_zero]
      omega
    · rw [← Int32.toInt_inj, hs, Int32.toInt_zero]
      omega

/-- The code's cap suffix, written when the shift differs from the raw shift, is the note on a
cap: a shift toward the bias differs from its raw shift exactly when it is smaller. -/
theorem capSuffix_eq_capNote (hraw : bias.Toward raw.toInt) (base : Int32) (maxBins : UInt32) :
    capSuffix raw (capShift raw base maxBins) maxBins =
      capNote raw (capShift raw base maxBins) maxBins := by
  have hs := toInt_capShift raw base maxBins
  have hmem := shiftRoom_mem base.toInt maxBins
  have hr : raw.toInt = 0 ∨ 1 ≤ raw.toInt ∨ raw.toInt ≤ -1 := by
    cases bias with
    | bullish => exact .inr (.inl hraw)
    | bearish => exact .inr (.inr hraw)
    | neutral => exact .inl hraw
  unfold capSuffix capNote
  by_cases heq : raw = capShift raw base maxBins
  · have heq' := congrArg Int32.toInt heq
    rw [if_pos (beq_iff_eq.mpr heq), if_neg (by omega)]
  · have hne : raw.toInt ≠ (capShift raw base maxBins).toInt := fun h => heq (Int32.toInt_inj.mp h)
    rw [if_neg (by simpa using heq), if_pos (by omega)]

end Cap

/-! ### Printing a shift -/

@[simp] theorem toString_string (s : String) : toString s = s := rfl

theorem toString_of_nonneg {n : Int} (h : 0 ≤ n) : toString n = toString n.natAbs := by
  obtain ⟨k, rfl⟩ := Int.eq_ofNat_of_zero_le h
  rfl

/-! ### Each strategy -/

section Strategies

variable (s : Signals)

theorem Signals.curveRawShift_toward : s.bias.Toward s.curveRawShift.toInt := by
  rw [curveRawShift_eq]
  exact s.bias.toward_roundHalfUp (Binary64.le_greater_right (by decide) _)

/-- Bid-ask's raw shift points the way of the bias once the deviation is not below zero. -/
theorem Signals.bidAskRawShift_toward (hd : 0 ≤ s.deviation) :
    s.bias.Toward s.bidAskRawShift.toInt := by
  have hone : (1.0 : Float) ≤ 0 * 10.0 + 1.0 := by decide
  have hstep : (0 : Float) * 10.0 + 1.0 ≤ s.deviation * 10.0 + 1.0 :=
    Binary64.add_le_add_right (by decide) (Binary64.mul_le_mul_of_pos (by decide) (by decide) hd)
  exact s.bias.toward_roundHalfUp (Binary64.le_trans hone hstep)

theorem spot_reportsShift : (spot s).ReportsShift s.bias s.deviation s.maxBins .spot :=
  ⟨rfl, rfl⟩

theorem curve_shift :
    (curve s).metrics.shift = capShift s.curveRawShift (2 * s.curvePerSide + 1) s.maxBins := by
  simp only [curve, Signals.metrics]

theorem curve_rationale_length :
    (curve s).rationale.length = 2 + if s.deviation > highDeviation then 1 else 0 := by
  by_cases hd : s.deviation > highDeviation <;> simp [curve, hd]

/-- Curve's second reason names the way of the bias and the size of the shift, with a note on a
cap exactly when the shift came out smaller than the raw shift. -/
theorem curve_shiftLine :
    (curve s).rationale[1]? =
      some (curveShiftLine s.bias s.curveRawShift (curve s).metrics.shift s.maxBins) := by
  have hraw := s.curveRawShift_toward
  have hsuffix := capSuffix_eq_capNote hraw (2 * s.curvePerSide + 1) s.maxBins
  have hs := toInt_capShift s.curveRawShift (2 * s.curvePerSide + 1) s.maxBins
  have hmem := shiftRoom_mem (2 * s.curvePerSide + 1).toInt s.maxBins
  simp only [curve, Signals.metrics, List.cons_append, List.getElem?_cons_succ,
    List.getElem?_cons_zero]
  generalize capShift s.curveRawShift (2 * s.curvePerSide + 1) s.maxBins = shift at hsuffix hs ⊢
  generalize s.curveRawShift = raw at hraw hsuffix hs ⊢
  unfold curveShiftLine
  by_cases h0 : shift = 0
  · subst h0
    by_cases hr : raw = 0 <;> simp [hr]
  · have hne : shift.toInt ≠ 0 := fun h => h0 (Int32.toInt_inj.mp h)
    simp only [h0, beq_iff_eq, if_false, Int32.lt_iff_toInt_lt, Int32.toInt_zero, hsuffix]
    -- a shift that is not zero lies on the side of its bias
    cases hb : s.bias with
    | bullish =>
      have hr : 1 ≤ raw.toInt := by rw [hb] at hraw; exact hraw
      rw [if_pos (by omega), toString_of_nonneg (by omega)]
      simp only [Bias.side, Bias.way, toString_string]
      congr 3
    | bearish =>
      have hr : raw.toInt ≤ -1 := by rw [hb] at hraw; exact hraw
      rw [if_neg (by omega), toString_of_nonneg (by omega), Int.natAbs_neg]
      simp only [Bias.side, Bias.way, toString_string]
      congr 3
    | neutral =>
      have hr : raw.toInt = 0 := by rw [hb] at hraw; exact hraw
      omega

theorem bidAsk_shift (ctx : MarketContext) :
    (bidAsk s ctx).metrics.shift =
      capShift s.bidAskRawShift ((s.bidSide ctx).bins + (s.askSide ctx).bins + 1) s.maxBins := by
  simp only [bidAsk, Signals.metrics]

theorem bidAsk_rationale_length (ctx : MarketContext) :
    (bidAsk s ctx).rationale.length = 5 + if s.deviation > highDeviation then 1 else 0 := by
  by_cases hd : s.deviation > highDeviation <;> simp [bidAsk, hd]

/-- Bid-ask's fourth reason names the way of the bias and the size of the shift whenever there is a
bias, with a note on a cap exactly when the shift came out smaller than the raw shift. -/
theorem bidAsk_shiftLine (ctx : MarketContext) (hraw : s.bias.Toward s.bidAskRawShift.toInt) :
    (bidAsk s ctx).rationale[3]? =
      some (bidAskShiftLine s.bias s.bidAskRawShift (bidAsk s ctx).metrics.shift s.maxBins) := by
  have hsuffix := capSuffix_eq_capNote hraw
    ((s.bidSide ctx).bins + (s.askSide ctx).bins + 1) s.maxBins
  have hs := toInt_capShift s.bidAskRawShift ((s.bidSide ctx).bins + (s.askSide ctx).bins + 1) s.maxBins
  have hmem := shiftRoom_mem ((s.bidSide ctx).bins + (s.askSide ctx).bins + 1).toInt s.maxBins
  simp only [bidAsk, Signals.metrics, List.cons_append, List.getElem?_cons_succ,
    List.getElem?_cons_zero]
  generalize capShift s.bidAskRawShift ((s.bidSide ctx).bins + (s.askSide ctx).bins + 1) s.maxBins =
    shift at hsuffix hs ⊢
  generalize s.bidAskRawShift = raw at hraw hsuffix hs ⊢
  unfold bidAskShiftLine
  -- the line is chosen by the bias, and the shift lies on its side
  cases hb : s.bias with
  | bullish =>
    have hr : 1 ≤ raw.toInt := by rw [hb] at hraw; exact hraw
    rw [if_neg (show Bias.bullish ≠ .neutral by decide)]
    dsimp only
    rw [hsuffix, toString_of_nonneg (by omega)]
    simp only [Bias.side, Bias.way, toString_string]
    congr 3
  | bearish =>
    have hr : raw.toInt ≤ -1 := by rw [hb] at hraw; exact hraw
    rw [if_neg (show Bias.bearish ≠ .neutral by decide)]
    dsimp only
    rw [hsuffix, toString_of_nonneg (by omega), Int.natAbs_neg]
    simp only [Bias.side, Bias.way, toString_string]
    congr 3
  | neutral => rfl

theorem curve_reportsShift : (curve s).ReportsShift s.bias s.deviation s.maxBins .curve := by
  obtain ⟨h₁, h₂⟩ := s.curvePerSide_mem
  have hbase : (curve s).width.bins = (2 * s.curvePerSide + 1).toInt := by
    rw [toInt_two_mul_add_one (by omega) h₂]
    simp only [curve, RangeWidth.bins, RangeWidth.below, RangeWidth.above]
    omega
  refine ⟨?_, curve_rationale_length s, curve_shiftLine s⟩
  rw [hbase, curve_shift]
  exact shiftsToward_capShift s.curveRawShift_toward _ _

theorem bidAsk_reportsShift (ctx : MarketContext) (hd : 0 ≤ s.deviation) :
    (bidAsk s ctx).ReportsShift s.bias s.deviation s.maxBins .bidAsk := by
  have hraw := s.bidAskRawShift_toward hd
  have hbase : (bidAsk s ctx).width.bins = ((s.bidSide ctx).bins + (s.askSide ctx).bins + 1).toInt := by
    rw [s.toInt_splitBase ctx]
    rfl
  refine ⟨?_, bidAsk_rationale_length s ctx, bidAsk_shiftLine s ctx hraw⟩
  rw [hbase, bidAsk_shift]
  exact shiftsToward_capShift hraw _ _

end Strategies

/-! ### The deviation from the oracle -/

/-- The deviation of a price that is a number is a number. -/
theorem priceDeviation_isNaN {price : Float} (oracle : Option Float) (hp : price.isNaN = false) :
    (priceDeviation price oracle).isNaN = false := by
  unfold priceDeviation
  split
  · split
    · rename_i o hok
      obtain ⟨hfin, hpos⟩ : o.isFinite = true ∧ (0 : Float) < o := by simpa using hok
      exact Binary64.isNaN_div (Binary64.isNaN_abs (Binary64.isNaN_sub hp hfin)) hpos hfin
    · rfl
  · rfl

/-- A pool with a bin step has a price that is a number: the reported one, or the bin model's. -/
theorem Pool.currentPrice_isNaN {pool : Pool} (hstep : 0 < pool.binStep) :
    pool.currentPrice.isNaN = false := by
  have hs : pool.binStep ≠ 0 := by
    intro h
    rw [h] at hstep
    exact absurd hstep (by decide)
  have hat : (pool.priceAt pool.activeBin).isNaN = false :=
    Binary64.isNaN_eq_false_of_le_left (Bins.priceAt_le_of_le hs (Int32.le_refl pool.activeBin))
  unfold Pool.currentPrice
  cases pool.price with
  | none => exact hat
  | some x =>
    dsimp only
    split
    · rename_i hok
      exact Binary64.isNaN_eq_false_of_isFinite ((Bool.and_eq_true _ _).mp hok).1
    · exact hat

/-! ### Recommending -/

/-- Every strategy answers a pool with a bin step, and reports its shift toward the bias of the
context (its own, or the one its volume nodes show against the pool price): spot does not shift;
curve and bid-ask shift the way of the bias, by the raw shift cut to the 32-bit room the bin limit
leaves beside the unshifted span, and say so in one line of their rationale, which notes a cap
exactly when the shift came out smaller than the raw shift. -/
theorem recommend_reports_shift (strategy : Strategy) (pool : Pool) (ctx : MarketContext)
    (oracle : Option Float) (maxBins : UInt32) (hstep : 0 < pool.binStep) :
    ∃ r, recommend strategy pool ctx oracle maxBins = .ok r ∧
      r.ReportsShift (ctx.bias.getD (Bias.ofNodes ctx.volumeNodes pool.currentPrice))
        (priceDeviation pool.currentPrice oracle) maxBins strategy := by
  refine ⟨_, recommend_eq_ok hstep strategy ctx oracle maxBins, ?_⟩
  have hd : 0 ≤ priceDeviation pool.currentPrice oracle :=
    priceDeviation_nonneg _ _ (priceDeviation_isNaN oracle (Pool.currentPrice_isNaN hstep))
  cases strategy with
  | spot => exact spot_reportsShift _
  | curve => exact curve_reportsShift _
  | bidAsk => exact bidAsk_reportsShift _ ctx hd

/-- A pool quoted at `2^40` against an oracle at one, near the bottom of the 32-bit bins. -/
def lowPool : Pool :=
  ⟨"pool", ⟨"MX", "X", 6⟩, ⟨"MY", "Y", 6⟩, 20, -2147483548, some 1099511627776.0, none, none, none⟩

/-- A context that gives only a bearish bias. -/
def bearishContext : MarketContext := { MarketContext.empty with bias := some .bearish }

theorem recommend_reports_shift_low_pool :
    0 < lowPool.binStep ∧ ∃ r, recommend .bidAsk lowPool bearishContext (some 1.0) 4294967295 = .ok r ∧
      r.ReportsShift (bearishContext.bias.getD (Bias.ofNodes bearishContext.volumeNodes lowPool.currentPrice))
        (priceDeviation lowPool.currentPrice (some 1.0)) 4294967295 .bidAsk :=
  ⟨by decide, recommend_reports_shift .bidAsk lowPool bearishContext (some 1.0) 4294967295 (by decide)⟩

/-- At `lowPool` the deviation is `2^40 - 1`, so under a bearish bias curve's raw shift rounds to
the 32-bit floor `-2^31`. A limit of `2^32 - 1` bins leaves room for all of it, yet the shift stops
at `-(2^31 - 1)`: the room is a 32-bit count. -/
theorem curve_shift_short_of_room :
    let raw := Saturating.roundHalfUp (Float.ofInt Bias.bearish.signum.toInt *
      Binary64.greater (priceDeviation lowPool.currentPrice (some 1.0) * 10.0) 1.0)
    raw.toInt = -2147483648 ∧
      ∃ r, recommend .curve lowPool bearishContext (some 1.0) 4294967295 = .ok r ∧
        r.metrics.shift.toInt = -2147483647 ∧
        (r.metrics.shift.toInt.natAbs : Int) <
          min (raw.toInt.natAbs : Int) (max 0 (((4294967295 : UInt32).toNat : Int) - r.width.bins)) := by
  intro raw
  have hraw : raw.toInt = -2147483648 := by decide +kernel
  refine ⟨hraw, _, recommend_eq_ok (by decide) .curve bearishContext (some 1.0) 4294967295, ?_⟩
  have hraw' : (Signals.ofContext lowPool bearishContext (some 1.0) 4294967295).curveRawShift.toInt =
      -2147483648 := hraw
  have hM : (Signals.ofContext lowPool bearishContext (some 1.0) 4294967295).maxBins = 4294967295 :=
    rfl
  rw [hraw]
  generalize Signals.ofContext lowPool bearishContext (some 1.0) 4294967295 = s at hraw' hM ⊢
  -- curve caps its shift beside `2w + 1` bins, for at most 25 bins a side
  obtain ⟨h₁, h₂⟩ := s.curvePerSide_mem
  have hlimit : (((4294967295 : UInt32).toNat : Int)) = 4294967295 := rfl
  have hs := toInt_capShift s.curveRawShift (2 * s.curvePerSide + 1) s.maxBins
  rw [hraw', toInt_two_mul_add_one (by omega) h₂, hM] at hs
  simp only [shiftRoom, hlimit] at hs
  have hshift : (curve s).metrics.shift.toInt = -2147483647 := by
    simp only [curve, Signals.metrics, hM]
    omega
  have hwidth : (curve s).width.bins = 2 * s.curvePerSide.toInt + 1 := by
    simp only [curve, RangeWidth.bins, RangeWidth.below, RangeWidth.above]
    omega
  refine ⟨hshift, ?_⟩
  change ((curve s).metrics.shift.toInt.natAbs : Int) <
    min ((-2147483648 : Int).natAbs : Int) (max 0 (((4294967295 : UInt32).toNat : Int) - (curve s).width.bins))
  rw [hshift, hwidth, hlimit]
  omega

end RangeAdvisor
