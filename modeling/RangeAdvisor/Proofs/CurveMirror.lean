import RangeAdvisor.Proofs.ShiftReport
import RangeAdvisor.Proofs.RoundHalfUp

/-!
# Curve under opposite biases

Curve moves its range toward the heavier liquidity by `x = max(10 · deviation, 1)` bins, rounded half
up with the sign of the bias, and capped by the room the bin limit leaves. Rounding half up is the
only asymmetry: for a float `x` of at least one below `2^32`, `x + 1/2` rounds to a float with the
floor of the exact sum and `1/2 - x` is exact, so the bullish raw shift is `⌊x + 1/2⌋` and the
bearish one `⌊1/2 - x⌋`. These are opposite unless `x` is an integer and a half, `k + 1/2`, where
they are `k + 1` and `-k`; from `2^32` on both stop at the 32-bit ends. When neither range stops at a
32-bit end, the bearish range is the bullish one reflected about the active bin exactly when the
shifts are opposite, which fails only for `x = k + 1/2` with `k` below the room.
Main statement: `curve_mirror`.
-/

set_option autoImplicit false

namespace RangeAdvisor

open Binary64 Rounding Saturating

/-! ### Rounding half up, with either sign -/

section RoundHalfUp

variable {x : Float}

theorem mul_ofInt_one (hx : x.isFinite = true) (hsmall : |toReal x| ≤ 2 ^ 53)
    (h0 : toReal x ≠ 0) : x * Float.ofInt 1 = x := by
  obtain ⟨hof, hor⟩ := ofInt_value (n := 1) (by norm_num)
  obtain ⟨hn, hv⟩ := mul_value hx hof
  rw [hor, Int.cast_one, mul_one] at hv
  obtain ⟨hf, hr⟩ := isFinite_of_value_small hn hv hsmall
  exact eq_of_toReal_eq hf hx (hr.trans (nearest_toReal hx)) (by rwa [hr, nearest_toReal hx])

theorem mul_ofInt_neg_one (hx : x.isFinite = true) (hsmall : |toReal x| ≤ 2 ^ 53)
    (h0 : toReal x ≠ 0) : x * Float.ofInt (-1) = -x := by
  obtain ⟨hof, hor⟩ := ofInt_value (n := -1) (by norm_num)
  obtain ⟨hn, hv⟩ := mul_value hx hof
  rw [hor, Int.cast_neg, Int.cast_one, mul_neg_one] at hv
  obtain ⟨hf, hr⟩ := isFinite_of_value_small hn hv (by rwa [abs_neg])
  obtain ⟨hnf, hnr⟩ := neg_value hx
  refine eq_of_toReal_eq hf hnf ?_
    (by rw [hr, nearest_neg, nearest_toReal hx]; exact neg_ne_zero.mpr h0)
  rw [hr, hnr, nearest_neg, nearest_toReal hx]

/-- A float from one up to `2^32` rounds half up to `⌊x + 1/2⌋`, and its negation to
`⌊1/2 - x⌋`. -/
theorem roundHalfUp_signs_of_lt (hx : x.isFinite = true) (h1 : 1 ≤ toReal x)
    (h32 : toReal x < 2 ^ 32) :
    (roundHalfUp (x * Float.ofInt 1)).toInt = min ⌊toReal x + 1 / 2⌋ hi ∧
      (roundHalfUp (x * Float.ofInt (-1))).toInt = max lo ⌊1 / 2 - toReal x⌋ := by
  have hsmall : |toReal x| ≤ 2 ^ 52 := by
    rw [abs_of_pos (by linarith)]
    linarith [show (2 : ℝ) ^ 32 ≤ 2 ^ 52 by norm_num]
  have hsmall' : |toReal x| ≤ 2 ^ 53 := hsmall.trans (by norm_num)
  have h0 : toReal x ≠ 0 := by positivity
  have hup : 1 ≤ ⌊toReal x + 1 / 2⌋ := Int.le_floor.mpr (by push_cast; linarith)
  have hdown : ⌊1 / 2 - toReal x⌋ ≤ 0 := Int.floor_nonpos (by linarith)
  obtain ⟨hnf, hnr⟩ := neg_value hx
  constructor
  · rw [mul_ofInt_one hx hsmall' h0, toInt_roundHalfUp_of_small hx hsmall,
      floor_nearest_add_half hx h1 h32]
    simp only [lo, hi]
    omega
  · rw [mul_ofInt_neg_one hx hsmall' h0, toInt_roundHalfUp_of_small hnf (by rw [hnr, abs_neg]; exact hsmall),
      hnr, show -toReal x + 1 / 2 = 1 / 2 - toReal x by ring, nearest_half_sub hx h1 h32]
    simp only [lo, hi]
    omega

/-- From `2^32` on, `x` rounds half up to the top of the 32-bit range and `-x` to the bottom. -/
theorem roundHalfUp_signs_of_le (h : (4294967296.0 : Float) ≤ x) :
    (roundHalfUp (x * Float.ofInt 1)).toInt = hi ∧
      (roundHalfUp (x * Float.ofInt (-1))).toInt = lo := by
  have hpos : (0 : Float) < Float.ofInt 1 ∧ (Float.ofInt 1).isFinite = true :=
    ⟨of_decide_eq_true rfl, rfl⟩
  have hneg : Float.ofInt (-1) < (0 : Float) ∧ (Float.ofInt (-1)).isFinite = true :=
    ⟨of_decide_eq_true rfl, rfl⟩
  have hup : (roundHalfUp (4294967296.0 * Float.ofInt 1)).toInt = hi := rfl
  have hdown : (roundHalfUp (4294967296.0 * Float.ofInt (-1))).toInt = lo := rfl
  have h₁ := roundHalfUp_mono (mul_le_mul_of_pos hpos.1 hpos.2 h)
  have h₂ := roundHalfUp_mono (mul_le_mul_of_neg hneg.1 hneg.2 h)
  have := toInt_le_hi (roundHalfUp (x * Float.ofInt 1))
  have := lo_le_toInt (roundHalfUp (x * Float.ofInt (-1)))
  omega

/-- A finite float of at least one rounds half up to `⌊x + 1/2⌋`, and its negation to
`⌊1/2 - x⌋`, each kept within the 32-bit range. -/
theorem roundHalfUp_signs (hx : x.isFinite = true) (h1 : 1 ≤ toReal x) :
    (roundHalfUp (x * Float.ofInt 1)).toInt = min ⌊toReal x + 1 / 2⌋ hi ∧
      (roundHalfUp (x * Float.ofInt (-1))).toInt = max lo ⌊1 / 2 - toReal x⌋ := by
  by_cases h32 : toReal x < 2 ^ 32
  · exact roundHalfUp_signs_of_lt hx h1 h32
  -- from `2^32` on both floors are past the 32-bit ends
  obtain ⟨htf, htr⟩ := twoPow32_value
  have hle : (4294967296.0 : Float) ≤ x :=
    Binary64.le_of_not_lt (isNaN_eq_false_of_isFinite hx) (isNaN_eq_false_of_isFinite htf)
      (by rw [lt_iff_toReal_lt hx htf, htr]; exact h32)
  have hup : (2 : ℤ) ^ 32 ≤ ⌊toReal x + 1 / 2⌋ := Int.le_floor.mpr (by push_cast; linarith)
  have hdown : ⌊1 / 2 - toReal x⌋ ≤ -2 ^ 32 + 1 := by
    rw [Int.floor_le_iff]
    push_cast
    linarith
  rw [(roundHalfUp_signs_of_le hle).1, (roundHalfUp_signs_of_le hle).2]
  simp only [lo, hi]
  omega

/-- `+∞` rounds half up to the top of the 32-bit range, and its negation to the bottom. -/
theorem roundHalfUp_signs_of_top (h : value x = ⊤) :
    (roundHalfUp (x * Float.ofInt 1)).toInt = hi ∧
      (roundHalfUp (x * Float.ofInt (-1))).toInt = lo :=
  roundHalfUp_signs_of_le (le_of_value_eq_top h (isNaN_eq_false_of_isFinite twoPow32_value.1))

/-- A finite float equal to `k + 1/2` is `j + 1/2` for no integer `j` but `k`. -/
theorem value_eq_half_iff (hx : x.isFinite = true) {k : ℤ} (hk : toReal x = k + 1 / 2) (j : ℤ) :
    value x = ((j + 1 / 2 : ℝ) : EReal) ↔ j = k := by
  rw [value_of_isFinite hx, EReal.coe_eq_coe_iff, hk]
  constructor
  · intro h
    exact_mod_cast (by linarith : (j : ℝ) = k)
  · rintro rfl
    rfl

end RoundHalfUp

/-- `x + 1/2` and `1/2 - x` floor to opposite integers, unless `x` is an integer and a half,
`k + 1/2`, where they floor to `k + 1` and `-k`. -/
theorem floor_add_half_cases (x : ℝ) :
    (∃ k : ℤ, x = k + 1 / 2 ∧ ⌊x + 1 / 2⌋ = k + 1 ∧ ⌊1 / 2 - x⌋ = -k) ∨
      ((∀ k : ℤ, x ≠ k + 1 / 2) ∧ ⌊1 / 2 - x⌋ = -⌊x + 1 / 2⌋) := by
  by_cases hk : ∃ k : ℤ, x = k + 1 / 2
  · obtain ⟨k, rfl⟩ := hk
    refine .inl ⟨k, rfl, ?_, ?_⟩
    · rw [show (k : ℝ) + 1 / 2 + 1 / 2 = ((k + 1 : ℤ) : ℝ) by push_cast; ring, Int.floor_intCast]
    · rw [show 1 / 2 - ((k : ℝ) + 1 / 2) = ((-k : ℤ) : ℝ) by push_cast; ring, Int.floor_intCast]
  simp only [not_exists] at hk
  refine .inr ⟨hk, ?_⟩
  set n := ⌊x + 1 / 2⌋ with hn
  have hlo : (n : ℝ) ≤ x + 1 / 2 := Int.floor_le _
  have hhi : x + 1 / 2 < n + 1 := Int.lt_floor_add_one _
  -- `x + 1/2` is not an integer, so it lies strictly between `n` and `n + 1`
  have hne : (n : ℝ) ≠ x + 1 / 2 := fun h => hk (n - 1) (by push_cast; linarith)
  rw [Int.floor_eq_iff]
  push_cast
  constructor <;> [linarith; linarith [lt_of_le_of_ne hlo hne]]

namespace Recommendation

/-- `r'` is `r` reflected about the bin `a`: each edge of `r'` is the opposite edge of `r`
reflected, so is the center, and the widths agree. -/
structure Mirrors (r' r : Recommendation) (a : Int32) : Prop where
  lower_eq : r'.lower.toInt = 2 * a.toInt - r.upper.toInt
  upper_eq : r'.upper.toInt = 2 * a.toInt - r.lower.toInt
  center_eq : r'.center.toInt = 2 * a.toInt - r.center.toInt
  width_eq : r'.width = r.width

end Recommendation

section Curve

variable (s : Signals)

/-- Curve's range, neither edge stopped at a 32-bit end, reaches `w` bins either side of the active
bin and the shift beyond on its side. -/
theorem curve_edges (hu : (curve s).Unsaturated s.active) :
    (curve s).lower.toInt =
        s.active.toInt - s.curvePerSide.toInt + min (curve s).metrics.shift.toInt 0 ∧
      (curve s).upper.toInt =
        s.active.toInt + s.curvePerSide.toInt + max (curve s).metrics.shift.toInt 0 :=
  hu

theorem curve_center : (curve s).center.toInt =
    max lo (min (s.active.toInt + (curve s).metrics.shift.toInt) hi) := by
  rw [(curve_laidOut s).shapes.2, toInt_add]

/-- Neither edge stopped at a 32-bit end, curve's center is the active bin moved by the shift: the
center lies between the edges, so its own clamp does nothing. -/
theorem curve_center_of_unsaturated (hu : (curve s).Unsaturated s.active) :
    (curve s).center.toInt = s.active.toInt + (curve s).metrics.shift.toInt := by
  obtain ⟨hl, hr⟩ := curve_edges s hu
  have := lo_le_toInt (curve s).lower
  have := toInt_le_hi (curve s).upper
  have := s.curvePerSide_mem
  rw [curve_center]
  simp only [lo, hi] at *
  omega

/-- Curve's ranges for two biases, shifted up and down and neither stopped at a 32-bit end,
mirror each other exactly when the shifts are opposite. -/
theorem curve_mirrors_iff (b : Bias) (hup : 0 ≤ (curve s).metrics.shift.toInt)
    (hdown : (curve { s with bias := b }).metrics.shift.toInt ≤ 0)
    (hu : (curve s).Unsaturated s.active) (hu' : (curve { s with bias := b }).Unsaturated s.active) :
    (curve { s with bias := b }).Mirrors (curve s) s.active ↔
      (curve { s with bias := b }).metrics.shift.toInt = -(curve s).metrics.shift.toInt := by
  obtain ⟨hl, hr⟩ := curve_edges s hu
  obtain ⟨hl', hr'⟩ := curve_edges { s with bias := b } hu'
  have hc := curve_center_of_unsaturated s hu
  have hc' := curve_center_of_unsaturated { s with bias := b } hu'
  -- the bias moves neither the active bin nor the width
  have ha : { s with bias := b }.active = s.active := rfl
  have hw : { s with bias := b }.curvePerSide = s.curvePerSide := rfl
  rw [ha, hw] at hl' hr'
  rw [ha] at hc'
  -- each range is shifted to one side only
  rw [min_eq_right hup] at hl
  rw [max_eq_left hup] at hr
  rw [min_eq_left hdown] at hl'
  rw [max_eq_right hdown] at hr'
  constructor
  · intro h
    have := h.lower_eq
    omega
  · intro h
    exact ⟨by omega, by omega, by omega, rfl⟩

/-- Two of curve's ranges that differ only in the bias, neither stopped at a 32-bit end: the first's
upward shift and the second's downward shift part by at most the 32-bit span less `2w`. -/
theorem curve_shift_gap (b : Bias) (hu : (curve s).Unsaturated s.active)
    (hu' : (curve { s with bias := b }).Unsaturated s.active) :
    max (curve s).metrics.shift.toInt 0 - min (curve { s with bias := b }).metrics.shift.toInt 0 ≤
      hi - lo - 2 * s.curvePerSide.toInt := by
  obtain ⟨-, hr⟩ := curve_edges s hu
  obtain ⟨hl', -⟩ := curve_edges { s with bias := b } hu'
  -- the bias moves neither the active bin nor the width
  have ha : { s with bias := b }.active = s.active := rfl
  have hw : { s with bias := b }.curvePerSide = s.curvePerSide := rfl
  rw [ha, hw] at hl'
  have := toInt_le_hi (curve s).upper
  have := lo_le_toInt (curve { s with bias := b }).lower
  omega

/-- Curve's shift is its raw shift clamped to `±room`, where the room is what the limit leaves beside
`2w + 1` bins, kept within `[0, 2^31 - 1]`. -/
theorem curve_shift_toInt : (curve s).metrics.shift.toInt =
    max (-shiftRoom (2 * s.curvePerSide.toInt + 1) s.maxBins)
      (min s.curveRawShift.toInt (shiftRoom (2 * s.curvePerSide.toInt + 1) s.maxBins)) := by
  obtain ⟨h₁, h₂⟩ := s.curvePerSide_mem
  rw [curve_shift, toInt_capShift, toInt_two_mul_add_one (by omega) h₂]

end Curve

/-- Curve under a bullish and a bearish bias, all else equal. With `x = max(10 · deviation, 1)`, `w`
bins per side and `room = max(0, maxBins - (2w + 1))`: when neither range stops at a 32-bit end,
the bearish range is the bullish one reflected about the active bin exactly when `x` is not
`k + 1/2` for an integer `k` below the room, and for such an `x` the shifts are `k + 1` up and `k`
down. -/
theorem curve_mirror (pool : Pool) (ctx : MarketContext) (oracle : Option Float) (maxBins : UInt32)
    (hstep : 0 < pool.binStep) :
    let s := Signals.ofContext pool { ctx with bias := some .bullish } oracle maxBins
    let x := greater (s.deviation * 10.0) 1.0
    let room : ℤ := max 0 (maxBins.toNat - (2 * s.curvePerSide.toInt + 1))
    ∃ r r', recommend .curve pool { ctx with bias := some .bullish } oracle maxBins = .ok r ∧
      recommend .curve pool { ctx with bias := some .bearish } oracle maxBins = .ok r' ∧
      (r.Unsaturated pool.activeBin → r'.Unsaturated pool.activeBin →
        (r'.Mirrors r pool.activeBin ↔
          ¬ ∃ k : ℤ, value x = ((k + 1 / 2 : ℝ) : EReal) ∧ k < room) ∧
        ∀ k : ℤ, value x = ((k + 1 / 2 : ℝ) : EReal) → k < room →
          r.metrics.shift.toInt = k + 1 ∧ r'.metrics.shift.toInt = -k) := by
  intro s x room
  refine ⟨curve s, curve { s with bias := .bearish }, recommend_eq_ok hstep .curve _ _ _,
    recommend_eq_ok hstep .curve _ _ _, fun hu hu' => ?_⟩
  -- the two raw shifts round `x` half up with either sign, and one room caps both
  have hraw : s.curveRawShift = roundHalfUp (x * Float.ofInt 1) := Signals.curveRawShift_eq s
  have hraw' : { s with bias := .bearish }.curveRawShift = roundHalfUp (x * Float.ofInt (-1)) :=
    Signals.curveRawShift_eq _
  have hw' : { s with bias := Bias.bearish }.curvePerSide = s.curvePerSide := rfl
  have ht := curve_shift_toInt s
  have ht' := curve_shift_toInt { s with bias := .bearish }
  rw [hraw] at ht
  rw [hraw', hw'] at ht'
  have hroom := shiftRoom_mem (2 * s.curvePerSide.toInt + 1) s.maxBins
  have hR : shiftRoom (2 * s.curvePerSide.toInt + 1) s.maxBins = min room 2147483647 := rfl
  -- neither range stops at a 32-bit end, so the shifts part by less than `2^32 - 2w`
  have hgap := curve_shift_gap s .bearish hu hu'
  have hw := s.curvePerSide_mem
  simp only [lo, hi] at *
  have hmirror := curve_mirrors_iff s .bearish
  have hx1 : (1.0 : Float) ≤ x := le_greater_right (by decide) _
  cases hxf : x.isFinite
  case false =>
    -- `x` is `+∞`: the raw shifts stop at the 32-bit ends and the shifts are `±room`
    have htop : value x = ⊤ := value_eq_top_of_pos (lt_of_lt_of_le (of_decide_eq_true rfl) hx1) hxf
    obtain ⟨hn, hm⟩ := roundHalfUp_signs_of_top htop
    simp only [lo, hi] at hn hm
    have hnone : ¬ ∃ k : ℤ, value x = ((k + 1 / 2 : ℝ) : EReal) ∧ k < room := by
      rintro ⟨k, hk, -⟩
      exact EReal.coe_ne_top _ (hk.symm.trans htop)
    refine ⟨⟨fun _ => hnone, fun _ => (hmirror (by omega) (by omega) hu hu').mpr (by omega)⟩,
      fun k hk hlt => absurd ⟨k, hk, hlt⟩ hnone⟩
  case true =>
    have hX1 : 1 ≤ toReal x := by
      have := toReal_le_of_le Bins.oneLit_value.1 hxf hx1
      rwa [Bins.oneLit_value.2] at this
    obtain ⟨hn, hm⟩ := roundHalfUp_signs hxf hX1
    simp only [lo, hi] at hn hm
    rcases floor_add_half_cases (toReal x) with ⟨k, hk, hup, hdown⟩ | ⟨hnot, hopp⟩
    · -- `x = k + 1/2`: the raw shifts are `k + 1` and `-k`
      have hk1 : 1 ≤ k := by
        have : (0 : ℝ) < k := by linarith
        exact_mod_cast this
      simp only [value_eq_half_iff hxf hk, exists_eq_left]
      rw [hup] at hn
      rw [hdown] at hm
      refine ⟨(hmirror (by omega) (by omega) hu hu').trans ⟨fun h => by omega, fun h => by omega⟩,
        fun j hj hlt => ?_⟩
      subst hj
      omega
    · -- otherwise the raw shifts are opposite, and so are the shifts
      have hnone : ¬ ∃ k : ℤ, value x = ((k + 1 / 2 : ℝ) : EReal) ∧ k < room := by
        rintro ⟨k, hk, -⟩
        rw [value_of_isFinite hxf, EReal.coe_eq_coe_iff] at hk
        exact hnot k hk
      have hN : 1 ≤ ⌊toReal x + 1 / 2⌋ := Int.le_floor.mpr (by push_cast; linarith)
      rw [hopp] at hm
      refine ⟨⟨fun _ => hnone, fun _ => ?_⟩, fun k hk hlt => absurd ⟨k, hk, hlt⟩ hnone⟩
      have hup : 0 ≤ (curve s).metrics.shift.toInt := by omega
      have hdown : (curve { s with bias := .bearish }).metrics.shift.toInt ≤ 0 := by omega
      exact (hmirror hup hdown hu hu').mpr (by omega)

/-- A pool quoted at 1.25 against an oracle at one: the deviation is a quarter, so `x = 2 + 1/2`. -/
def quarterPool : Pool := ⟨"pool", ⟨"MX", "X", 6⟩, ⟨"MY", "Y", 6⟩, 20, 0, some 1.25, none, none, none⟩

set_option maxRecDepth 8000 in
/-- At `x = 2 + 1/2` under a limit of 70 bins, curve shifts three bins up but only two down. -/
theorem curve_mirror_breaks_at_half :
    0 < quarterPool.binStep ∧ ∃ r r',
      recommend .curve quarterPool { MarketContext.empty with bias := some .bullish } (some 1.0) 70 =
        .ok r ∧
      recommend .curve quarterPool { MarketContext.empty with bias := some .bearish } (some 1.0) 70 =
        .ok r' ∧
      r.metrics.shift.toInt = 3 ∧ r'.metrics.shift.toInt = -2 := by
  have hstep : 0 < quarterPool.binStep := by decide
  obtain ⟨r, r', hr, hr', hmir⟩ := curve_mirror quarterPool MarketContext.empty (some 1.0) 70 hstep
  have hu : r.Unsaturated quarterPool.activeBin := by
    rw [recommend_eq_ok hstep] at hr
    cases hr
    exact ⟨rfl, rfl⟩
  have hu' : r'.Unsaturated quarterPool.activeBin := by
    rw [recommend_eq_ok hstep] at hr'
    cases hr'
    exact ⟨rfl, rfl⟩
  have hx : greater ((Signals.ofContext quarterPool { MarketContext.empty with bias := some .bullish }
      (some 1.0) 70).deviation * 10.0) 1.0 = 2.5 := rfl
  have hv : value 2.5 = (((2 : ℤ) + 1 / 2 : ℝ) : EReal) := by
    have hu : (2.5 : Float).toModel.unpack = .finite .positive (5 * 2 ^ 50) (-51) (by decide) := by
      rfl
    rw [value_of_isFinite (Bins.value_of_unpack hu).1, (Bins.value_of_unpack hu).2]
    norm_num
  exact ⟨hstep, r, r', hr, hr', (hmir hu hu').2 2 (by rw [hx]; exact hv) (by decide)⟩

end RangeAdvisor
