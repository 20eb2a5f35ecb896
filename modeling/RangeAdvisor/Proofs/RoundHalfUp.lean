import RangeAdvisor.Proofs.Float.Halves
import RangeAdvisor.Proofs.Float.Floor

/-!
# Rounding half up over every float

`roundHalfUp x` floors the float sum `x + 0.5`. Rounding keeps the integers, so the floor of the
rounded sum is the floor of the exact one, `⌊x + 1/2⌋`, unless the sum rounds up onto an integer.
Below `2^32` in size that happens at one float. From `-2^32` to `-1` the sum is exact; from one up it
carries into the next binade at most, and the rounding there is smaller than the half that
separates it from the next integer; between, every float lies at least `2^-53` from the nearest
half, except `0.49999999999999994 = 1/2 - 2^-54`, the largest float below one half. Its sum with
one half, `1 - 2^-54`, lies halfway between the floats `1 - 2^-53` and `1`, the tie goes to the
even `1`, and the float rounds half up to `1` where the nearest integer is `0`. From `2^32` in size
on, both floors are past the 32-bit ends, and NaN gives zero.
Main statements: `roundHalfUp_floors_exact_sum`, `roundHalfUp_below_half_rounds_up`.
-/

set_option autoImplicit false

namespace RangeAdvisor.Binary64

open Rounding

/-! ### Floats near one half -/

section NearHalf

variable {x : Float}

/-- A finite float below one half, other than `1/2 - 2^-54`, is at most `1/2 - 2^-53`. -/
theorem le_half_sub_of_lt_half (hx : x.isFinite = true) (h : toReal x < 1 / 2)
    (hne : toReal x ≠ 1 / 2 - 2 ^ (-54 : ℤ)) : toReal x ≤ 1 / 2 - 2 ^ (-53 : ℤ) := by
  by_cases hq : toReal x ≤ 1 / 4
  · exact hq.trans (by norm_num)
  -- from a quarter up, a float is a whole number of `2^-54`s, fewer than `2^53` of them
  obtain ⟨n, hn⟩ := exists_natCast_mul_of_two_zpow_lt (t := -54) hx (by norm_num; linarith)
  have hhalf : (1 / 2 : ℝ) = 2 ^ 53 * 2 ^ (-54 : ℤ) := by norm_num
  have hlt : n < 2 ^ 53 := by
    rw [hn, hhalf] at h
    exact_mod_cast lt_of_mul_lt_mul_right h (zpow_pos two_pos _).le
  have hne' : n ≠ 2 ^ 53 - 1 := by
    rintro rfl
    apply hne
    rw [hn, hhalf]
    push_cast
    ring
  have hle : (n : ℝ) + 2 ≤ 2 ^ 53 := by exact_mod_cast (show n + 2 ≤ 2 ^ 53 by omega)
  rw [hn]
  calc (n : ℝ) * 2 ^ (-54 : ℤ) ≤ (2 ^ 53 - 2) * 2 ^ (-54 : ℤ) := by gcongr; linarith
    _ = 1 / 2 - 2 ^ (-53 : ℤ) := by norm_num

/-- A finite float above one half is at least `1/2 + 2^-53`. -/
theorem half_add_le_of_half_lt (hx : x.isFinite = true) (h : 1 / 2 < toReal x) :
    1 / 2 + 2 ^ (-53 : ℤ) ≤ toReal x := by
  obtain ⟨n, hn⟩ := exists_natCast_mul_of_half_lt hx h
  have hhalf : (1 / 2 : ℝ) = 2 ^ 52 * 2 ^ (-53 : ℤ) := by norm_num
  have hlt : 2 ^ 52 < n := by
    rw [hn, hhalf] at h
    exact_mod_cast lt_of_mul_lt_mul_right h (zpow_pos two_pos _).le
  have hle : (2 : ℝ) ^ 52 + 1 ≤ n := by exact_mod_cast hlt
  rw [hn]
  calc 1 / 2 + 2 ^ (-53 : ℤ) = ((2 : ℝ) ^ 52 + 1) * 2 ^ (-53 : ℤ) := by norm_num
    _ ≤ n * 2 ^ (-53 : ℤ) := by gcongr

theorem nearest_three_halves : nearest (3 / 2) = 3 / 2 := by
  have h := nearest_natCast_mul_two_zpow (n := 3) (e := -1) (by norm_num) (by norm_num)
  rwa [show ((3 : ℕ) : ℝ) * 2 ^ (-1 : ℤ) = 3 / 2 by norm_num] at h

theorem nearest_one_sub : nearest (1 - 2 ^ (-53 : ℤ)) = 1 - 2 ^ (-53 : ℤ) := by
  have h := nearest_intCast_mul_two_zpow (k := 2 ^ 53 - 1) (e := -53) (by norm_num) (by norm_num)
  rwa [show ((2 ^ 53 - 1 : ℤ) : ℝ) * 2 ^ (-53 : ℤ) = 1 - 2 ^ (-53 : ℤ) by push_cast; norm_num] at h

end NearHalf

/-! ### The rounded sum -/

section Sum

variable {x : Float}

/-- Rounding keeps the floor of a real that lies from an integer `n` up to a real below `n + 1`
that rounding keeps. -/
theorem floor_nearest_eq_floor {z b : ℝ} {n : ℤ} (hn : n.natAbs < 2 ^ 53) (hz : (n : ℝ) ≤ z)
    (hzb : z ≤ b) (hb : nearest b = b) (hb1 : b < n + 1) : ⌊nearest z⌋ = ⌊z⌋ := by
  have hfloor : ⌊z⌋ = n := Int.floor_eq_iff.mpr ⟨hz, hzb.trans_lt hb1⟩
  rw [hfloor, Int.floor_eq_iff]
  constructor
  · calc (n : ℝ) = nearest n := (nearest_intCast hn).symm
      _ ≤ nearest z := nearest_mono hz
  · calc nearest z ≤ nearest b := nearest_mono hzb
      _ = b := hb
      _ < n + 1 := hb1

/-- Below `2^32` in size, one half plus a float has the floor of the exact sum after rounding,
except for the float `1/2 - 2^-54`. -/
theorem floor_nearest_add_half_of_ne (hx : x.isFinite = true) (h32 : |toReal x| < 2 ^ 32)
    (hne : toReal x ≠ 1 / 2 - 2 ^ (-54 : ℤ)) :
    ⌊nearest (toReal x + 1 / 2)⌋ = ⌊toReal x + 1 / 2⌋ := by
  obtain ⟨hlo, hhi⟩ := abs_lt.mp h32
  rcases le_or_gt 1 (toReal x) with h1 | h1
  · exact floor_nearest_add_half hx h1 hhi
  obtain ⟨hnf, hnr⟩ := neg_value hx
  rcases le_or_gt (toReal x) (-1) with hm1 | hm1
  · -- from `-2^32` to `-1` the sum is exact
    have h := nearest_half_sub hnf (by rw [hnr]; linarith) (by rw [hnr]; linarith)
    rw [hnr, sub_neg_eq_add, add_comm] at h
    rw [h]
  rcases le_or_gt (1 / 2) (toReal x) with hh | hh
  · -- from one half to one the sum lies from `1` to `3/2`
    exact floor_nearest_eq_floor (n := 1) (by norm_num) (by push_cast; linarith) (by linarith)
      nearest_three_halves (by norm_num)
  rcases le_or_gt (-1 / 2) (toReal x) with hm | hm
  · -- from minus one half to one half, from `0` to `1 - 2^-53`
    have hle := le_half_sub_of_lt_half hx hh hne
    exact floor_nearest_eq_floor (n := 0) (by norm_num) (by push_cast; linarith) (by linarith)
      nearest_one_sub (by norm_num)
  · -- from minus one to minus one half, from `-1` to `-2^-53`
    have hle := half_add_le_of_half_lt hnf (by rw [hnr]; linarith)
    rw [hnr] at hle
    have hb : nearest (-2 ^ (-53 : ℤ)) = -2 ^ (-53 : ℤ) := by
      rw [nearest_neg, nearest_two_zpow (by norm_num)]
    exact floor_nearest_eq_floor (n := -1) (by norm_num) (by push_cast; linarith) (by linarith)
      hb (by norm_num)

end Sum

end RangeAdvisor.Binary64

namespace RangeAdvisor

open Binary64 Rounding Saturating

/-! ### Rounding half up -/

section RoundHalfUp

variable {x : Float}

theorem half_value : toReal 0.5 = 1 / 2 := by
  rw [le_antisymm bounded_half.2.2 bounded_half.2.1]
  norm_num

/-- A float of size at most `2^52` rounds half up to the floor of its sum with one half, rounded,
kept within the 32-bit range. -/
theorem toInt_roundHalfUp_of_small (hy : x.isFinite = true) (hsmall : |toReal x| ≤ 2 ^ 52) :
    (roundHalfUp x).toInt = max lo (min ⌊nearest (toReal x + 1 / 2)⌋ hi) := by
  obtain ⟨hn, hv⟩ := add_value hy half_isFinite
  rw [half_value] at hv
  have hsum : |toReal x + 1 / 2| ≤ 2 ^ 53 := by
    calc |toReal x + 1 / 2| ≤ |toReal x| + |1 / 2| := abs_add_le _ _
      _ ≤ 2 ^ 53 := by norm_num; linarith
  obtain ⟨hf, hr⟩ := isFinite_of_value_small hn hv hsum
  rw [roundHalfUp, toInt_floorOf hn, value_of_isFinite hf, hr, floorSat_coe]

theorem twoPow32_value : (4294967296.0 : Float).isFinite = true ∧ toReal 4294967296.0 = 2 ^ 32 := by
  rw [show (4294967296.0 : Float) = Float.ofNat (2 ^ 32) from rfl]
  exact_mod_cast ofNat_value (by norm_num)

/-- The largest float below one half. -/
theorem belowHalf_value :
    (0.49999999999999994 : Float).isFinite = true ∧
      toReal 0.49999999999999994 = 1 / 2 - 2 ^ (-54 : ℤ) := by
  have hu : (0.49999999999999994 : Float).toModel.unpack =
      .finite .positive (2 ^ 53 - 1) (-54) (by decide) := by rfl
  refine ⟨rfl, ?_⟩
  rw [toReal, hu]
  show ((2 ^ 53 - 1 : ℕ) : ℝ) * 2 ^ (-54 : ℤ) = _
  norm_num

/-- From `2^32` up, a float and the exact sum with one half both stop at the top of the 32-bit
range. -/
theorem roundHalfUp_of_two_pow_le (hx : x.isNaN = false) (h : ((2 ^ 32 : ℝ) : EReal) ≤ value x) :
    (roundHalfUp x).toInt = hi ∧ floorSat (value x + ((1 / 2 : ℝ) : EReal)) = hi := by
  obtain ⟨htf, htr⟩ := twoPow32_value
  have hle : (4294967296.0 : Float) ≤ x :=
    le_iff.mpr ⟨isNaN_eq_false_of_isFinite htf, hx, by rwa [value_of_isFinite htf, htr]⟩
  have hround : (roundHalfUp 4294967296.0).toInt = hi := rfl
  have hfloor : floorSat ((2 ^ 32 + 1 / 2 : ℝ) : EReal) = hi := by
    rw [floorSat_coe, show ⌊(2 ^ 32 + 1 / 2 : ℝ)⌋ = 2 ^ 32 by rw [Int.floor_eq_iff]; norm_num]
    simp only [lo, hi]
    omega
  have hsum : ((2 ^ 32 + 1 / 2 : ℝ) : EReal) ≤ value x + ((1 / 2 : ℝ) : EReal) := by
    rw [EReal.coe_add]
    exact add_le_add h le_rfl
  have h₁ := roundHalfUp_mono hle
  have h₂ := floorSat_mono hsum
  have := toInt_le_hi (roundHalfUp x)
  have := floorSat_le_hi (value x + ((1 / 2 : ℝ) : EReal))
  omega

/-- From `-2^32` down, a float and the exact sum with one half both stop at the bottom of the
32-bit range. -/
theorem roundHalfUp_of_le_neg_two_pow (hx : x.isNaN = false)
    (h : value x ≤ ((-2 ^ 32 : ℝ) : EReal)) :
    (roundHalfUp x).toInt = lo ∧ floorSat (value x + ((1 / 2 : ℝ) : EReal)) = lo := by
  obtain ⟨htf, htr⟩ := twoPow32_value
  obtain ⟨hnf, hnr⟩ := neg_value htf
  have hle : x ≤ -(4294967296.0 : Float) :=
    le_iff.mpr ⟨hx, isNaN_eq_false_of_isFinite hnf, by rwa [value_of_isFinite hnf, hnr, htr]⟩
  have hround : (roundHalfUp (-4294967296.0)).toInt = lo := rfl
  have hfloor : floorSat ((-2 ^ 32 + 1 / 2 : ℝ) : EReal) = lo := by
    rw [floorSat_coe, show ⌊(-2 ^ 32 + 1 / 2 : ℝ)⌋ = -2 ^ 32 by rw [Int.floor_eq_iff]; norm_num]
    simp only [lo, hi]
    omega
  have hsum : value x + ((1 / 2 : ℝ) : EReal) ≤ ((-2 ^ 32 + 1 / 2 : ℝ) : EReal) := by
    rw [EReal.coe_add]
    exact add_le_add h le_rfl
  have h₁ := roundHalfUp_mono hle
  have h₂ := floorSat_mono hsum
  have := lo_le_toInt (roundHalfUp x)
  have := lo_le_floorSat (value x + ((1 / 2 : ℝ) : EReal))
  omega

/-- Below `2^32` in size, every float but `0.49999999999999994` rounds half up to the floor of its
exact sum with one half, kept within the 32-bit range. -/
theorem toInt_roundHalfUp_of_abs_lt (hx : x.isFinite = true) (h32 : |toReal x| < 2 ^ 32)
    (hne : x ≠ 0.49999999999999994) :
    (roundHalfUp x).toInt = floorSat (value x + ((1 / 2 : ℝ) : EReal)) := by
  have hne' : toReal x ≠ 1 / 2 - 2 ^ (-54 : ℤ) := by
    intro h
    obtain ⟨hbf, hbr⟩ := belowHalf_value
    exact hne (eq_of_toReal_eq hx hbf (h.trans hbr.symm) (by rw [h]; norm_num))
  rw [toInt_roundHalfUp_of_small hx (h32.le.trans (by norm_num)),
    floor_nearest_add_half_of_ne hx h32 hne', value_of_isFinite hx, ← EReal.coe_add, floorSat_coe]

/-- Every float but `0.49999999999999994` rounds half up to the floor of its exact sum with one
half, stopped at the ends of the 32-bit range, NaN giving zero; within the range, a finite float
rounds to the nearest integer, halves going up. -/
theorem roundHalfUp_floors_exact_sum (x : Float) (hx : x ≠ 0.49999999999999994) :
    (roundHalfUp x).toInt =
        (if x.isNaN then 0 else floorSat (value x + ((1 / 2 : ℝ) : EReal))) ∧
      (x.isFinite = true → lo ≤ toReal x → toReal x ≤ hi →
        (roundHalfUp x).toInt = round (toReal x)) := by
  have hsat : (roundHalfUp x).toInt =
      (if x.isNaN then 0 else floorSat (value x + ((1 / 2 : ℝ) : EReal))) := by
    cases hnan : x.isNaN with
    | true =>
      rw [if_pos rfl, roundHalfUp_of_notANumber ((isNaN_eq_true_iff x).mp hnan)]
      rfl
    | false =>
      rw [if_neg Bool.false_ne_true]
      rcases le_or_gt ((2 ^ 32 : ℝ) : EReal) (value x) with htop | htop
      · obtain ⟨h₁, h₂⟩ := roundHalfUp_of_two_pow_le hnan htop
        rw [h₁, h₂]
      rcases le_or_gt (value x) ((-2 ^ 32 : ℝ) : EReal) with hbot | hbot
      · obtain ⟨h₁, h₂⟩ := roundHalfUp_of_le_neg_two_pow hnan hbot
        rw [h₁, h₂]
      -- strictly between, the float is finite and below `2^32` in size
      have hf : x.isFinite = true := isFinite_of_value_ne hnan htop.ne_top hbot.ne_bot
      rw [value_of_isFinite hf, EReal.coe_lt_coe_iff] at htop hbot
      exact toInt_roundHalfUp_of_abs_lt hf (abs_lt.mpr ⟨hbot, htop⟩) hx
  refine ⟨hsat, fun hf hlo hhi => ?_⟩
  rw [hsat, if_neg (by rw [isNaN_eq_false_of_isFinite hf]; exact Bool.false_ne_true),
    value_of_isFinite hf, ← EReal.coe_add, floorSat_coe, round_eq]
  have h₁ : lo ≤ ⌊toReal x + 1 / 2⌋ := Int.le_floor.mpr (by linarith)
  have h₂ : ⌊toReal x + 1 / 2⌋ ≤ hi := Int.floor_le_iff.mpr (by linarith)
  omega

theorem roundHalfUp_floors_exact_sum_next_below_half :
    (0.4999999999999999 : Float) ≠ 0.49999999999999994 ∧
      ((roundHalfUp 0.4999999999999999).toInt =
          (if (0.4999999999999999 : Float).isNaN then 0
            else floorSat (value 0.4999999999999999 + ((1 / 2 : ℝ) : EReal))) ∧
        ((0.4999999999999999 : Float).isFinite = true → lo ≤ toReal 0.4999999999999999 →
          toReal 0.4999999999999999 ≤ hi →
          (roundHalfUp 0.4999999999999999).toInt = round (toReal 0.4999999999999999))) :=
  ⟨by decide, roundHalfUp_floors_exact_sum _ (by decide)⟩

/-- At `0.49999999999999994` the float sum with one half rounds up to one, so the float rounds
half up to `1`, while the floor of the exact sum and the nearest integer are `0`. -/
theorem roundHalfUp_below_half_rounds_up :
    (roundHalfUp 0.49999999999999994).toInt = 1 ∧
      floorSat (value 0.49999999999999994 + ((1 / 2 : ℝ) : EReal)) = 0 ∧
      round (toReal (0.49999999999999994 : Float)) = 0 := by
  obtain ⟨hf, hr⟩ := belowHalf_value
  have hfloor : ⌊toReal (0.49999999999999994 : Float) + 1 / 2⌋ = 0 := by
    rw [hr, Int.floor_eq_iff]
    norm_num
  refine ⟨rfl, ?_, by rw [round_eq, hfloor]⟩
  rw [value_of_isFinite hf, ← EReal.coe_add, floorSat_coe, hfloor]
  simp only [lo, hi]
  omega

end RoundHalfUp

end RangeAdvisor
