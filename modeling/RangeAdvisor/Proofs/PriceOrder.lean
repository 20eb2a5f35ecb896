import RangeAdvisor.Proofs.BinInverse

/-!
# Bin prices rise with the bin

Binary powering takes a different sequence of roundings at each exponent, so its monotonicity is
not structural. It comes from error bounds: a power computed in floats is within `(|n| + 1) 2^-49`
of the exact power in the logarithm, it overflows to `+∞` only when the exact power with that error
reaches the largest finite float (`LogBound`), and to `+0` only when its reciprocal does. Over
32-bit exponents the growth per bin, at least `2^-15` in the logarithm, outweighs both errors, so
the powers never fall (`powInt_le_of_lt`). Multiplying by the decimals factor, a finite float above
zero, keeps the order (`Bins.priceAt_le_of_le`), and strictly so between a normal price and a
finite one (`Bins.priceAt_lt_of_lt`). The middle bin of a range is the floor of the mean of its
edges when the width fits in 32 bits, so its price lies between theirs
(`Bins.priceAt_increasing`).
-/

set_option autoImplicit false

open Float.Model Float.Model.UnpackedFloat

namespace RangeAdvisor

open Binary64 Unpacked Rounding

/-! ### Overflow in binary powering -/

/-- A rounding that overflows to `+∞` was at least `maxFinite`. -/
theorem maxFinite_le_of_toBinary64_eq_top {z : ℝ} (h : toBinary64 z = ⊤) : maxFinite ≤ z := by
  by_contra hlt
  have hnear : nearest z < overflow :=
    calc nearest z ≤ nearest maxFinite := nearest_mono (not_le.mp hlt).le
      _ = maxFinite := nearest_maxFinite
      _ < overflow := maxFinite_lt_overflow
  unfold toBinary64 at h
  rw [if_neg (not_le.mpr hnear)] at h
  split at h
  · exact absurd h (by decide)
  · exact absurd h (EReal.coe_ne_top _)

theorem one_le_maxFinite : 1 ≤ maxFinite := by
  unfold maxFinite
  exact one_le_mul_of_one_le_of_one_le (by norm_num) (one_le_pow₀ one_le_two)

/-- `2^1024` is `maxFinite` times `1 + 1/(2^53 - 1)`: their logarithms differ by at most `2^-52`. -/
theorem log_overflow_le : Real.log overflow ≤ Real.log maxFinite + 2 ^ (-52 : ℤ) := by
  have hmax : 0 < maxFinite := lt_of_lt_of_le one_pos one_le_maxFinite
  have hq : overflow = maxFinite * (overflow / maxFinite) := by field_simp
  have hpos : 0 < overflow / maxFinite := div_pos overflow_pos hmax
  have hratio : overflow / maxFinite - 1 ≤ 2 ^ (-52 : ℤ) := by
    rw [overflow, maxFinite, show (2 : ℝ) ^ 1024 = 2 ^ 53 * 2 ^ 971 by rw [← pow_add],
      mul_div_mul_right _ _ (by positivity)]
    norm_num
  rw [hq, Real.log_mul hmax.ne' hpos.ne']
  linarith [Real.log_le_sub_one_of_pos hpos]

/-- The logarithm of `2^-1024`, the least value of a reciprocal of a finite float. -/
theorem log_two_zpow_neg : Real.log (2 ^ (-1024 : ℤ)) = -Real.log overflow := by
  rw [overflow, Real.log_zpow, Real.log_pow]
  push_cast
  ring

/-- A product of floats of at least one with its overflow accounted for: near `y` within `δ` in
the logarithm, and `+∞` only when `y + δ` reaches the logarithm of the largest finite float. -/
structure LogBound (x : Float) (y δ : ℝ) : Prop where
  near : LogNear x y δ
  top_le : value x = ⊤ → Real.log maxFinite ≤ y + δ

section LogBound

variable {a b x : Float} {A B y α β δ : ℝ}

/-- The bound never falls below zero: the float is at least one, or infinite. -/
theorem LogBound.zero_le (h : LogBound x y δ) : 0 ≤ y + δ := by
  cases h.near with
  | top htop => exact (Real.log_nonneg one_le_maxFinite).trans (h.top_le htop)
  | finite _ h1 hl =>
    have := Real.log_nonneg h1
    rw [abs_le] at hl
    linarith

theorem logBound_self (hf : x.isFinite = true) (h1 : 1 ≤ toReal x) :
    LogBound x (Real.log (toReal x)) 0 where
  near := logNear_self hf h1
  top_le htop := absurd htop (value_ne_top_of_isFinite hf)

/-- One rounded product: the bound of `LogNear.mul`, and an overflow of the product means the
exact product reached `maxFinite`. -/
theorem LogBound.mul (ha : LogBound a A α) (hb : LogBound b B β) :
    LogBound (a * b) (A + B) (α + β + 2 ^ (-49 : ℤ)) where
  near := ha.near.mul hb.near
  top_le htop := by
    have hε : (0 : ℝ) ≤ 2 ^ (-49 : ℤ) := by positivity
    cases ha.near with
    | top hat =>
      have := ha.top_le hat
      have := hb.zero_le
      linarith
    | finite hfa ha1 hla =>
    cases hb.near with
    | top hbt =>
      have := hb.top_le hbt
      have := ha.zero_le
      linarith
    | finite hfb hb1 hlb =>
    -- two finite factors whose product rounds to `+∞`: the exact product is at least `maxFinite`
    obtain ⟨-, hval⟩ := mul_value hfa hfb
    have hmax := maxFinite_le_of_toBinary64_eq_top (hval ▸ htop)
    have hlog : Real.log maxFinite ≤ Real.log (toReal a) + Real.log (toReal b) := by
      rw [← Real.log_mul (by linarith) (by linarith)]
      exact Real.log_le_log (by linarith [one_le_maxFinite]) hmax
    rw [abs_le] at hla hlb
    linarith

theorem powNat_logBound (ha : LogBound a A α) (hr : LogBound x B β) (k : ℕ) :
    LogBound (powNat a x k) (B + k * A) (β + k * (α + 2 ^ (-49 : ℤ))) :=
  powNat_of_mul LogBound.mul ha hr k

end LogBound

section PowInt

variable {a : Float}

/-- Binary powering of a finite factor of at least one, from one: near `k log a` within `k 2^-49`,
and `+∞` only when that reaches `log maxFinite`. -/
theorem powNat_one_logBound (hf : a.isFinite = true) (h1 : 1 ≤ toReal a) (k : ℕ) :
    LogBound (powNat a 1 k) (k * Real.log (toReal a)) (k * 2 ^ (-49 : ℤ)) := by
  have hone := logBound_self isFinite_one (by rw [toReal_one])
  rw [toReal_one, Real.log_one] at hone
  have h := powNat_logBound (logBound_self hf h1) hone k
  rwa [zero_add, zero_add, zero_add] at h

theorem natAbs_cast_of_nonneg {n : ℤ} (h : 0 ≤ n) : ((n.natAbs : ℕ) : ℝ) = n := by
  rw [Nat.cast_natAbs, Int.cast_abs, abs_of_nonneg (by exact_mod_cast h)]

theorem natAbs_cast_of_neg {n : ℤ} (h : n < 0) : ((n.natAbs : ℕ) : ℝ) = -n := by
  rw [Nat.cast_natAbs, Int.cast_abs, abs_of_neg (by exact_mod_cast h)]

/-- An integer power comes out `+∞` only for an exponent above zero at which the exact power,
with the rounding errors of the powering, reaches `maxFinite`; a reciprocal is never `+∞`. -/
theorem powInt_top_bound (hf : a.isFinite = true) (h1 : 1 ≤ toReal a) {n : Int32}
    (h : value (powInt a n) = ⊤) :
    0 < n.toInt ∧ Real.log maxFinite ≤ n.toInt * (Real.log (toReal a) + 2 ^ (-49 : ℤ)) := by
  have hb := powNat_one_logBound hf h1 n.toInt.natAbs
  unfold powInt at h
  dsimp only at h
  split at h
  · exfalso
    cases hb.near with
    | top htop =>
      rw [value_eq_top_iff, one_div_eq_zero htop] at h
      cases h
    | finite hfr hr1 _ =>
      exact value_ne_top_of_isFinite (one_div_of_one_le hfr hr1).1 h
  · rename_i hnn
    have hn0 : 0 ≤ n.toInt := not_lt.mp fun hlt => hnn (Int32.lt_iff_toInt_lt.mpr hlt)
    have hpos : 0 < n.toInt := by
      rcases hn0.lt_or_eq with hlt | heq
      · exact hlt
      · -- the power of zero is the start, one
        rw [← heq, Int.natAbs_zero, powNat_zero] at h
        exact (value_ne_top_of_isFinite isFinite_one h).elim
    have hlog := hb.top_le h
    rw [natAbs_cast_of_nonneg hn0] at hlog
    refine ⟨hpos, hlog.trans_eq (by ring)⟩

/-- An integer power comes out `+0` only for an exponent below zero at which the exact reciprocal
power, with the rounding errors of the powering, reaches `maxFinite`. -/
theorem powInt_zero_bound (hf : a.isFinite = true) (h1 : 1 ≤ toReal a) {n : Int32}
    (h : (powInt a n).toModel.unpack = .zero .positive) :
    n.toInt < 0 ∧ Real.log maxFinite ≤ -n.toInt * (Real.log (toReal a) + 2 ^ (-49 : ℤ)) := by
  have hb := powNat_one_logBound hf h1 n.toInt.natAbs
  unfold powInt at h
  dsimp only at h
  split at h
  · rename_i hneg
    have hn : n.toInt < 0 := Int32.lt_iff_toInt_lt.mp hneg
    refine ⟨hn, ?_⟩
    cases hb.near with
    | top htop =>
      have hlog := hb.top_le htop
      rw [natAbs_cast_of_neg hn] at hlog
      exact hlog.trans_eq (by ring)
    | finite hfr hr1 _ =>
      -- the reciprocal of a finite float of at least one lies above zero
      have hlow := (one_div_of_one_le hfr hr1).2.1
      have hzero : toReal (1 / powNat a 1 n.toInt.natAbs) = 0 := by rw [toReal, h]; rfl
      have : (0 : ℝ) < 2 ^ (-1024 : ℤ) := by positivity
      linarith
  · exfalso
    cases hb.near with
    | top htop =>
      rw [value_eq_top_iff, h] at htop
      cases htop
    | finite _ hr1 _ =>
      have hzero : toReal (powNat a 1 n.toInt.natAbs) = 0 := by rw [toReal, h]; rfl
      linarith

/-- A power computed in floats is never NaN and never below zero. -/
theorem PowApprox.zero_le {x : Float} {y δ : ℝ} (h : PowApprox x y δ) :
    x.isNaN = false ∧ 0 ≤ value x := by
  cases h with
  | top htop =>
    refine ⟨?_, by rw [htop]; exact le_top⟩
    rw [isNaN_eq_false_iff, value_eq_top_iff.mp htop]
    exact fun h => by cases h
  | zero hz =>
    refine ⟨?_, by rw [value, hz]; exact le_rfl⟩
    rw [isNaN_eq_false_iff, hz]
    exact fun h => by cases h
  | finite hfin hlow _ =>
    refine ⟨isNaN_eq_false_of_isFinite hfin, ?_⟩
    rw [value_of_isFinite hfin]
    exact EReal.coe_nonneg.mpr ((zpow_pos two_pos _).le.trans hlow)

/-- Over 32-bit exponents the exact powers of a factor whose logarithm is at least `2^-15` grow
faster than the rounding errors of two powers: by `2^-16` beyond both. -/
theorem error_add_le_gap {L : ℝ} (hL : 2 ^ (-15 : ℤ) ≤ L) {n₁ n₂ : Int32} (h : n₁.toInt < n₂.toInt) :
    2 ^ (-16 : ℤ) + (|(n₁.toInt : ℝ)| + 1) * 2 ^ (-49 : ℤ) + (|(n₂.toInt : ℝ)| + 1) * 2 ^ (-49 : ℤ) ≤
      n₂.toInt * L - n₁.toInt * L := by
  have hb : ∀ n : Int32, |(n.toInt : ℝ)| ≤ 2 ^ 31 := fun n => by
    have h₁ := Saturating.lo_le_toInt n
    have h₂ := Saturating.toInt_le_hi n
    simp only [Saturating.lo, Saturating.hi] at h₁ h₂
    rw [abs_le]
    constructor <;> norm_num <;> exact_mod_cast (by omega)
  have hd : (1 : ℝ) ≤ n₂.toInt - n₁.toInt := by exact_mod_cast (by omega : (1 : ℤ) ≤ n₂.toInt - n₁.toInt)
  have hL0 : 0 ≤ L := (zpow_pos two_pos _).le.trans hL
  calc 2 ^ (-16 : ℤ) + (|(n₁.toInt : ℝ)| + 1) * 2 ^ (-49 : ℤ) + (|(n₂.toInt : ℝ)| + 1) * 2 ^ (-49 : ℤ)
      ≤ 2 ^ (-16 : ℤ) + (2 ^ 31 + 1) * 2 ^ (-49 : ℤ) + (2 ^ 31 + 1) * 2 ^ (-49 : ℤ) := by
        gcongr <;> exact hb _
    _ ≤ 2 ^ (-15 : ℤ) := by norm_num
    _ ≤ L := hL
    _ ≤ (n₂.toInt - n₁.toInt) * L := le_mul_of_one_le_left hL0 hd
    _ = n₂.toInt * L - n₁.toInt * L := by ring

/-- Integer powers of a finite factor whose logarithm is at least `2^-15`, computed in floats,
never fall as the 32-bit exponent grows, overflows to `+∞` and to `+0` included; where both are
finite and above zero, the larger exponent's power is larger by `2^-16` in the logarithm. -/
theorem powInt_le_of_lt (hf : a.isFinite = true) (h1 : 1 ≤ toReal a)
    (hL : 2 ^ (-15 : ℤ) ≤ Real.log (toReal a)) {n₁ n₂ : Int32} (h : n₁ < n₂) :
    powInt a n₁ ≤ powInt a n₂ ∧
      ((powInt a n₁).isFinite = true → 0 < toReal (powInt a n₁) →
        (powInt a n₂).isFinite = true →
        Real.log (toReal (powInt a n₁)) + 2 ^ (-16 : ℤ) ≤ Real.log (toReal (powInt a n₂))) := by
  have hn := Int32.lt_iff_toInt_lt.mp h
  have hgap := error_add_le_gap hL hn
  have hε : (0 : ℝ) < 2 ^ (-49 : ℤ) := by positivity
  have h16 : (0 : ℝ) < 2 ^ (-16 : ℤ) := by positivity
  have happ₂ := powInt_approx hf h1 n₂
  obtain ⟨hnan₂, hval₂⟩ := happ₂.zero_le
  cases powInt_approx hf h1 n₁ with
  | top h₁ =>
    -- an overflow at `n₁` leaves the larger exponent's power no room to be finite
    obtain ⟨hpos₁, hlog₁⟩ := powInt_top_bound hf h1 h₁
    have hnan₁ := (PowApprox.top (y := 0) (δ := 0) h₁).zero_le.1
    refine ⟨?_, fun hf₁ => absurd h₁ (value_ne_top_of_isFinite hf₁)⟩
    cases happ₂ with
    | top h₂ => exact le_of_value_eq_top h₂ hnan₁
    | zero h₂ => exact absurd (powInt_zero_bound hf h1 h₂).1 (by omega)
    | finite hf₂ hlow₂ hlog₂ =>
      exfalso
      have hpos₂ : (0 : ℝ) < toReal (powInt a n₂) := (zpow_pos two_pos _).trans_le hlow₂
      have hmax := Real.log_le_log hpos₂ (toReal_le_maxFinite hf₂)
      have hp₁ : (0 : ℝ) < n₁.toInt := by exact_mod_cast hpos₁
      have hp₂ : (0 : ℝ) < n₂.toInt := by exact_mod_cast (by omega : 0 < n₂.toInt)
      rw [abs_le, abs_of_pos hp₂] at hlog₂
      rw [abs_of_pos hp₁, abs_of_pos hp₂] at hgap
      linarith [hlog₂.1]
  | zero h₁ =>
    refine ⟨le_iff.mpr ⟨?_, hnan₂, by rw [value, h₁]; exact hval₂⟩, fun _ hpos => ?_⟩
    · rw [isNaN_eq_false_iff, h₁]
      exact fun h => by cases h
    · rw [toReal, h₁] at hpos
      exact absurd hpos (lt_irrefl 0)
  | finite hf₁ hlow₁ hlog₁ =>
    cases happ₂ with
    | top h₂ =>
      exact ⟨le_of_value_eq_top h₂ (isNaN_eq_false_of_isFinite hf₁),
        fun _ _ hf₂ => absurd h₂ (value_ne_top_of_isFinite hf₂)⟩
    | zero h₂ =>
      -- `+0` at `n₂` means `n₁` is further below zero, where the reciprocal cannot be finite
      exfalso
      obtain ⟨hneg₂, hlog₂⟩ := powInt_zero_bound hf h1 h₂
      have hlow := Real.log_le_log (zpow_pos two_pos _) hlow₁
      rw [log_two_zpow_neg] at hlow
      have hover := log_overflow_le
      have h52 : (2 : ℝ) ^ (-52 : ℤ) ≤ 2 ^ (-16 : ℤ) := zpow_le_zpow_right₀ one_le_two (by norm_num)
      have hm₁ : (n₁.toInt : ℝ) < 0 := by exact_mod_cast (by omega : n₁.toInt < 0)
      have hm₂ : (n₂.toInt : ℝ) < 0 := by exact_mod_cast hneg₂
      rw [abs_le, abs_of_neg hm₁] at hlog₁
      rw [abs_of_neg hm₁, abs_of_neg hm₂] at hgap
      linarith [hlog₁.2]
    | finite hf₂ hlow₂ hlog₂ =>
      have hgap' : Real.log (toReal (powInt a n₁)) + 2 ^ (-16 : ℤ) ≤
          Real.log (toReal (powInt a n₂)) := by
        rw [abs_le] at hlog₁ hlog₂
        linarith [hlog₁.2, hlog₂.1]
      have hpos₁ : (0 : ℝ) < toReal (powInt a n₁) := (zpow_pos two_pos _).trans_le hlow₁
      have hpos₂ : (0 : ℝ) < toReal (powInt a n₂) := (zpow_pos two_pos _).trans_le hlow₂
      have hlt : toReal (powInt a n₁) < toReal (powInt a n₂) :=
        (Real.log_lt_log_iff hpos₁ hpos₂).mp (by linarith)
      exact ⟨le_of_lt (lt_of_toReal_lt hf₁ hf₂ hlt), fun _ _ _ => hgap'⟩

end PowInt

/-! ### The price of a bin -/

namespace Bins

/-- A power of ten with an exponent of at most 255 in size, with the rounding errors of the powering,
stays far from an overflow: `255 · (log 10 + 2^-49)` is about 587, `log maxFinite` about 709. -/
theorem mul_log_ten_lt_log_maxFinite {c : ℝ} (hc : |c| ≤ 255) :
    c * (Real.log 10 + 2 ^ (-49 : ℤ)) < Real.log maxFinite := by
  have hlog2 : (1 / 2 : ℝ) < Real.log 2 := by linarith [Real.log_two_gt_d9]
  have hlog10 : Real.log 10 ≤ 4 * Real.log 2 := by
    calc Real.log 10 ≤ Real.log (2 ^ 4) := Real.log_le_log (by norm_num) (by norm_num)
      _ = 4 * Real.log 2 := by rw [Real.log_pow]; norm_num
  have hmax : 1023 * Real.log 2 ≤ Real.log maxFinite := by
    rw [show (1023 : ℝ) * Real.log 2 = Real.log (2 ^ 1023) by rw [Real.log_pow]; norm_num]
    refine Real.log_le_log (by positivity) ?_
    unfold maxFinite
    calc (2 : ℝ) ^ 1023 = 2 ^ 52 * 2 ^ 971 := by rw [← pow_add]
      _ ≤ (2 ^ 53 - 1) * 2 ^ 971 := by gcongr; norm_num
  have hε : (2 : ℝ) ^ (-49 : ℤ) ≤ 1 / 1000 := by norm_num
  calc c * (Real.log 10 + 2 ^ (-49 : ℤ))
      ≤ 255 * (Real.log 10 + 2 ^ (-49 : ℤ)) :=
        mul_le_mul_of_nonneg_right (le_of_abs_le hc)
          (add_nonneg (Real.log_nonneg (by norm_num)) (by positivity))
    _ ≤ 255 * (4 * Real.log 2 + 1 / 1000) := by gcongr
    _ < 1023 * Real.log 2 := by linarith
    _ ≤ Real.log maxFinite := hmax

/-- `10^(dx - dy)` in floats is finite and above zero: its exponent is at most 255 in size, and
`10^255` is far below an overflow, `10^-255` far above `+0`. -/
theorem decimalsFactor_pos (dx dy : UInt8) :
    (decimalsFactor dx dy).isFinite = true ∧ 0 < toReal (decimalsFactor dx dy) := by
  obtain ⟨h10f, h10⟩ := tenLit_value
  have h1 : 1 ≤ toReal 10.0 := by rw [h10]; norm_num
  have hdx := dx.toNat_lt
  have hdy := dy.toNat_lt
  have hk : (Int32.ofInt ((dx.toNat : ℤ) - dy.toNat)).toInt = (dx.toNat : ℤ) - dy.toNat :=
    Int32.toInt_ofInt_of_le (by omega) (by omega)
  have hk255 : |((Int32.ofInt ((dx.toNat : ℤ) - dy.toNat)).toInt : ℝ)| ≤ 255 := by
    have hx : (dx.toNat : ℝ) ≤ 255 := by exact_mod_cast (by omega : dx.toNat ≤ 255)
    have hy : (dy.toNat : ℝ) ≤ 255 := by exact_mod_cast (by omega : dy.toNat ≤ 255)
    rw [hk, abs_le]
    push_cast
    constructor <;> linarith [(Nat.cast_nonneg dx.toNat : (0 : ℝ) ≤ _),
      (Nat.cast_nonneg dy.toNat : (0 : ℝ) ≤ _)]
  -- an overflow either way would need `log maxFinite ≤ 255 (log 10 + 2^-49)`, which fails
  have happ := powInt_approx h10f h1 (Int32.ofInt ((dx.toNat : ℤ) - dy.toNat))
  unfold decimalsFactor
  cases happ with
  | top htop =>
    obtain ⟨-, hlog⟩ := powInt_top_bound h10f h1 htop
    rw [h10] at hlog
    exact absurd hlog (mul_log_ten_lt_log_maxFinite hk255).not_ge
  | zero hzero =>
    obtain ⟨-, hlog⟩ := powInt_zero_bound h10f h1 hzero
    rw [h10] at hlog
    exact absurd hlog (mul_log_ten_lt_log_maxFinite (by rwa [abs_neg])).not_ge
  | finite hfin hlow _ => exact ⟨hfin, (zpow_pos two_pos _).trans_le hlow⟩

variable {step : UInt16} {dx dy : UInt8} {b₁ b₂ : Int32}

theorem one_le_stepRatio (hs : step ≠ 0) : 1 ≤ toReal (stepRatio step) :=
  le_trans (by simp) (stepRatio_bounds hs).2

/-- Bin prices never fall as the bin grows, over every 32-bit bin, overflows to `+∞` and to `+0`
included. -/
theorem priceAt_le_of_le (hs : step ≠ 0) (h : b₁ ≤ b₂) :
    priceAt b₁ step dx dy ≤ priceAt b₂ step dx dy := by
  have hρf := (stepRatio_bounds hs).1
  have hρ1 := one_le_stepRatio hs
  obtain ⟨hDf, hD0⟩ := decimalsFactor_pos dx dy
  have hR : powInt (stepRatio step) b₁ ≤ powInt (stepRatio step) b₂ := by
    rcases Int32.le_iff_lt_or_eq.mp h with hlt | rfl
    · exact (powInt_le_of_lt hρf hρ1 (log_stepRatio_ge hs) hlt).1
    · exact le_refl_of_not_isNaN (powInt_approx hρf hρ1 b₁).zero_le.1
  exact mul_le_mul_of_pos ((zero_lt_iff hDf).mpr hD0) hDf hR

/-- Bin prices rise strictly from a bin whose price is a normal float to any higher bin whose price
is finite: the growth factor per bin outweighs the roundings of the powering and of the product. -/
theorem priceAt_lt_of_lt (hs : step ≠ 0) (h : b₁ < b₂)
    (hf₂ : (priceAt b₂ step dx dy).isFinite = true)
    (hlow : 2 ^ (-1022 : ℤ) ≤ toReal (priceAt b₁ step dx dy)) :
    priceAt b₁ step dx dy < priceAt b₂ step dx dy := by
  have hρf := (stepRatio_bounds hs).1
  have hρ1 := one_le_stepRatio hs
  obtain ⟨hDf, hD0⟩ := decimalsFactor_pos dx dy
  have hpos₁ : 0 < toReal (priceAt b₁ step dx dy) := (zpow_pos two_pos _).trans_le hlow
  have hf₁ := isFinite_of_toReal_pos hpos₁
  have hpos₂ : 0 < toReal (priceAt b₂ step dx dy) :=
    hpos₁.trans_le (toReal_le_of_le hf₁ hf₂ (priceAt_le_of_le hs (Int32.le_iff_toInt_le.mpr (Int32.lt_iff_toInt_lt.mp h).le)))
  unfold priceAt at *
  set R₁ := powInt (stepRatio step) b₁
  set R₂ := powInt (stepRatio step) b₂
  set D := decimalsFactor dx dy
  obtain ⟨hR₁f, hR₁low, -⟩ := (powInt_approx hρf hρ1 b₁).finite_of_mul hf₁ hpos₁
  obtain ⟨hR₂f, hR₂low, -⟩ := (powInt_approx hρf hρ1 b₂).finite_of_mul hf₂ hpos₂
  have hR₁0 : 0 < toReal R₁ := (zpow_pos two_pos _).trans_le hR₁low
  have hR₂0 : 0 < toReal R₂ := (zpow_pos two_pos _).trans_le hR₂low
  have hgap := (powInt_le_of_lt hρf hρ1 (log_stepRatio_ge hs) h).2 hR₁f hR₁0 hR₂f
  -- each price is the rounded exact product, within `2^-49` of it in the logarithm
  have hP₁ : toReal (R₁ * D) = nearest (toReal R₁ * toReal D) :=
    toReal_eq_nearest hf₁ (mul_value hR₁f hDf).2 (by positivity)
  have hP₂ : toReal (R₂ * D) = nearest (toReal R₂ * toReal D) :=
    toReal_eq_nearest hf₂ (mul_value hR₂f hDf).2 (by positivity)
  have hx₁ : 2 ^ (-1025 : ℤ) ≤ toReal R₁ * toReal D := two_zpow_le_of_le_nearest (hP₁ ▸ hlow)
  have hR : toReal R₁ ≤ toReal R₂ :=
    (Real.log_le_log_iff hR₁0 hR₂0).mp (by linarith [zpow_pos (two_pos (α := ℝ)) (-16)])
  have hx₂ : 2 ^ (-1025 : ℤ) ≤ toReal R₂ * toReal D :=
    hx₁.trans (mul_le_mul_of_nonneg_right hR hD0.le)
  have herr₁ := abs_log_nearest_sub_le hx₁
  have herr₂ := abs_log_nearest_sub_le hx₂
  rw [← hP₁, Real.log_mul hR₁0.ne' hD0.ne'] at herr₁
  rw [← hP₂, Real.log_mul hR₂0.ne' hD0.ne'] at herr₂
  have h49 : (2 : ℝ) * 2 ^ (-49 : ℤ) < 2 ^ (-16 : ℤ) := by norm_num
  have hlog : Real.log (toReal (R₁ * D)) < Real.log (toReal (R₂ * D)) := by
    rw [abs_le] at herr₁ herr₂
    linarith [herr₁.2, herr₂.1]
  exact lt_of_toReal_lt hf₁ hf₂ ((Real.log_lt_log_iff hpos₁ hpos₂).mp hlog)

end Bins

/-! ### The prices of a range -/

/-- The middle bin taken in 32-bit arithmetic, `lower + (upper - lower)/2`, is `⌊(lower + upper)/2⌋`
when the width of the range fits in 32 bits. -/
theorem PriceRange.toInt_middle {lower upper : Int32} (h : lower.toInt ≤ upper.toInt)
    (hw : upper.toInt - lower.toInt ≤ Saturating.hi) :
    (lower + (upper - lower) / 2).toInt = (lower.toInt + upper.toInt) / 2 := by
  have hl := Saturating.lo_le_toInt lower
  have hu := Saturating.toInt_le_hi upper
  simp only [Saturating.lo, Saturating.hi] at hl hu hw
  have hsub : (upper - lower).toInt = upper.toInt - lower.toInt := by
    rw [Int32.toInt_sub]
    exact Int.bmod_eq_of_le (by omega) (by omega)
  have hdiv : ((upper - lower) / 2).toInt = (upper.toInt - lower.toInt) / 2 := by
    rw [Int32.toInt_div, hsub, show (2 : Int32).toInt = 2 by decide,
      Int.tdiv_eq_ediv_of_nonneg (by omega)]
    exact Int.bmod_eq_of_le (by omega) (by omega)
  rw [Saturating.toInt_wrapping_add (by rw [hdiv]; simp only [Saturating.lo]; omega)
    (by rw [hdiv]; simp only [Saturating.hi]; omega), hdiv]
  omega

namespace Bins

/-- For a step of at least one basis point and any decimals, bin prices never fall as the bin grows,
over all 32-bit bins and through overflow to `+∞` or `+0`; they rise strictly from a bin whose price
is a normal float to any higher bin whose price is finite; and a range whose width fits in 32 bits
is priced at its middle bin `⌊(lower + upper)/2⌋`, between the prices of its edges. -/
theorem priceAt_increasing (step : UInt16) (dx dy : UInt8) (hs : step ≠ 0) :
    (∀ b₁ b₂ : Int32, b₁ ≤ b₂ → priceAt b₁ step dx dy ≤ priceAt b₂ step dx dy) ∧
    (∀ b₁ b₂ : Int32, b₁ < b₂ → (priceAt b₂ step dx dy).isFinite = true →
      2 ^ (-1022 : ℤ) ≤ toReal (priceAt b₁ step dx dy) →
      priceAt b₁ step dx dy < priceAt b₂ step dx dy) ∧
    (∀ lower upper : Int32, lower ≤ upper → upper.toInt - lower.toInt ≤ Saturating.hi →
      (PriceRange.ofBins lower upper step dx dy).center =
          priceAt (Int32.ofInt ((lower.toInt + upper.toInt) / 2)) step dx dy ∧
        (PriceRange.ofBins lower upper step dx dy).min ≤
          (PriceRange.ofBins lower upper step dx dy).center ∧
        (PriceRange.ofBins lower upper step dx dy).center ≤
          (PriceRange.ofBins lower upper step dx dy).max) := by
  refine ⟨fun _ _ => priceAt_le_of_le hs, fun _ _ h hf₂ hlow => priceAt_lt_of_lt hs h hf₂ hlow,
    fun lower upper hle hw => ?_⟩
  have hle' := Int32.le_iff_toInt_le.mp hle
  have hmid := PriceRange.toInt_middle hle' hw
  have hl := Saturating.lo_le_toInt lower
  have hu := Saturating.toInt_le_hi upper
  simp only [Saturating.lo, Saturating.hi] at hl hu
  -- the middle bin as the program computes it is the floor of the mean
  have hmid' : lower + (upper - lower) / 2 = Int32.ofInt ((lower.toInt + upper.toInt) / 2) := by
    rw [← Int32.toInt_inj, hmid, Int32.toInt_ofInt_of_le (by omega) (by omega)]
  refine ⟨by rw [← hmid']; rfl, ?_, ?_⟩
  · exact priceAt_le_of_le hs (Int32.le_iff_toInt_le.mpr (by rw [hmid]; omega))
  · exact priceAt_le_of_le hs (Int32.le_iff_toInt_le.mpr (by rw [hmid]; omega))

/-- At a step of one basis point and six decimals on each side, the range from bin `-3` to bin `4`
is priced at bin `0`, between its edges. -/
theorem priceAt_increasing_step_one :
    (1 : UInt16) ≠ 0 ∧
      (PriceRange.ofBins (-3) 4 1 6 6).center =
          priceAt (Int32.ofInt (((-3 : Int32).toInt + (4 : Int32).toInt) / 2)) 1 6 6 ∧
        (PriceRange.ofBins (-3) 4 1 6 6).min ≤ (PriceRange.ofBins (-3) 4 1 6 6).center ∧
        (PriceRange.ofBins (-3) 4 1 6 6).center ≤ (PriceRange.ofBins (-3) 4 1 6 6).max :=
  ⟨by decide, (priceAt_increasing 1 6 6 (by decide)).2.2 (-3) 4 (by decide) (by decide)⟩

end Bins

end RangeAdvisor
