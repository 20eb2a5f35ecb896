import RangeAdvisor.Proofs.Power
import RangeAdvisor.Proofs.Float.Log
import RangeAdvisor.Proofs.Float.Floor

/-!
# The bin lookup inverts the bin price

`priceAt b` is `ρ^b · 10^(dx - dy)` in floats, `ρ` the growth factor of the step, and the lookup
divides the factor `10^(dx - dy)` back out, takes the ratio of its logarithm to that of `ρ`, and
rounds it half away from zero. Under any faithful logarithm the lookup gives `b` back for every
bin whose price is finite and at least the least normal float (`binForWith_inverts_priceAt`).

The error budget, in the logarithm, with `2^-49` per rounding of a value of at least `2^-1025`:
`ρ^b` is within `(|b| + 1) 2^-49` of `b log ρ` (`powInt_approx`); the product by `10^(dx - dy)`
and the quotient by it again add `2^-48` (`mul_div_approx`); the price is below `2^1024`, so
`|b| ≤ 2^25` (`abs_bin_le`); the two logarithms add `2^-43` and a relative `2^-52`; and since
`log ρ ≥ 2^-15` for a step of at least one basis point, the ratio is within `1/16` of `b`
(`abs_ratio_sub_le`). The last rounding moves it by at most `2^-28`, far below the half that
would change the bin.
-/

set_option autoImplicit false

open Float.Model Float.Model.UnpackedFloat

namespace RangeAdvisor.Bins

open Binary64 Unpacked Rounding

/-! ### The constants of the model -/

section Constants

theorem value_of_unpack {x : Float} {m : ℕ} {e : ℤ} {hm : 0 < m}
    (h : x.toModel.unpack = .finite .positive m e hm) :
    x.isFinite = true ∧ toReal x = m * 2 ^ e := by
  refine ⟨?_, by rw [toReal, h]; rfl⟩
  show x.toModel.unpack.isFinite = true
  rw [h]
  rfl

theorem oneLit_value : (1.0 : Float).isFinite = true ∧ toReal 1.0 = 1 := by
  have hu : (1.0 : Float).toModel.unpack = .finite .positive (2 ^ 52) (-52) (by decide) := by rfl
  refine (value_of_unpack hu).imp_right fun h => h.trans ?_
  rw [zpow_neg, zpow_ofNat]
  norm_num

theorem tenLit_value : (10.0 : Float).isFinite = true ∧ toReal 10.0 = 10 := by
  have hu : (10.0 : Float).toModel.unpack = .finite .positive (10 * 2 ^ 49) (-49) (by decide) := by
    rfl
  refine (value_of_unpack hu).imp_right fun h => h.trans ?_
  rw [zpow_neg, zpow_ofNat]
  norm_num

theorem tenThousandLit_value : (10000.0 : Float).isFinite = true ∧ toReal 10000.0 = 10000 := by
  have hu : (10000.0 : Float).toModel.unpack =
      .finite .positive (10000 * 2 ^ 39) (-39) (by decide) := by
    rfl
  refine (value_of_unpack hu).imp_right fun h => h.trans ?_
  rw [zpow_neg, zpow_ofNat]
  norm_num

/-- A rounding of a value from zero to a natural number below `2^53` does not overflow. -/
theorem abs_nearest_lt_overflow {z : ℝ} {n : ℕ} (hz : 0 ≤ z) (hzn : z ≤ n) (hn : n < 2 ^ 53) :
    |nearest z| < overflow := by
  rw [abs_of_nonneg (nearest_nonneg hz), overflow]
  calc nearest z ≤ nearest n := nearest_mono hzn
    _ = n := nearest_natCast hn
    _ < 2 ^ 53 := by exact_mod_cast hn
    _ ≤ 2 ^ 1024 := pow_le_pow_right₀ one_le_two (by norm_num)

end Constants

/-! ### The growth factor -/

section StepRatio

variable {step : UInt16}

/-- The growth factor of a nonzero step is finite and at least `1 + 2^-14`: a basis point,
`10^-4`, is above `2^-14`, and each rounding on the way keeps that bound. -/
theorem stepRatio_bounds (hs : step ≠ 0) :
    (stepRatio step).isFinite = true ∧ 1 + 2 ^ (-14 : ℤ) ≤ toReal (stepRatio step) := by
  have hs1 : 1 ≤ step.toNat := Nat.one_le_iff_ne_zero.mpr fun h => hs (UInt16.toNat_inj.mp h)
  have hs2 : step.toNat < 2 ^ 16 := step.toNat_lt_size
  obtain ⟨hnf, hnv⟩ := ofNat_value (n := step.toNat) (by omega)
  obtain ⟨htf, htv⟩ := tenThousandLit_value
  obtain ⟨hof, hov⟩ := oneLit_value
  -- the quotient `step / 10⁴`, from `2^-14` to `7`
  have hqlo : (2 : ℝ) ^ (-14 : ℤ) ≤ step.toNat / 10000 := by
    rw [le_div_iff₀ (by norm_num), zpow_neg, zpow_ofNat]
    have : (1 : ℝ) ≤ step.toNat := by exact_mod_cast hs1
    linarith
  have hqhi : (step.toNat : ℝ) / 10000 ≤ (7 : ℕ) := by
    rw [div_le_iff₀ (by norm_num)]
    have : (step.toNat : ℝ) < 2 ^ 16 := by exact_mod_cast hs2
    push_cast
    linarith
  obtain ⟨hqnan, hqval⟩ := div_value hnf htf (by rw [htv]; norm_num)
  rw [hnv, htv] at hqval
  obtain ⟨hqf, hqr⟩ := isFinite_of_value_eq hqnan hqval
    (abs_nearest_lt_overflow (by positivity) hqhi (by norm_num))
  have hnq : (2 : ℝ) ^ (-14 : ℤ) ≤ nearest (step.toNat / 10000) := by
    rw [← nearest_two_zpow (by norm_num)]
    exact nearest_mono hqlo
  have hnq7 : nearest ((step.toNat : ℝ) / 10000) ≤ 7 :=
    (nearest_mono hqhi).trans (nearest_natCast (by norm_num)).le
  -- one plus the quotient, from `1 + 2^-14` to `8`
  obtain ⟨hrnan, hrval⟩ := add_value hof hqf
  rw [hov, hqr] at hrval
  obtain ⟨hrf, hrr⟩ := isFinite_of_value_eq hrnan hrval
    (abs_nearest_lt_overflow (n := 8) (by positivity) (by push_cast; linarith) (by norm_num))
  refine ⟨hrf, ?_⟩
  rw [stepRatio, hrr]
  -- `1 + 2^-14 = (2^14 + 1) · 2^-14` has 15 bits and is kept
  have hkept : nearest (1 + 2 ^ (-14 : ℤ)) = 1 + 2 ^ (-14 : ℤ) := by
    have hint : (1 : ℝ) + 2 ^ (-14 : ℤ) = ((2 ^ 14 + 1 : ℤ) : ℝ) * 2 ^ (-14 : ℤ) := by
      push_cast
      rw [zpow_neg, zpow_ofNat]
      norm_num
    have hsmall : |(1 : ℝ) + 2 ^ (-14 : ℤ)| < 2 ^ (1 : ℤ) := by
      rw [abs_of_pos (by positivity), zpow_neg, zpow_ofNat]
      norm_num
    have hq := quantum_le_of_abs_lt le_rfl hsmall
    rw [hint]
    apply nearest_intCast_mul_zpow
    rw [← hint]
    omega
  calc 1 + 2 ^ (-14 : ℤ) = nearest (1 + 2 ^ (-14 : ℤ)) := hkept.symm
    _ ≤ nearest (1 + nearest (step.toNat / 10000)) := nearest_mono (by linarith)

theorem stepRatio_pos (hs : step ≠ 0) : 0 < toReal (stepRatio step) := by
  have h := (stepRatio_bounds hs).2
  have : (0 : ℝ) < 2 ^ (-14 : ℤ) := by positivity
  linarith

/-- The logarithm of the growth factor is at least `2^-15`. -/
theorem log_stepRatio_ge (hs : step ≠ 0) : 2 ^ (-15 : ℤ) ≤ Real.log (toReal (stepRatio step)) := by
  have h := (stepRatio_bounds hs).2
  have hpos := stepRatio_pos hs
  calc (2 : ℝ) ^ (-15 : ℤ) ≤ 1 - (1 + 2 ^ (-14 : ℤ))⁻¹ := by norm_num
    _ ≤ 1 - (toReal (stepRatio step))⁻¹ := by gcongr
    _ ≤ Real.log (toReal (stepRatio step)) := Real.one_sub_inv_le_log_of_pos hpos

/-- A faithful logarithm of the growth factor is finite, within a relative `2^-52` of the real
one, and above zero. -/
theorem faithfulLog_stepRatio {ln : Float → Float} (hln : FaithfulLog ln) (hs : step ≠ 0) :
    (ln (stepRatio step)).isFinite = true ∧
      |toReal (ln (stepRatio step)) - Real.log (toReal (stepRatio step))| ≤
        2 ^ (-52 : ℤ) * Real.log (toReal (stepRatio step)) ∧
      0 < toReal (ln (stepRatio step)) := by
  have hρf := (stepRatio_bounds hs).1
  have hρ0 := stepRatio_pos hs
  have hL := log_stepRatio_ge hs
  have hL0 : 0 < Real.log (toReal (stepRatio step)) := lt_of_lt_of_le (zpow_pos two_pos _) hL
  have hlρ := hln.abs_sub_le_mul hρf hρ0 (by
    rw [abs_of_pos hL0]
    exact le_trans (zpow_le_zpow_right₀ one_le_two (by norm_num)) hL)
  rw [abs_of_pos hL0] at hlρ
  refine ⟨(hln.finite hρf hρ0).1, hlρ, ?_⟩
  have hlo := (abs_le.mp hlρ).1
  rw [show (2 : ℝ) ^ (-52 : ℤ) = 1 / 2 ^ 52 by norm_num] at hlo
  linarith

end StepRatio

/-! ### The price and the raw price -/

section Price

/-- `10^(dx - dy)` by binary powering is `+∞`, `+0` or a finite float near the exact power. -/
theorem decimalsFactor_approx (dx dy : UInt8) :
    PowApprox (decimalsFactor dx dy)
      ((Int32.ofInt ((dx.toNat : ℤ) - dy.toNat)).toInt * Real.log 10)
      ((|((Int32.ofInt ((dx.toNat : ℤ) - dy.toNat)).toInt : ℝ)| + 1) * 2 ^ (-49 : ℤ)) := by
  have h := powInt_approx tenLit_value.1 (by rw [tenLit_value.2]; norm_num)
    (Int32.ofInt ((dx.toNat : ℤ) - dy.toNat))
  rwa [tenLit_value.2] at h

/-- A real whose rounding is at least `2^-1022` is at least `2^-1025`: below, it would round to
at most `2^-1025`. -/
theorem two_zpow_le_of_le_nearest {z : ℝ} (h : 2 ^ (-1022 : ℤ) ≤ nearest z) :
    2 ^ (-1025 : ℤ) ≤ z := by
  by_contra hlt
  have hround : nearest z ≤ 2 ^ (-1025 : ℤ) := by
    rw [← nearest_two_zpow (by norm_num)]
    exact nearest_mono (le_of_lt (not_le.mp hlt))
  have : (2 : ℝ) ^ (-1025 : ℤ) < 2 ^ (-1022 : ℤ) := zpow_lt_zpow_right₀ one_lt_two (by norm_num)
  linarith

variable {r d : Float}

/-- A product of finite floats above zero is at most `maxFinite` times the second factor: the
first is at most `maxFinite`, and `maxFinite` times a float never rounds up. -/
theorem toReal_mul_le (hr : r.isFinite = true) (hr0 : 0 < toReal r) (hd : d.isFinite = true)
    (hd0 : 0 < toReal d) (hp : (r * d).isFinite = true) :
    toReal (r * d) ≤ maxFinite * toReal d := by
  obtain ⟨M, f, hM, hdu, hM53, hf, -⟩ := parts_of_pos hd hd0
  have hD : toReal d = M * 2 ^ f := (value_of_unpack hdu).2
  obtain ⟨-, hval⟩ := mul_value hr hd
  rw [toReal_eq_nearest hp hval (by positivity)]
  calc nearest (toReal r * toReal d) ≤ nearest (maxFinite * toReal d) :=
        nearest_mono (mul_le_mul_of_nonneg_right (toReal_le_maxFinite hr) hd0.le)
    _ ≤ maxFinite * toReal d := by
        rw [hD]
        exact nearest_maxFinite_mul_le hM hM53 hf

/-- Dividing a rounded product back by its second factor: when `r · d` is a finite float of at
least `2^-1022`, the quotient is finite, from `2^-1025` to `maxFinite`, and within `2^-48` of `r`
in the logarithm, two roundings of at most `2^-49` each. -/
theorem mul_div_approx (hr : r.isFinite = true) (hr0 : 2 ^ (-1024 : ℤ) ≤ toReal r)
    (hd : d.isFinite = true) (hd0 : 0 < toReal d) (hp : (r * d).isFinite = true)
    (hp0 : 2 ^ (-1022 : ℤ) ≤ toReal (r * d)) :
    (r * d / d).isFinite = true ∧ 2 ^ (-1025 : ℤ) ≤ toReal (r * d / d) ∧
      toReal (r * d / d) ≤ maxFinite ∧
      |Real.log (toReal (r * d / d)) - Real.log (toReal r)| ≤ 2 ^ (-48 : ℤ) := by
  have hR : 0 < toReal r := lt_of_lt_of_le (by positivity) hr0
  obtain ⟨-, hval⟩ := mul_value hr hd
  have hP : toReal (r * d) = nearest (toReal r * toReal d) :=
    toReal_eq_nearest hp hval (by positivity)
  have hRD : 2 ^ (-1025 : ℤ) ≤ toReal r * toReal d := two_zpow_le_of_le_nearest (hP ▸ hp0)
  -- the exact quotient is from `2^-1025` to `maxFinite`
  have hhi : toReal (r * d) / toReal d ≤ maxFinite := by
    rw [div_le_iff₀ hd0]
    exact toReal_mul_le hr hR hd hd0 hp
  have hlo : 2 ^ (-1025 : ℤ) ≤ toReal (r * d) / toReal d := by
    have herr := (abs_le.mp (abs_nearest_sub_le_of_le hRD)).1
    have hr1 : 2 ^ (-1025 : ℤ) ≤ toReal r * (1 - 2 ^ (-50 : ℤ)) := by
      have h50 : (2 : ℝ) ^ (-50 : ℤ) ≤ 1 / 2 := by norm_num
      have h1025 : (2 : ℝ) ^ (-1025 : ℤ) = 2 ^ (-1024 : ℤ) * (1 / 2) := by
        rw [one_div, ← zpow_neg_one, ← zpow_add₀ two_ne_zero]
        norm_num
      rw [h1025]
      exact mul_le_mul hr0 (by linarith) (by norm_num) hR.le
    rw [le_div_iff₀ hd0, hP]
    nlinarith
  obtain ⟨hqnan, hqval⟩ := div_value hp hd hd0.ne'
  have hnear : nearest (toReal (r * d) / toReal d) ≤ maxFinite :=
    (nearest_mono hhi).trans_eq nearest_maxFinite
  obtain ⟨hqf, hqr⟩ := isFinite_of_value_eq hqnan hqval
    (by
      rw [abs_of_nonneg (nearest_nonneg ((zpow_pos two_pos _).le.trans hlo))]
      exact hnear.trans_lt maxFinite_lt_overflow)
  refine ⟨hqf, ?_, hqr ▸ hnear, ?_⟩
  · rw [hqr, ← nearest_two_zpow (by norm_num)]
    exact nearest_mono hlo
  · -- one rounding in the quotient and one in the product
    have hquo := abs_log_nearest_sub_le hlo
    have hprod := abs_log_nearest_sub_le hRD
    have hsplit : Real.log (toReal (r * d) / toReal d) - Real.log (toReal r) =
        Real.log (nearest (toReal r * toReal d)) - Real.log (toReal r * toReal d) := by
      rw [Real.log_div (lt_of_lt_of_le (zpow_pos two_pos _) hp0).ne' hd0.ne', hP,
        Real.log_mul hR.ne' hd0.ne']
      ring
    rw [hqr]
    calc |Real.log (nearest (toReal (r * d) / toReal d)) - Real.log (toReal r)|
        = |(Real.log (nearest (toReal (r * d) / toReal d)) - Real.log (toReal (r * d) / toReal d))
            + (Real.log (toReal (r * d) / toReal d) - Real.log (toReal r))| := by ring_nf
      _ ≤ |Real.log (nearest (toReal (r * d) / toReal d)) - Real.log (toReal (r * d) / toReal d)|
            + |Real.log (toReal (r * d) / toReal d) - Real.log (toReal r)| := abs_add_le _ _
      _ ≤ 2 ^ (-49 : ℤ) + 2 ^ (-49 : ℤ) := by
          rw [hsplit]
          exact add_le_add hquo hprod
      _ = 2 ^ (-48 : ℤ) := by norm_num

end Price

/-! ### The error budget -/

section Budget

variable {b : ℤ} {L A G : ℝ}

/-- A value from `2^-1025` to `maxFinite` has a logarithm of at most `711` in size. -/
theorem abs_log_le_of_mem {x : ℝ} (hlo : 2 ^ (-1025 : ℤ) ≤ x) (hhi : x ≤ maxFinite) :
    |Real.log x| ≤ 711 := by
  have hx : 0 < x := lt_of_lt_of_le (by positivity) hlo
  have hlog2 := Real.log_two_lt_d9
  have hlog2' : 0 < Real.log 2 := Real.log_pos one_lt_two
  rw [abs_le]
  constructor
  · calc (-711 : ℝ) ≤ -1025 * Real.log 2 := by linarith
      _ = Real.log (2 ^ (-1025 : ℤ)) := by rw [Real.log_zpow]; push_cast; ring
      _ ≤ Real.log x := Real.log_le_log (by positivity) hlo
  · calc Real.log x ≤ Real.log (2 ^ 1024) :=
          Real.log_le_log hx (hhi.trans maxFinite_lt_overflow.le)
      _ = 1024 * Real.log 2 := by rw [Real.log_pow]; norm_num
      _ ≤ 711 := by linarith

/-- The bin of a price below `2^1024` is at most `2^25` in size: `|b| log ρ` is within a few
roundings of the logarithm of the raw price, at most `711`, and `log ρ ≥ 2^-15`. -/
theorem abs_bin_le (hL : 2 ^ (-15 : ℤ) ≤ L) (hA : |A - b * L| ≤ (|(b : ℝ)| + 1) * 2 ^ (-49 : ℤ))
    (hGA : |G - A| ≤ 2 ^ (-48 : ℤ)) (hG : |G| ≤ 711) : |(b : ℝ)| ≤ 2 ^ 25 := by
  have hL0 : 0 < L := lt_of_lt_of_le (by positivity) hL
  -- `b L = G - (G - A) - (A - b L)`
  have htri : |(b : ℝ)| * L ≤ |G| + |G - A| + |A - b * L| := by
    calc |(b : ℝ)| * L = |G - (G - A) - (A - b * L)| := by
          rw [← abs_of_pos hL0, ← abs_mul, abs_of_pos hL0]
          congr 1
          ring
      _ ≤ |G - (G - A)| + |A - b * L| := abs_sub _ _
      _ ≤ |G| + |G - A| + |A - b * L| := by gcongr; exact abs_sub _ _
  rw [show (2 : ℝ) ^ (-15 : ℤ) = 1 / 2 ^ 15 by norm_num] at hL
  rw [show (2 : ℝ) ^ (-48 : ℤ) = 1 / 2 ^ 48 by norm_num] at hGA
  rw [show (2 : ℝ) ^ (-49 : ℤ) = 1 / 2 ^ 49 by norm_num] at hA
  have hbL : |(b : ℝ)| * (1 / 2 ^ 15) ≤ |(b : ℝ)| * L := mul_le_mul_of_nonneg_left hL (abs_nonneg _)
  linarith

/-- The float logarithm of the raw price is within `2^-23` of `b L`: `2^-43` for the float
logarithm, `2^-48` for the product and the quotient by the decimals, `(|b| + 1) 2^-49` for the
power. -/
theorem abs_numerator_le {lr : ℝ} (hb : |(b : ℝ)| ≤ 2 ^ 25) (hlr : |lr - G| ≤ 2 ^ (-43 : ℤ))
    (hGA : |G - A| ≤ 2 ^ (-48 : ℤ)) (hA : |A - b * L| ≤ (|(b : ℝ)| + 1) * 2 ^ (-49 : ℤ)) :
    |lr - b * L| ≤ 2 ^ (-23 : ℤ) := by
  have htri : |lr - b * L| ≤ |lr - G| + (|G - A| + |A - b * L|) :=
    calc |lr - b * L| ≤ |lr - G| + |G - b * L| := abs_sub_le _ _ _
      _ ≤ |lr - G| + (|G - A| + |A - b * L|) := by gcongr; exact abs_sub_le _ _ _
  rw [show (2 : ℝ) ^ (-43 : ℤ) = 1 / 2 ^ 43 by norm_num] at hlr
  rw [show (2 : ℝ) ^ (-48 : ℤ) = 1 / 2 ^ 48 by norm_num] at hGA
  rw [show (2 : ℝ) ^ (-49 : ℤ) = 1 / 2 ^ 49 by norm_num] at hA
  rw [show (2 : ℝ) ^ (-23 : ℤ) = 1 / 2 ^ 23 by norm_num]
  linarith

/-- The ratio of the two float logarithms is within `1/16` of the bin: the numerator is within
`2^-23` of `b L`, the denominator within a relative `2^-52` of `L ≥ 2^-15`. -/
theorem abs_ratio_sub_le {lr lρ : ℝ} (hL : 2 ^ (-15 : ℤ) ≤ L) (hb : |(b : ℝ)| ≤ 2 ^ 25)
    (hlr : |lr - b * L| ≤ 2 ^ (-23 : ℤ)) (hlρ : |lρ - L| ≤ 2 ^ (-52 : ℤ) * L) :
    |lr / lρ - b| ≤ 1 / 16 := by
  rw [show (2 : ℝ) ^ (-15 : ℤ) = 1 / 2 ^ 15 by norm_num] at hL
  rw [show (2 : ℝ) ^ (-23 : ℤ) = 1 / 2 ^ 23 by norm_num] at hlr
  rw [show (2 : ℝ) ^ (-52 : ℤ) = 1 / 2 ^ 52 by norm_num] at hlρ
  have hL0 : 0 < L := lt_of_lt_of_le (by positivity) hL
  have hlρpos : L / 2 ≤ lρ := by
    have := (abs_le.mp hlρ).1
    linarith
  -- `lr - b lρ = (lr - b L) - b (lρ - L)`
  have hnum : |lr - b * lρ| ≤ 1 / 2 ^ 23 + 2 ^ 25 * (1 / 2 ^ 52 * L) := by
    calc |lr - b * lρ| = |(lr - b * L) - b * (lρ - L)| := by ring_nf
      _ ≤ |lr - b * L| + |(b : ℝ)| * |lρ - L| := by
          rw [← abs_mul]
          exact abs_sub _ _
      _ ≤ 1 / 2 ^ 23 + 2 ^ 25 * (1 / 2 ^ 52 * L) :=
          add_le_add hlr (mul_le_mul hb hlρ (abs_nonneg _) (by positivity))
  have hpos : 0 < lρ := by linarith
  have hdiv : lr / lρ - b = (lr - b * lρ) / lρ := by field_simp
  rw [hdiv, abs_div, abs_of_pos hpos, div_le_iff₀ hpos]
  linarith

/-- A real within `1/16` of a bin of at most `2^25` in size rounds to within `1/2` of it: its
last place is at most `2^-27`. -/
theorem abs_nearest_sub_lt {z : ℝ} (hb : |(b : ℝ)| ≤ 2 ^ 25) (hz : |z - b| ≤ 1 / 16) :
    |nearest z - b| < 1 / 2 := by
  have hzsize : |z| < 2 ^ (26 : ℤ) := by
    have := abs_sub_abs_le_abs_sub z b
    rw [zpow_ofNat]
    linarith
  have hq : quantum z ≤ 26 - 53 := quantum_le_of_abs_lt (by norm_num) hzsize
  have herr : |nearest z - z| ≤ 1 / 4 := by
    calc |nearest z - z| ≤ 2 ^ (quantum z - 1) := abs_nearest_sub_le z
      _ ≤ 2 ^ (-28 : ℤ) := zpow_le_zpow_right₀ one_le_two (by omega)
      _ ≤ 1 / 4 := by norm_num
  calc |nearest z - b| = |(nearest z - z) + (z - b)| := by ring_nf
    _ ≤ |nearest z - z| + |z - b| := abs_add_le _ _
    _ < 1 / 2 := by linarith

end Budget

/-! ### What the lookup reads -/

section Lookup

/-- The parts of a finite float round to the integer nearest its value, a tie away from zero. -/
theorem roundOf_ofFloat {q : Float} (hq : q.isFinite = true) :
    ∃ neg m e, Binary64.ofFloat q = .finite neg m e ∧
      Binary64.roundOf neg m e = roundAway (toReal q) := by
  have hf : q.toModel.unpack.isFinite = true := hq
  rw [Saturating.ofFloat_eq_parts, toReal]
  generalize q.toModel.unpack = u at hf ⊢
  cases u with
  | zero s =>
    refine ⟨_, _, _, rfl, ?_⟩
    rw [Binary64.roundOf_parts, Nat.cast_zero, zero_mul]
    cases s <;> simp [signed, real]
  | finite s m e hm => exact ⟨_, _, _, rfl, Binary64.roundOf_parts s m e⟩
  | _ => cases hf

/-- A float neither NaN nor finite reads as an infinity. -/
theorem ofFloat_of_not_isFinite {q : Float} (hnan : q.isNaN = false) (hq : q.isFinite = false) :
    ∃ neg, Binary64.ofFloat q = .inf neg := by
  rw [isNaN_eq_false_iff] at hnan
  have hf : q.toModel.unpack.isFinite = false := hq
  rw [Saturating.ofFloat_eq_parts]
  rcases kind_cases hnan with h | h | h
  · exact ⟨_, by rw [h]; rfl⟩
  · exact ⟨_, by rw [h]; rfl⟩
  · rw [h] at hf
    cases hf

/-- Within the 32-bit range the wrapping conversion is exact. -/
theorem toInt_ofInt_of_mem {k : ℤ} (h₁ : Saturating.lo ≤ k) (h₂ : k ≤ Saturating.hi) :
    (Int32.ofInt k).toInt = k := by
  have hsat : Saturating.ofInt k = Int32.ofInt k := by
    rw [Saturating.ofInt, min_eq_left h₂, max_eq_right h₁]
  rw [← hsat, Saturating.toInt_ofInt_of_mem h₁ h₂]

theorem zero_lt_iff {x : Float} (hx : x.isFinite = true) : (0 : Float) < x ↔ 0 < toReal x := by
  rw [lt_iff, value, unpack_zero, value_of_isFinite hx]
  constructor
  · rintro ⟨-, -, h⟩
    exact EReal.coe_lt_coe_iff.mp h
  · intro h
    exact ⟨rfl, isNaN_eq_false_of_isFinite hx, EReal.coe_lt_coe_iff.mpr h⟩

variable {ln : Float → Float} {price : Float} {step : UInt16} {dx dy : UInt8}

/-- A price that is not finite or not above zero, or a zero step, is refused. -/
theorem binForWith_of_invalid (h : price.isFinite = false ∨ toReal price ≤ 0 ∨ step = 0) :
    binForWith ln price step dx dy = none := by
  unfold binForWith
  rw [if_pos]
  rcases h with hf | hneg | hs
  · simp [hf]
  · by_cases hf : price.isFinite = true
    · have hnot : ¬ (0 : Float) < price := fun hlt => absurd ((zero_lt_iff hf).mp hlt) (not_lt.mpr hneg)
      simp [hf, hnot]
    · simp [hf]
  · simp [hs]

/-- A result means a finite price above zero and a nonzero step. -/
theorem valid_of_binForWith_eq_some {id : Int32} (h : binForWith ln price step dx dy = some id) :
    price.isFinite = true ∧ 0 < toReal price ∧ step ≠ 0 := by
  by_contra hinvalid
  have hnone : binForWith ln price step dx dy = none := by
    apply binForWith_of_invalid
    by_cases hf : price.isFinite = true
    · by_cases hpos : 0 < toReal price
      · exact .inr (.inr (not_not.mp fun hs => hinvalid ⟨hf, hpos, hs⟩))
      · exact .inr (.inl (not_lt.mp hpos))
    · exact .inl (Bool.not_eq_true _ ▸ hf)
  rw [hnone] at h
  cases h

/-- On a finite price above zero with a nonzero step, with a log ratio that is not NaN, the lookup
returns `id` exactly when the ratio is finite and rounds half away from zero to `id`. -/
theorem binForWith_eq_some_iff (hp : price.isFinite = true) (hpos : 0 < toReal price)
    (hs : step ≠ 0) (hq : (logRatio ln price step dx dy).isNaN = false) {id : Int32} :
    binForWith ln price step dx dy = some id ↔
      (logRatio ln price step dx dy).isFinite = true ∧
        roundAway (toReal (logRatio ln price step dx dy)) = id.toInt := by
  have hgt : (0 : Float) < price := (zero_lt_iff hp).mpr hpos
  unfold binForWith
  rw [if_neg (by simp [hp, hgt, hs])]
  by_cases hfin : (logRatio ln price step dx dy).isFinite = true
  · obtain ⟨neg, m, e, hparts, hround⟩ := roundOf_ofFloat hfin
    rw [hparts]
    dsimp only
    rw [hround]
    constructor
    · intro h
      split at h
      · rename_i hmem
        cases h
        exact ⟨hfin, (toInt_ofInt_of_mem hmem.1 hmem.2).symm⟩
      · cases h
    · rintro ⟨-, hk⟩
      rw [hk, if_pos ⟨Saturating.lo_le_toInt id, Saturating.toInt_le_hi id⟩, Int32.ofInt_toInt]
  · obtain ⟨neg, hparts⟩ := ofFloat_of_not_isFinite hq (by simpa using hfin)
    rw [hparts]
    simp [hfin]

end Lookup

/-! ### The log ratio of a bin's price -/

section LogRatio

variable {ln : Float → Float} {b : Int32} {step : UInt16} {dx dy : UInt8}

/-- The log ratio of the price of bin `b`, finite and at least `2^-1022`, is finite and rounds
half away from zero to `b`. -/
theorem logRatio_priceAt (hln : FaithfulLog ln) (hs : step ≠ 0)
    (hfin : (priceAt b step dx dy).isFinite = true)
    (hbound : 2 ^ (-1022 : ℤ) ≤ toReal (priceAt b step dx dy)) :
    (logRatio ln (priceAt b step dx dy) step dx dy).isFinite = true ∧
      roundAway (toReal (logRatio ln (priceAt b step dx dy) step dx dy)) = b.toInt := by
  obtain ⟨hρf, hρ1⟩ := stepRatio_bounds hs
  have hρ0 := stepRatio_pos hs
  have hL := log_stepRatio_ge hs
  rw [logRatio, priceAt] at *
  set R := powInt (stepRatio step) b
  set D := decimalsFactor dx dy
  have hP0 : 0 < toReal (R * D) := lt_of_lt_of_le (zpow_pos two_pos _) hbound
  -- both powers in the price are finite
  obtain ⟨hRf, hR0, hRlog⟩ :=
    (powInt_approx hρf (by linarith [zpow_pos (two_pos (α := ℝ)) (-14)]) b).finite_of_mul hfin hP0
  obtain ⟨hDf, hD0, -⟩ := (decimalsFactor_approx dx dy).finite_of_mul (w := R)
    (by rw [float_mul_comm]; exact hfin) (by rw [float_mul_comm]; exact hP0)
  -- dividing the decimals back out leaves the power, up to two roundings
  obtain ⟨hrawf, hrawlo, hrawhi, hrawlog⟩ :=
    mul_div_approx hRf hR0 hDf (lt_of_lt_of_le (zpow_pos two_pos _) hD0) hfin hbound
  have hraw0 : 0 < toReal (R * D / D) := lt_of_lt_of_le (zpow_pos two_pos _) hrawlo
  have hb := abs_bin_le hL hRlog hrawlog (abs_log_le_of_mem hrawlo hrawhi)
  -- the two float logarithms: an absolute error of `2^-43`, a relative one of `2^-52`
  obtain ⟨hlrf, -⟩ := hln.finite hrawf hraw0
  obtain ⟨hlρf, hlρ, hlρpos⟩ := faithfulLog_stepRatio hln hs
  have hlr := hln.abs_sub_le hrawf hraw0 (k := 10) (by norm_num)
    (by rw [zpow_ofNat]; linarith [abs_log_le_of_mem hrawlo hrawhi])
  have hnum := abs_numerator_le hb (hlr.trans_eq (by norm_num)) hrawlog hRlog
  have hq := abs_nearest_sub_lt hb (abs_ratio_sub_le hL hb hnum hlρ)
  -- the quotient of the two logarithms, rounded
  obtain ⟨hqnan, hqval⟩ := div_value hlrf hlρf hlρpos.ne'
  have hsize : |nearest (toReal (ln (R * D / D)) / toReal (ln (stepRatio step)))| < overflow := by
    have := abs_sub_abs_le_abs_sub (nearest (toReal (ln (R * D / D)) /
      toReal (ln (stepRatio step)))) (b.toInt : ℝ)
    have hover : (2 : ℝ) ^ 25 + 1 < overflow := by
      unfold overflow
      calc (2 : ℝ) ^ 25 + 1 < 2 ^ 26 := by norm_num
        _ ≤ 2 ^ 1024 := pow_le_pow_right₀ one_le_two (by norm_num)
    linarith
  obtain ⟨hqf, hqr⟩ := isFinite_of_value_eq hqnan hqval hsize
  refine ⟨hqf, ?_⟩
  rw [hqr]
  exact roundAway_eq_of_abs_sub_lt hq

end LogRatio

/-! ### No NaN under a faithful logarithm -/

section NoNaN

variable {x y d : Float}

/-- A finite float above zero divided by a power, `+∞`, `+0` or finite above zero, is not NaN and
has a value of at least zero. -/
theorem div_powApprox {z δ : ℝ} (hx : x.isFinite = true) (hx0 : 0 < toReal x)
    (hd : PowApprox d z δ) : (x / d).isNaN = false ∧ 0 ≤ value (x / d) := by
  obtain ⟨m, e, hm, hxu, -⟩ := parts_of_pos hx hx0
  cases hd with
  | top htop =>
    -- a finite float over `+∞` is `+0`
    rw [isNaN_eq_false_iff, value, unpack_div, hxu, value_eq_top_iff.mp htop]
    show repack (.zero _) ≠ _ ∧ 0 ≤ toEReal (repack (.zero _))
    rw [repack, unpack_pack_zero]
    exact ⟨fun h => (by cases h), le_of_eq EReal.coe_zero.symm⟩
  | zero hzero =>
    -- a finite float over `+0` is `+∞`
    rw [isNaN_eq_false_iff, value, unpack_div, hxu, hzero]
    show repack (.infinity _) ≠ _ ∧ 0 ≤ toEReal (repack (.infinity _))
    rw [repack_infinity]
    exact ⟨fun h => (by cases h), le_top⟩
  | finite hdf hd0 _ =>
    have hdpos : 0 < toReal d := lt_of_lt_of_le (zpow_pos two_pos _) hd0
    obtain ⟨hnan, hval⟩ := div_value hx hdf hdpos.ne'
    exact ⟨hnan, hval ▸ toBinary64_nonneg (div_nonneg hx0.le hdpos.le)⟩

/-- An infinity or a finite float divided by a finite float above zero is not NaN. -/
theorem div_isNaN_eq_false (hx : value x = ⊤ ∨ value x = ⊥ ∨ x.isFinite = true)
    (hy : y.isFinite = true) (hy0 : 0 < toReal y) : (x / y).isNaN = false := by
  obtain ⟨m, e, hm, hyu, -⟩ := parts_of_pos hy hy0
  rcases hx with htop | hbot | hf
  · rw [value_eq_top_iff] at htop
    rw [isNaN_eq_false_iff, unpack_div, htop, hyu]
    show repack (.infinity _) ≠ _
    rw [repack_infinity]
    exact fun h => (by cases h)
  · rw [value_eq_bot_iff] at hbot
    rw [isNaN_eq_false_iff, unpack_div, hbot, hyu]
    show repack (.infinity _) ≠ _
    rw [repack_infinity]
    exact fun h => (by cases h)
  · exact (div_value hf hy hy0.ne').1

/-- Under a faithful logarithm the log ratio of a finite price above zero is not NaN: the raw
price is `+0`, `+∞` or finite above zero, its logarithm an infinity or finite, and the logarithm
of the growth factor finite above zero. -/
theorem logRatio_isNaN_eq_false {ln : Float → Float} {price : Float} {step : UInt16}
    {dx dy : UInt8} (hln : FaithfulLog ln) (hp : price.isFinite = true) (hpos : 0 < toReal price)
    (hs : step ≠ 0) : (logRatio ln price step dx dy).isNaN = false := by
  obtain ⟨hraw, hraw0⟩ := div_powApprox hp hpos (decimalsFactor_approx dx dy)
  obtain ⟨hlρf, -, hlρpos⟩ := faithfulLog_stepRatio hln hs
  exact div_isNaN_eq_false (hln.kinds hraw hraw0) hlρf hlρpos

end NoNaN

/-! ### The lookup inverts the price -/

/-- Under any faithful logarithm, the lookup gives back every bin whose price is finite and at
least the least normal float; it refuses a price that is not finite or not above zero and a zero
step; and what it returns is exactly the log ratio, finite and rounded half away from zero, never
a saturated conversion. -/
theorem binForWith_inverts_priceAt {ln : Float → Float} (hln : FaithfulLog ln) :
    (∀ (b : Int32) (step : UInt16) (dx dy : UInt8), step ≠ 0 →
        (priceAt b step dx dy).isFinite = true →
        2 ^ (-1022 : ℤ) ≤ toReal (priceAt b step dx dy) →
        binForWith ln (priceAt b step dx dy) step dx dy = some b) ∧
    (∀ (price : Float) (step : UInt16) (dx dy : UInt8),
        price.isFinite = false ∨ toReal price ≤ 0 ∨ step = 0 →
        binForWith ln price step dx dy = none) ∧
    (∀ (price : Float) (step : UInt16) (dx dy : UInt8) (id : Int32),
        binForWith ln price step dx dy = some id ↔
          price.isFinite = true ∧ 0 < toReal price ∧ step ≠ 0 ∧
            (logRatio ln price step dx dy).isFinite = true ∧
            roundAway (toReal (logRatio ln price step dx dy)) = id.toInt) := by
  refine ⟨?_, fun _ _ _ _ h => binForWith_of_invalid h, ?_⟩
  · intro b step dx dy hs hfin hbound
    have hpos : 0 < toReal (priceAt b step dx dy) := lt_of_lt_of_le (zpow_pos two_pos _) hbound
    obtain ⟨hqf, hk⟩ := logRatio_priceAt hln hs hfin hbound
    exact (binForWith_eq_some_iff hfin hpos hs (isNaN_eq_false_of_isFinite hqf)).mpr ⟨hqf, hk⟩
  · intro price step dx dy id
    constructor
    · intro h
      obtain ⟨hp, hpos, hs⟩ := valid_of_binForWith_eq_some h
      exact ⟨hp, hpos, hs,
        (binForWith_eq_some_iff hp hpos hs (logRatio_isNaN_eq_false hln hp hpos hs)).mp h⟩
    · rintro ⟨hp, hpos, hs, hq⟩
      exact (binForWith_eq_some_iff hp hpos hs (logRatio_isNaN_eq_false hln hp hpos hs)).mpr hq

/-- Bin one at a step of one basis point, six decimals on each side, under the logarithm rounded
to nearest: the price `1.0001` is finite and normal, and the lookup finds bin one again. -/
theorem binForWith_priceAt_one :
    FaithfulLog roundedLog ∧ (1 : UInt16) ≠ 0 ∧ (priceAt 1 1 6 6).isFinite = true ∧
      2 ^ (-1022 : ℤ) ≤ toReal (priceAt 1 1 6 6) ∧
      binForWith roundedLog (priceAt 1 1 6 6) 1 6 6 = some 1 := by
  have hprice : priceAt 1 1 6 6 = 1 * stepRatio 1 * 1 := by
    rw [priceAt, decimalsFactor,
      show Int32.ofInt ((UInt8.toNat 6 : ℤ) - UInt8.toNat 6) = 0 by decide, powInt_zero, powInt_one]
  have hu : (priceAt 1 1 6 6).toModel.unpack =
      .finite .positive 4504049987333233 (-52) (by decide) := by
    rw [hprice]
    rfl
  obtain ⟨hfin, hval⟩ := value_of_unpack hu
  have hbound : 2 ^ (-1022 : ℤ) ≤ toReal (priceAt 1 1 6 6) := by
    rw [hval]
    calc (2 : ℝ) ^ (-1022 : ℤ) ≤ 2 ^ (-52 : ℤ) := zpow_le_zpow_right₀ one_le_two (by norm_num)
      _ ≤ ((4504049987333233 : ℕ) : ℝ) * 2 ^ (-52 : ℤ) :=
        le_mul_of_one_le_left (by positivity) (by norm_num)
  exact ⟨faithfulLog_roundedLog, by decide, hfin, hbound,
    (binForWith_inverts_priceAt faithfulLog_roundedLog).1 1 1 6 6 (by decide) hfin hbound⟩

end RangeAdvisor.Bins
