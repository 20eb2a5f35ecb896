import RangeAdvisor.Proofs.Float.Value

/-!
# Faithful logarithms

The float logarithm comes from the platform's library, so what is proved of the bin lookup holds
for every logarithm `ln` that is faithful (`FaithfulLog`): a finite float above zero goes to a
finite float less than one last place away from the real logarithm of its value, a zero to `-∞`,
and `+∞` to `+∞`. On a float of value at least zero such a logarithm never gives NaN
(`FaithfulLog.kinds`), and its error is one last place of the result: absolute for a bounded
logarithm, relative for one away from zero (`FaithfulLog.abs_sub_le`,
`FaithfulLog.abs_sub_le_mul`). The logarithm rounded to nearest, `roundedLog`, is faithful
(`faithfulLog_roundedLog`).
-/

set_option autoImplicit false

open Float.Model Float.Model.UnpackedFloat

namespace RangeAdvisor.Binary64

open Unpacked Rounding

/-- A logarithm on floats faithful to the real one: less than one last place `2^quantum` off on
finite floats above zero, `-∞` at zero and `+∞` at `+∞`. -/
structure FaithfulLog (ln : Float → Float) : Prop where
  finite {x : Float} : x.isFinite = true → 0 < toReal x →
    (ln x).isFinite = true ∧
      |toReal (ln x) - Real.log (toReal x)| < 2 ^ quantum (Real.log (toReal x))
  zero {x : Float} : x.isFinite = true → toReal x = 0 → value (ln x) = ⊥
  top {x : Float} : value x = ⊤ → value (ln x) = ⊤

section Faithful

variable {ln : Float → Float} {x : Float}

/-- The logarithm of a finite float above zero is at most `1074` in size: its value lies between
`2^-1074` and `2^1024`. -/
theorem abs_log_toReal_le (h : x.isFinite = true) (hpos : 0 < toReal x) :
    |Real.log (toReal x)| ≤ 1074 := by
  have hlo := two_zpow_le_toReal h hpos
  have hhi : toReal x ≤ 2 ^ 1024 := (toReal_le_maxFinite h).trans maxFinite_lt_overflow.le
  have hlog2 : Real.log 2 ≤ 1 := (Real.log_le_sub_one_of_pos two_pos).trans (by norm_num)
  have hlog2' : 0 < Real.log 2 := Real.log_pos one_lt_two
  rw [abs_le]
  constructor
  · calc (-1074 : ℝ) ≤ -1074 * Real.log 2 := by linarith
      _ = Real.log (2 ^ (-1074 : ℤ)) := by rw [Real.log_zpow]; push_cast; ring
      _ ≤ Real.log (toReal x) := Real.log_le_log (by positivity) hlo
  · calc Real.log (toReal x) ≤ Real.log (2 ^ 1024) := Real.log_le_log hpos hhi
      _ = 1024 * Real.log 2 := by rw [Real.log_pow]; norm_num
      _ ≤ 1074 := by linarith

/-- On a float of value at least zero a faithful logarithm gives an infinity or a finite float,
never NaN. -/
theorem FaithfulLog.kinds (hln : FaithfulLog ln) (hx : x.isNaN = false) (hnn : 0 ≤ value x) :
    value (ln x) = ⊤ ∨ value (ln x) = ⊥ ∨ (ln x).isFinite = true := by
  by_cases htop : value x = ⊤
  · exact .inl (hln.top htop)
  have hbot : value x ≠ ⊥ := fun hbot => by
    rw [hbot] at hnn
    exact absurd hnn (not_le.mpr EReal.bot_lt_zero)
  have hfin := isFinite_of_value_ne hx htop hbot
  have h0 : 0 ≤ toReal x := by
    rw [value_of_isFinite hfin] at hnn
    exact_mod_cast hnn
  rcases h0.eq_or_lt with h0 | hpos
  · exact .inr (.inl (hln.zero hfin h0.symm))
  · exact .inr (.inr (hln.finite hfin hpos).1)

/-- Where the real logarithm is below `2^k` in size, a faithful one is within `2^(k - 53)`. -/
theorem FaithfulLog.abs_sub_le (hln : FaithfulLog ln) (hf : x.isFinite = true)
    (hpos : 0 < toReal x) {k : ℤ} (hk : 1 ≤ k) (hlog : |Real.log (toReal x)| < 2 ^ k) :
    |toReal (ln x) - Real.log (toReal x)| ≤ 2 ^ (k - 53) :=
  ((hln.finite hf hpos).2.trans_le
    (zpow_le_zpow_right₀ one_le_two (quantum_le_of_abs_lt hk hlog))).le

/-- Where the real logarithm is at least `2^-1022` in size, a faithful one is within a relative
`2^-52`. -/
theorem FaithfulLog.abs_sub_le_mul (hln : FaithfulLog ln) (hf : x.isFinite = true)
    (hpos : 0 < toReal x) (hlog : 2 ^ (-1022 : ℤ) ≤ |Real.log (toReal x)|) :
    |toReal (ln x) - Real.log (toReal x)| ≤ 2 ^ (-52 : ℤ) * |Real.log (toReal x)| := by
  have h := ((hln.finite hf hpos).2.trans_le (two_zpow_quantum_le hlog)).le
  rwa [div_eq_mul_inv, mul_comm, ← zpow_natCast, ← zpow_neg] at h

end Faithful

/-! ### The logarithm rounded to nearest -/

/-- The real logarithm of the value rounded to nearest, with `-∞` at zero, `+∞` at `+∞`, and NaN
below zero and at NaN. -/
noncomputable def roundedLog (x : Float) : Float :=
  match x.toModel.unpack with
  | .finite .positive _ _ _ => Float.ofModel (Float.Model.pack (ofReal (Real.log (toReal x))))
  | .zero _ => Float.ofModel (Float.Model.pack (.infinity .negative))
  | .infinity .positive => Float.ofModel (Float.Model.pack (.infinity .positive))
  | _ => Float.ofModel (Float.Model.pack .notANumber)

theorem value_ofModel_infinity (s : Sign) :
    value (Float.ofModel (Float.Model.pack (.infinity s))) = toEReal (.infinity s) := by
  show toEReal (repack (.infinity s)) = _
  rw [repack_infinity]

theorem faithfulLog_roundedLog : FaithfulLog roundedLog where
  finite := by
    intro x hf hpos
    obtain ⟨m, e, hm, hu, -⟩ := parts_of_pos hf hpos
    have hround : roundedLog x =
        Float.ofModel (Float.Model.pack (ofReal (Real.log (toReal x)))) := by
      unfold roundedLog
      rw [hu]
    rw [hround]
    -- the logarithm is at most `1074` in size, so its last place is at most `2^-42`
    have hy := abs_log_toReal_le hf hpos
    have hq : quantum (Real.log (toReal x)) ≤ 11 - 53 :=
      quantum_le_of_abs_lt (by norm_num) (by rw [zpow_ofNat]; linarith)
    have herr := abs_nearest_sub_le (Real.log (toReal x))
    have hhalf : (2 : ℝ) ^ (quantum (Real.log (toReal x)) - 1) ≤ 1 :=
      zpow_le_one_of_nonpos₀ one_le_two (by omega)
    have hsmall : |nearest (Real.log (toReal x))| < overflow := by
      have hover : (1075 : ℝ) < overflow := by
        unfold overflow
        calc (1075 : ℝ) < 2 ^ 11 := by norm_num
          _ ≤ 2 ^ 1024 := pow_le_pow_right₀ one_le_two (by norm_num)
      have := abs_sub_abs_le_abs_sub (nearest (Real.log (toReal x))) (Real.log (toReal x))
      linarith
    obtain ⟨hnan, hval⟩ := ofModel_value (ofReal_roundsTo (Real.log (toReal x)))
    obtain ⟨hfin, hreal⟩ := isFinite_of_value_eq hnan hval hsmall
    refine ⟨hfin, ?_⟩
    rw [hreal]
    calc |nearest (Real.log (toReal x)) - Real.log (toReal x)|
        ≤ 2 ^ (quantum (Real.log (toReal x)) - 1) := herr
      _ < 2 ^ quantum (Real.log (toReal x)) := zpow_lt_zpow_right₀ one_lt_two (by omega)
  zero := by
    intro x hf h0
    obtain ⟨s, hu⟩ := unpack_of_toReal_eq_zero hf h0
    unfold roundedLog
    rw [hu]
    exact value_ofModel_infinity .negative
  top := by
    intro x htop
    rw [value_eq_top_iff] at htop
    unfold roundedLog
    rw [htop]
    exact value_ofModel_infinity .positive

end RangeAdvisor.Binary64
