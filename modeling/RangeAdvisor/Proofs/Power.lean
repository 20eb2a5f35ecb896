import RangeAdvisor.Bins.Price
import RangeAdvisor.Proofs.Float.Value

/-!
# Binary powering in floats

`powNat a r k` multiplies `r` by `a^k` with one rounding per product and per squaring. From
factors of at least one every intermediate is at least one, so each rounding moves the logarithm
by at most `2^-49`, and an overflow to `+∞` stays there (`LogNear.mul`). Following the bits of
`k`, the error of the squared factor doubles at each step while the weight of its bit halves, so
the result is `+∞` or within `β + k (α + 2^-49)` of `log r + k log a` in the logarithm
(`powNat_logNear`); the induction along the bits is stated once for any bound that composes
under one rounded product (`powNat_of_mul`). A negative power takes the reciprocal, one more rounding, or `+0` after an
overflow (`powInt_approx`). Such a power in a finite product above zero is finite
(`PowApprox.finite_of_mul`).
-/

set_option autoImplicit false

open Float.Model Float.Model.UnpackedFloat

namespace RangeAdvisor

open Binary64 Unpacked Rounding

theorem powNat_zero (a r : Float) : powNat a r 0 = r := by
  rw [powNat]
  rfl

theorem powNat_one (a r : Float) : powNat a r 1 = r * a := by
  rw [powNat]
  rfl

theorem powInt_zero (a : Float) : powInt a 0 = 1 := by
  show (if (0 : Int32) < 0 then 1 / powNat a 1 0 else powNat a 1 0) = 1
  rw [if_neg (by decide), powNat_zero]

theorem powInt_one (a : Float) : powInt a 1 = 1 * a := by
  show (if (1 : Int32) < 0 then 1 / powNat a 1 1 else powNat a 1 1) = 1 * a
  rw [if_neg (by decide), powNat_one]

/-- How a product of floats of at least one comes out: `+∞`, or a finite float of at least one
whose logarithm is within `δ` of `y`. -/
inductive LogNear (x : Float) (y δ : ℝ) : Prop
  | top : value x = ⊤ → LogNear x y δ
  | finite : x.isFinite = true → 1 ≤ toReal x → |Real.log (toReal x) - y| ≤ δ → LogNear x y δ

theorem isFinite_one : (1 : Float).isFinite = true := rfl

theorem toReal_one : toReal 1 = 1 := by
  have hu : (1 : Float).toModel.unpack = .finite .positive (2 ^ 52) (-52) (by decide) := by rfl
  rw [toReal, hu]
  show ((2 ^ 52 : ℕ) : ℝ) * 2 ^ (-52 : ℤ) = 1
  rw [Nat.cast_pow, Nat.cast_ofNat, ← zpow_natCast, ← zpow_add₀ two_ne_zero]
  norm_num

section LogNear

variable {a b r x : Float} {A B y y' α β δ δ' : ℝ}

theorem LogNear.congr (h : LogNear x y δ) (hy : y = y') (hδ : δ = δ') : LogNear x y' δ' :=
  hy ▸ hδ ▸ h

theorem LogNear.positive (h : LogNear x y δ) : value x = ⊤ ∨ (x.isFinite = true ∧ 0 < toReal x) := by
  cases h with
  | top h => exact .inl h
  | finite hf h1 _ => exact .inr ⟨hf, by linarith⟩

theorem logNear_self (hf : x.isFinite = true) (h1 : 1 ≤ toReal x) :
    LogNear x (Real.log (toReal x)) 0 :=
  .finite hf h1 (by simp)

theorem logNear_one : LogNear 1 0 0 :=
  (logNear_self isFinite_one (by rw [toReal_one])).congr (by rw [toReal_one, Real.log_one]) rfl

/-- `+∞` times `+∞` or a finite float above zero is `+∞`. -/
theorem mul_eq_top (ha : value a = ⊤) (hb : value b = ⊤ ∨ (b.isFinite = true ∧ 0 < toReal b)) :
    value (a * b) = ⊤ := by
  rw [value_eq_top_iff] at ha ⊢
  rw [unpack_mul, ha]
  rcases hb with hb | ⟨hf, hpos⟩
  · rw [value_eq_top_iff] at hb
    rw [hb]
    exact repack_infinity _
  · obtain ⟨m, e, hm, hu, -⟩ := parts_of_pos hf hpos
    rw [hu]
    exact repack_infinity _

/-- One rounded product: the errors add, with `2^-49` for the rounding. -/
theorem LogNear.mul (ha : LogNear a A α) (hb : LogNear b B β) :
    LogNear (a * b) (A + B) (α + β + 2 ^ (-49 : ℤ)) := by
  cases ha with
  | top ha => exact .top (mul_eq_top ha hb.positive)
  | finite hfa ha1 hla =>
    cases hb with
    | top hb =>
      rw [float_mul_comm]
      exact .top (mul_eq_top hb (.inr ⟨hfa, by linarith⟩))
    | finite hfb hb1 hlb =>
      obtain ⟨hnan, hval⟩ := mul_value hfa hfb
      have hprod : 1 ≤ toReal a * toReal b := one_le_mul_of_one_le_of_one_le ha1 hb1
      rcases of_value_eq hnan hval (by linarith) with htop | ⟨hfin, hreal⟩
      · exact .top htop
      -- a finite product: at least one, and its rounding moves the logarithm by at most `2^-49`
      have hround := abs_log_nearest_sub_le (x := toReal a * toReal b)
        (le_trans (zpow_le_one_of_nonpos₀ one_le_two (by norm_num)) hprod)
      rw [Real.log_mul (by positivity) (by positivity)] at hround
      refine .finite hfin ?_ ?_
      · rw [hreal, ← nearest_one]
        exact nearest_mono hprod
      · rw [hreal]
        rw [abs_le] at hround hla hlb ⊢
        constructor <;> linarith

/-- Binary powering keeps any bound that one rounded product keeps, the errors adding up: from a
bound on the factor and one on the start, the result is bounded with `k` times the factor's. -/
theorem powNat_of_mul {P : Float → ℝ → ℝ → Prop} {ε : ℝ}
    (hmul : ∀ {a b : Float} {A B α β : ℝ}, P a A α → P b B β → P (a * b) (A + B) (α + β + ε))
    (ha : P a A α) (hr : P r B β) (k : ℕ) :
    P (powNat a r k) (B + k * A) (β + k * (α + ε)) := by
  have congr : ∀ {x : Float} {y y' δ δ' : ℝ}, P x y δ → y = y' → δ = δ' → P x y' δ' :=
    fun h hy hδ => hy ▸ hδ ▸ h
  induction k using Nat.strong_induction_on generalizing a r A B α β with
  | _ k ih =>
    have hk : (k : ℝ) = ((k % 2 : ℕ) : ℝ) + 2 * ((k / 2 : ℕ) : ℝ) := by
      exact_mod_cast (Nat.mod_add_div k 2).symm
    -- the product for the lowest bit of `k`
    have hlow : P (if k % 2 = 1 then r * a else r) (B + (k % 2 : ℕ) * A)
        (β + (k % 2 : ℕ) * (α + ε)) := by
      split
      · rename_i hodd
        rw [hodd]
        exact congr (hmul hr ha) (by push_cast; ring) (by push_cast; ring)
      · rename_i heven
        rw [show k % 2 = 0 by omega]
        exact congr hr (by push_cast; ring) (by push_cast; ring)
    rw [powNat]
    split
    · -- no bit above: `k` is its lowest bit
      rename_i hhigh
      rw [hhigh] at hk
      exact congr hlow (by rw [hk]; push_cast; ring) (by rw [hk]; push_cast; ring)
    · -- square the factor and carry on with the higher bits
      exact congr (ih (k / 2) (by omega) (hmul ha ha) hlow) (by rw [hk]; ring) (by rw [hk]; ring)

/-- Binary powering from factors of at least one: `+∞`, or within `β + k (α + 2^-49)` of
`B + k A` in the logarithm. -/
theorem powNat_logNear (ha : LogNear a A α) (hr : LogNear r B β) (k : ℕ) :
    LogNear (powNat a r k) (B + k * A) (β + k * (α + 2 ^ (-49 : ℤ))) :=
  powNat_of_mul LogNear.mul ha hr k

end LogNear

/-- How an integer power computed in floats comes out: `+∞`, `+0`, or a finite float of at least
`2^-1024` whose logarithm is within `δ` of `y`. -/
inductive PowApprox (x : Float) (y δ : ℝ) : Prop
  | top : value x = ⊤ → PowApprox x y δ
  | zero : x.toModel.unpack = .zero .positive → PowApprox x y δ
  | finite : x.isFinite = true → 2 ^ (-1024 : ℤ) ≤ toReal x → |Real.log (toReal x) - y| ≤ δ →
      PowApprox x y δ

section PowInt

variable {a r : Float}

/-- The reciprocal of `+∞` is `+0`. -/
theorem one_div_eq_zero (hr : value r = ⊤) : (1 / r).toModel.unpack = .zero .positive := by
  rw [value_eq_top_iff] at hr
  rw [unpack_div, hr]
  rfl

/-- The reciprocal of a float of at least one is finite, at least `2^-1024`, and one rounding
away from `-log r` in the logarithm. -/
theorem one_div_of_one_le (hf : r.isFinite = true) (h1 : 1 ≤ toReal r) :
    (1 / r).isFinite = true ∧ 2 ^ (-1024 : ℤ) ≤ toReal (1 / r) ∧
      |Real.log (toReal (1 / r)) + Real.log (toReal r)| ≤ 2 ^ (-49 : ℤ) := by
  have hpos : 0 < toReal r := by linarith
  obtain ⟨hnan, hval⟩ := div_value isFinite_one hf hpos.ne'
  rw [toReal_one] at hval
  have hinv : 1 / toReal r ≤ 1 := by rw [div_le_one hpos]; exact h1
  -- `r` is at most `maxFinite`, below `2^1024`, so its reciprocal is above `2^-1024`
  have hsmall : 2 ^ (-1024 : ℤ) ≤ 1 / toReal r := by
    have hmax := (toReal_le_maxFinite hf).trans maxFinite_lt_overflow.le
    rw [overflow] at hmax
    rw [le_div_iff₀ hpos, zpow_neg, zpow_ofNat, inv_mul_le_iff₀ (by positivity), mul_one]
    exact hmax
  have hnear : nearest (1 / toReal r) < overflow := by
    calc nearest (1 / toReal r) ≤ nearest 1 := nearest_mono hinv
      _ = 1 := nearest_one
      _ < overflow := by unfold overflow; exact one_lt_pow₀ one_lt_two (by norm_num)
  obtain ⟨hfin, hreal⟩ := isFinite_of_value_eq hnan hval
    (by rw [abs_of_nonneg (nearest_nonneg (by positivity))]; exact hnear)
  refine ⟨hfin, ?_, ?_⟩
  · rw [hreal, ← nearest_two_zpow (by norm_num)]
    exact nearest_mono hsmall
  · have hround := abs_log_nearest_sub_le (le_trans (zpow_le_zpow_right₀ one_le_two (by norm_num)) hsmall)
    rw [one_div, Real.log_inv] at hround
    rwa [hreal, one_div, ← sub_neg_eq_add]

/-- An integer power of a finite float of at least one, by binary powering of `|n|` and a
reciprocal for negative `n`: within `(|n| + 1) · 2^-49` of `n log a` in the logarithm. -/
theorem powInt_approx (hf : a.isFinite = true) (h1 : 1 ≤ toReal a) (n : Int32) :
    PowApprox (powInt a n) (n.toInt * Real.log (toReal a)) ((|(n.toInt : ℝ)| + 1) * 2 ^ (-49 : ℤ)) := by
  have hpow := powNat_logNear (logNear_self hf h1) logNear_one n.toInt.natAbs
  have habs : ((n.toInt.natAbs : ℕ) : ℝ) = |(n.toInt : ℝ)| := by
    rw [Nat.cast_natAbs, Int.cast_abs]
  rw [habs, zero_add, zero_add, zero_add] at hpow
  unfold powInt
  dsimp only
  split
  · -- a negative power: the reciprocal of `a^|n|`
    rename_i hneg
    have hn : (n.toInt : ℝ) < 0 := by exact_mod_cast Int32.lt_iff_toInt_lt.mp hneg
    rw [abs_of_neg hn] at hpow
    cases hpow with
    | top htop => exact .zero (one_div_eq_zero htop)
    | finite hfr hr1 hlr =>
      obtain ⟨hfin, hlow, hlog⟩ := one_div_of_one_le hfr hr1
      refine .finite hfin hlow ?_
      rw [abs_of_neg hn]
      rw [abs_le] at hlog hlr ⊢
      ring_nf at hlog hlr ⊢
      constructor <;> linarith
  · -- a power of at least zero is `a^n` itself
    rename_i hnonneg
    have hn : 0 ≤ (n.toInt : ℝ) := by
      exact_mod_cast not_lt.mp (fun h => hnonneg (Int32.lt_iff_toInt_lt.mpr h))
    rw [abs_of_nonneg hn] at hpow
    cases hpow with
    | top htop => exact .top htop
    | finite hfr hr1 hlr =>
      refine .finite hfr (le_trans (zpow_le_one_of_nonpos₀ one_le_two (by norm_num)) hr1) ?_
      rw [abs_of_nonneg hn]
      rw [abs_le] at hlr ⊢
      ring_nf at hlr ⊢
      constructor <;> linarith

/-- `+∞` times any float is infinite or NaN. -/
theorem isFinite_mul_of_top {w : Float} (hr : value r = ⊤) : (r * w).isFinite = false := by
  rw [value_eq_top_iff] at hr
  show (repack (mul .binary64 r.toModel.unpack w.toModel.unpack)).isFinite = false
  rw [hr]
  generalize w.toModel.unpack = v
  cases v with
  | notANumber => rfl
  | infinity s => show (repack (.infinity _)).isFinite = false; rw [repack_infinity]; rfl
  | zero s => show (repack .notANumber).isFinite = false; rw [repack, unpack_pack_notANumber]; rfl
  | finite s m e hm => show (repack (.infinity _)).isFinite = false; rw [repack_infinity]; rfl

/-- `+0` times any float is valued at zero. -/
theorem toReal_mul_of_zero {w : Float} (hr : r.toModel.unpack = .zero .positive) :
    toReal (r * w) = 0 := by
  show real (repack (mul .binary64 r.toModel.unpack w.toModel.unpack)) = 0
  rw [hr]
  generalize w.toModel.unpack = v
  cases v with
  | notANumber => rfl
  | infinity s => show real (repack .notANumber) = 0; rw [repack, unpack_pack_notANumber]; rfl
  | zero s => show real (repack (.zero _)) = 0; rw [repack, unpack_pack_zero]; rfl
  | finite s m e hm => show real (repack (.zero _)) = 0; rw [repack, unpack_pack_zero]; rfl

/-- A power that is a factor of a finite product above zero is itself finite: `+∞` would make
the product infinite or NaN, and `+0` would make it zero. -/
theorem PowApprox.finite_of_mul {w : Float} {y δ : ℝ} (hr : PowApprox r y δ)
    (hf : (r * w).isFinite = true) (hpos : 0 < toReal (r * w)) :
    r.isFinite = true ∧ 2 ^ (-1024 : ℤ) ≤ toReal r ∧ |Real.log (toReal r) - y| ≤ δ := by
  cases hr with
  | top htop => exact absurd hf (by rw [isFinite_mul_of_top htop]; exact Bool.false_ne_true)
  | zero hzero => exact absurd (toReal_mul_of_zero hzero) hpos.ne'
  | finite hfin hlow hlog => exact ⟨hfin, hlow, hlog⟩

end PowInt

end RangeAdvisor
