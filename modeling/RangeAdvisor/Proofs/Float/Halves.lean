import RangeAdvisor.Proofs.Float.Gain
import RangeAdvisor.Proofs.Float.Bounds

/-!
# Integers and halves in floats

Below `2^53` every integer and every half of one is a float, so conversions of 32-bit bin ids,
their sums and the halves of those are exact, and so are negation and magnitude. A float from one
up to `2^32` is a 53-bit mantissa over `2^k` for some `k` from 21 to 52, so one half less it is
exact, and one half plus it is exact unless the sum carries into the next binade; there the rounding
moves it by at most `2^-k`, less than the half that separates it from the next integer. The floor of
the rounded sum is therefore the floor of the exact one. Main statements:
`Binary64.floor_nearest_add_half`, `Binary64.nearest_half_sub`.
-/

set_option autoImplicit false

open Float.Model Float.Model.UnpackedFloat

namespace RangeAdvisor.Binary64

open Unpacked Rounding

variable {x : Float}

/-! ### Exact values -/

section Exact

/-- An integer below `2^53` in size times a power of two in range is kept by rounding. -/
theorem nearest_intCast_mul_two_zpow {k : ℤ} {e : ℤ} (hk : k.natAbs < 2 ^ 53) (he : -1074 ≤ e) :
    nearest (k * 2 ^ e) = k * 2 ^ e := by
  obtain ⟨n, rfl | rfl⟩ := Int.eq_nat_or_neg k
  · rw [Int.natAbs_natCast] at hk
    rw [Int.cast_natCast]
    exact nearest_natCast_mul_two_zpow hk he
  · rw [Int.natAbs_neg, Int.natAbs_natCast] at hk
    rw [Int.cast_neg, Int.cast_natCast, neg_mul, nearest_neg, nearest_natCast_mul_two_zpow hk he]

theorem nearest_intCast {k : ℤ} (hk : k.natAbs < 2 ^ 53) : nearest k = k := by
  simpa using nearest_intCast_mul_two_zpow (e := 0) hk (by norm_num)

theorem abs_nearest_le {z : ℝ} (hz : |z| ≤ 2 ^ 53) : |nearest z| ≤ 2 ^ 53 := by
  have h53 : nearest ((2 : ℝ) ^ (53 : ℤ)) = 2 ^ (53 : ℤ) := nearest_two_zpow (by norm_num)
  rw [zpow_ofNat] at h53
  obtain ⟨hlo, hhi⟩ := abs_le.mp hz
  have hup := nearest_mono hhi
  have hdown := nearest_mono hlo
  rw [nearest_neg, h53] at hdown
  rw [h53] at hup
  exact abs_le.mpr ⟨hdown, hup⟩

/-- A float valued at a result of size at most `2^53`, rounded with overflow, is finite and valued
at its rounding. -/
theorem isFinite_of_value_small {w : Float} {z : ℝ} (hnan : w.isNaN = false)
    (h : value w = toBinary64 z) (hz : |z| ≤ 2 ^ 53) : w.isFinite = true ∧ toReal w = nearest z :=
  isFinite_of_value_eq hnan h <| (abs_nearest_le hz).trans_lt <| by
    rw [overflow]
    exact pow_lt_pow_right₀ one_lt_two (by norm_num)

/-- The same for a result that rounding keeps. -/
theorem of_value_exact {w : Float} {z : ℝ} (hnan : w.isNaN = false) (h : value w = toBinary64 z)
    (hz : nearest z = z) (hsmall : |z| ≤ 2 ^ 53) : w.isFinite = true ∧ toReal w = z := by
  obtain ⟨hf, hr⟩ := isFinite_of_value_small hnan h hsmall
  exact ⟨hf, hr.trans hz⟩

/-- Half an integer below `2^53` in size is exact. -/
theorem of_value_half_int {w : Float} {n : ℤ} (hnan : w.isNaN = false)
    (h : value w = toBinary64 (n * 2 ^ (-1 : ℤ))) (hn : n.natAbs < 2 ^ 53) :
    w.isFinite = true ∧ toReal w = n * 2 ^ (-1 : ℤ) := by
  refine of_value_exact hnan h (nearest_intCast_mul_two_zpow hn (by norm_num)) ?_
  rw [abs_mul, ← Int.cast_abs, Int.abs_eq_natAbs, abs_of_pos (by positivity)]
  have : ((n.natAbs : ℤ) : ℝ) ≤ 2 ^ 53 := by exact_mod_cast hn.le
  calc _ ≤ (2 : ℝ) ^ 53 * 2 ^ (-1 : ℤ) := mul_le_mul_of_nonneg_right this (by positivity)
    _ ≤ 2 ^ 53 := by norm_num

theorem lt_iff_toReal_lt {y : Float} (hx : x.isFinite = true) (hy : y.isFinite = true) :
    x < y ↔ toReal x < toReal y := by
  rw [lt_iff, value_of_isFinite hx, value_of_isFinite hy, EReal.coe_lt_coe_iff,
    isNaN_eq_false_of_isFinite hx, isNaN_eq_false_of_isFinite hy]
  exact ⟨fun h => h.2.2, fun h => ⟨rfl, rfl, h⟩⟩

theorem twoLit_value : (2.0 : Float).isFinite = true ∧ toReal 2.0 = 2 := by
  rw [show (2.0 : Float) = Float.ofNat 2 from rfl]
  exact_mod_cast ofNat_value (by norm_num)

/-- A finite float's parts with either sign pack and unpack to themselves. -/
theorem repack_finite {s t : Sign} {m : ℕ} {e : ℤ} {hm : 0 < m}
    (hu : x.toModel.unpack = .finite s m e hm) : repack (.finite t m e hm) = .finite t m e hm := by
  have hc : target m e = e := by
    have := canonical x
    rwa [hu] at this
  rw [repack, unpack_pack_finite t hm hc, if_neg (by have := (bounds_of_unpack hu).2.2; omega)]

theorem neg_value (hx : x.isFinite = true) : (-x).isFinite = true ∧ toReal (-x) = -toReal x := by
  have hf : x.toModel.unpack.isFinite = true := hx
  show (repack x.toModel.unpack.neg).isFinite = true ∧
    real (repack x.toModel.unpack.neg) = -real x.toModel.unpack
  generalize hu : x.toModel.unpack = u at hf
  cases u with
  | zero s =>
    rw [UnpackedFloat.neg, repack, unpack_pack_zero]
    exact ⟨rfl, by simp [real]⟩
  | finite s m e hm =>
    rw [UnpackedFloat.neg, repack_finite hu]
    exact ⟨rfl, by cases s <;> simp [real, signed]⟩
  | _ => cases hf

theorem abs_value (hx : x.isFinite = true) : x.abs.isFinite = true ∧ toReal x.abs = |toReal x| := by
  have hf : x.toModel.unpack.isFinite = true := hx
  show (repack x.toModel.unpack.abs).isFinite = true ∧
    real (repack x.toModel.unpack.abs) = |real x.toModel.unpack|
  generalize hu : x.toModel.unpack = u at hf
  cases u with
  | zero s =>
    rw [UnpackedFloat.abs, repack, unpack_pack_zero]
    exact ⟨rfl, by simp [real]⟩
  | finite s m e hm =>
    rw [UnpackedFloat.abs, repack_finite hu]
    have hpos : (0 : ℝ) ≤ m * 2 ^ e := by positivity
    exact ⟨rfl, by cases s <;> simp [real, signed, abs_of_nonneg hpos]⟩
  | _ => cases hf

/-- An integer below `2^53` in size converts exactly. -/
theorem ofInt_value {n : ℤ} (hn : n.natAbs < 2 ^ 53) :
    (Float.ofInt n).isFinite = true ∧ toReal (Float.ofInt n) = n := by
  cases n with
  | ofNat k =>
    obtain ⟨hf, hr⟩ := ofNat_value (n := k) hn
    exact ⟨hf, by rw [show Float.ofInt (Int.ofNat k) = Float.ofNat k from rfl, hr]; rfl⟩
  | negSucc k =>
    obtain ⟨hf, hr⟩ := ofNat_value (n := k + 1) hn
    obtain ⟨hf', hr'⟩ := neg_value hf
    refine ⟨hf', ?_⟩
    rw [show Float.ofInt (Int.negSucc k) = -Float.ofNat (k + 1) from rfl, hr', hr, Int.negSucc_eq]
    push_cast
    ring

end Exact

/-! ### One half from a float of at least one -/

section Half

/-- One half is `2^(k-1)` units of `2^-k`. -/
theorem half_eq_units (k : ℕ) (hk : 1 ≤ k) : (1 / 2 : ℝ) = 2 ^ (k - 1) * 2 ^ (-(k : ℤ)) := by
  obtain ⟨j, rfl⟩ : ∃ j, k = j + 1 := ⟨k - 1, by omega⟩
  rw [Nat.add_sub_cancel, zpow_neg, zpow_natCast, pow_succ]
  field_simp

/-- Below `2^53` in size, rounding moves a value by at most one half. -/
theorem abs_nearest_sub_le_half {z : ℝ} (hz : |z| < 2 ^ 53) : |nearest z - z| ≤ 1 / 2 := by
  have hq := quantum_le_of_abs_lt (k := 53) (by norm_num) (by exact_mod_cast hz)
  calc |nearest z - z| ≤ 2 ^ (quantum z - 1) := abs_nearest_sub_le z
    _ ≤ 2 ^ (-1 : ℤ) := zpow_le_zpow_right₀ one_le_two (by omega)
    _ = 1 / 2 := by norm_num

/-- A float from one up to `2^32` is a normal mantissa in units of `2^-k`, for `k` from 21 to 52. -/
theorem parts_of_one_le (hx : x.isFinite = true) (h1 : 1 ≤ toReal x) (h32 : toReal x < 2 ^ 32) :
    ∃ m k : ℕ, 2 ^ 52 ≤ m ∧ m < 2 ^ 53 ∧ 21 ≤ k ∧ k ≤ 52 ∧ toReal x = m * 2 ^ (-(k : ℤ)) := by
  obtain ⟨m, e, hm, hu, hm53, -, -⟩ := parts_of_pos hx (by linarith)
  have hX : toReal x = m * 2 ^ e := by rw [toReal, hu]; rfl
  have hc : target m e = e := by
    have := canonical x
    rwa [hu] at this
  rw [target_eq] at hc
  have hm' : (m : ℝ) < 2 ^ (53 : ℤ) := by rw [zpow_ofNat]; exact_mod_cast hm53
  -- the value is at least one, so the exponent is above `-53`
  have he : -53 < e := by
    have h : (1 : ℝ) < 2 ^ ((53 : ℤ) + e) := by
      rw [zpow_add₀ two_ne_zero]
      calc (1 : ℝ) ≤ m * 2 ^ e := hX ▸ h1
        _ < 2 ^ (53 : ℤ) * 2 ^ e := by gcongr
    have := (zpow_lt_zpow_iff_right₀ (one_lt_two : (1 : ℝ) < 2)).mp (by simpa using h)
    omega
  -- a normal value: the mantissa has 53 bits
  have hlog : Nat.log2 m = 52 := by omega
  have hm52 : 2 ^ 52 ≤ m := (Nat.le_log2 hm.ne').mp hlog.ge
  -- and below `2^32` the exponent is at most `-21`
  have he' : e ≤ -21 := by
    have h : (2 : ℝ) ^ ((52 : ℤ) + e) < 2 ^ (32 : ℤ) := by
      rw [zpow_add₀ two_ne_zero]
      calc (2 : ℝ) ^ (52 : ℤ) * 2 ^ e ≤ m * 2 ^ e := by
            gcongr
            rw [zpow_ofNat]
            exact_mod_cast hm52
        _ < 2 ^ (32 : ℤ) := by rw [← hX, zpow_ofNat]; exact h32
    have := (zpow_lt_zpow_iff_right₀ (one_lt_two : (1 : ℝ) < 2)).mp h
    omega
  refine ⟨m, (-e).toNat, hm52, hm53, by omega, by omega, ?_⟩
  rw [hX, Int.toNat_of_nonneg (by omega), neg_neg]

/-- One half less a float from one up to `2^32` is exact. -/
theorem nearest_half_sub (hx : x.isFinite = true) (h1 : 1 ≤ toReal x) (h32 : toReal x < 2 ^ 32) :
    nearest (1 / 2 - toReal x) = 1 / 2 - toReal x := by
  obtain ⟨m, k, hm52, hm53, hk21, hk52, hX⟩ := parts_of_one_le hx h1 h32
  have hk : 2 ^ (k - 1) ≤ m := (Nat.pow_le_pow_right (by norm_num) (by omega : k - 1 ≤ 52)).trans hm52
  -- `x - 1/2` is the mantissa less `2^(k-1)`, in the same units of `2^-k`
  have hdiff : toReal x - 1 / 2 = ((m - 2 ^ (k - 1) : ℕ) : ℝ) * 2 ^ (-(k : ℤ)) := by
    rw [hX, half_eq_units k (by omega), Nat.cast_sub hk, Nat.cast_pow, Nat.cast_ofNat, sub_mul]
  rw [show 1 / 2 - toReal x = -(toReal x - 1 / 2) by ring, nearest_neg, hdiff,
    nearest_natCast_mul_two_zpow ((Nat.sub_le _ _).trans_lt hm53) (by omega)]

/-- One half plus a float from one up to `2^32`, rounded, has the floor of the exact sum. -/
theorem floor_nearest_add_half (hx : x.isFinite = true) (h1 : 1 ≤ toReal x)
    (h32 : toReal x < 2 ^ 32) : ⌊nearest (toReal x + 1 / 2)⌋ = ⌊toReal x + 1 / 2⌋ := by
  obtain ⟨m, k, hm52, hm53, hk21, hk52, hX⟩ := parts_of_one_le hx h1 h32
  set n := ⌊toReal x + 1 / 2⌋ with hn
  have hlo : (n : ℝ) ≤ toReal x + 1 / 2 := Int.floor_le _
  have hhi : toReal x + 1 / 2 < n + 1 := Int.lt_floor_add_one _
  have hn1 : 1 ≤ n := Int.le_floor.mpr (by push_cast; linarith)
  have hnsmall : n.natAbs < 2 ^ 53 := by
    have : (n : ℝ) < 2 ^ 53 := by linarith [show (2 : ℝ) ^ 32 + 1 < 2 ^ 53 by norm_num]
    have : n < 2 ^ 53 := by exact_mod_cast this
    omega
  -- the exact sum: the mantissa plus `2^(k-1)`, in units of `2^-k`
  have hsum : toReal x + 1 / 2 = ((m + 2 ^ (k - 1) : ℕ) : ℝ) * 2 ^ (-(k : ℤ)) := by
    rw [hX, half_eq_units k (by omega), Nat.cast_add, Nat.cast_pow, Nat.cast_ofNat, add_mul]
  rw [Int.floor_eq_iff]
  refine ⟨?_, ?_⟩
  · -- rounding keeps the integer below the sum
    calc (n : ℝ) = nearest n := (nearest_intCast hnsmall).symm
      _ ≤ nearest (toReal x + 1 / 2) := nearest_mono hlo
  by_cases hK : m + 2 ^ (k - 1) < 2 ^ 53
  · -- the sum stays in the binade of `x` and is exact
    rw [hsum, nearest_natCast_mul_two_zpow hK (by omega), ← hsum]
    exact hhi
  · -- the sum carries to `2^(53-k)`, `2^53` units, while `x` stays below it: the floor is at least
    -- `2^(53-k)`, and rounding moves the sum by at most one half
    have hpos : (0 : ℝ) < 2 ^ (-(k : ℤ)) := by positivity
    have hunits : (2 : ℝ) ^ (53 - k) = ((2 ^ 53 : ℕ) : ℝ) * 2 ^ (-(k : ℤ)) := by
      rw [← zpow_natCast, Nat.cast_pow, Nat.cast_ofNat, ← zpow_natCast, ← zpow_add₀ two_ne_zero]
      congr 1
      omega
    have hbig : (2 : ℝ) ^ (53 - k) ≤ toReal x + 1 / 2 := by
      rw [hsum, hunits]
      exact mul_le_mul_of_nonneg_right (by exact_mod_cast not_lt.mp hK) hpos.le
    have hxN : toReal x < 2 ^ (53 - k) := by
      rw [hX, hunits]
      exact mul_lt_mul_of_pos_right (by exact_mod_cast hm53) hpos
    have hN : (2 : ℝ) ^ (53 - k) ≤ n := by
      have : ((2 ^ (53 - k) : ℕ) : ℤ) ≤ n := Int.le_floor.mpr (by push_cast; exact hbig)
      exact_mod_cast this
    have herr := abs_nearest_sub_le_half (z := toReal x + 1 / 2) (by
      rw [abs_of_pos (by linarith)]
      linarith [show (2 : ℝ) ^ 32 + 1 < 2 ^ 53 by norm_num])
    linarith [(abs_le.mp herr).2]

end Half

end RangeAdvisor.Binary64
