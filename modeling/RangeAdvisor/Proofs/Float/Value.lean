import RangeAdvisor.Proofs.Float.Arith
import RangeAdvisor.Proofs.Float.Error

/-!
# The real value of a float

`toReal x` is the real a finite float stands for. A product, quotient or sum of finite floats is
its exact result rounded with overflow (`toBinary64`): for a result of positive sign, either `+∞`
or a finite float whose value is the exact result rounded, and finite whenever the rounding stays
below `2^1024`. Adding a float of at least zero to another never lowers it. A finite float is at
most `maxFinite` in size, and one above zero is a mantissa of at most 53 bits at an exponent of at
least `-1074`. Main statements: `mul_value`, `div_value`, `of_value_eq`, `le_add_of_nonneg` and
`toReal_le_maxFinite`.
-/

set_option autoImplicit false

open Float.Model Float.Model.UnpackedFloat

namespace RangeAdvisor.Binary64

open Unpacked Rounding

/-- The real a float stands for; NaN and the infinities read as zero. -/
noncomputable def toReal (x : Float) : ℝ := real x.toModel.unpack

section Value

variable {x y w : Float}

theorem value_of_isFinite (h : x.isFinite = true) : value x = (toReal x : EReal) :=
  toEReal_of_isFinite h

theorem value_ne_top_of_isFinite (h : x.isFinite = true) : value x ≠ ⊤ := by
  rw [value_of_isFinite h]
  exact EReal.coe_ne_top _

theorem value_eq_top_iff : value x = ⊤ ↔ x.toModel.unpack = .infinity .positive := by
  unfold value
  generalize x.toModel.unpack = u
  cases u with
  | infinity s => cases s <;> simp [toEReal]
  | notANumber => simp [toEReal]
  | zero s => simp [toEReal]
  | finite s m e hm => simp [toEReal]

theorem value_eq_bot_iff : value x = ⊥ ↔ x.toModel.unpack = .infinity .negative := by
  unfold value
  generalize x.toModel.unpack = u
  cases u with
  | infinity s => cases s <;> simp [toEReal]
  | notANumber => simp [toEReal]
  | zero s => simp [toEReal]
  | finite s m e hm => simp [toEReal]

theorem isNaN_eq_false_of_isFinite (h : x.isFinite = true) : x.isNaN = false := by
  have hf : x.toModel.unpack.isFinite = true := h
  refine (isNaN_eq_false_iff x).mpr fun hnan => ?_
  rw [hnan] at hf
  cases hf

/-- Away from NaN, a float is finite exactly when its value is neither infinity. -/
theorem isFinite_of_value_ne (hnan : x.isNaN = false) (htop : value x ≠ ⊤) (hbot : value x ≠ ⊥) :
    x.isFinite = true := by
  rw [isNaN_eq_false_iff] at hnan
  rcases kind_cases hnan with h | h | h
  · exact absurd (value_eq_bot_iff.mpr h) hbot
  · exact absurd (value_eq_top_iff.mpr h) htop
  · exact h

/-- NaN and the infinities read as zero, so a float read as a real above zero is finite. -/
theorem isFinite_of_toReal_pos (h : 0 < toReal x) : x.isFinite = true := by
  unfold toReal at h
  show x.toModel.unpack.isFinite = true
  generalize x.toModel.unpack = u at h
  cases u with
  | finite s m e hm => rfl
  | zero s => rfl
  | _ => exact absurd h (lt_irrefl 0)

theorem toReal_le_of_le (hx : x.isFinite = true) (hy : y.isFinite = true) (h : x ≤ y) :
    toReal x ≤ toReal y := by
  have hv := (le_iff.mp h).2.2
  rw [value_of_isFinite hx, value_of_isFinite hy] at hv
  exact EReal.coe_le_coe_iff.mp hv

theorem lt_of_toReal_lt (hx : x.isFinite = true) (hy : y.isFinite = true)
    (h : toReal x < toReal y) : x < y :=
  lt_iff.mpr ⟨isNaN_eq_false_of_isFinite hx, isNaN_eq_false_of_isFinite hy, by
    rw [value_of_isFinite hx, value_of_isFinite hy]
    exact EReal.coe_lt_coe_iff.mpr h⟩

end Value

/-! ### Rounded operations -/

section Operations

variable {x y w : Float} {z : ℝ}

theorem mul_value (hx : x.isFinite = true) (hy : y.isFinite = true) :
    (x * y).isNaN = false ∧ value (x * y) = toBinary64 (toReal x * toReal y) := by
  obtain ⟨hne, hval⟩ := (mul_roundsTo (canonical x) (canonical y) hx hy).readBack
  exact ⟨(isNaN_eq_false_iff _).mpr hne, hval⟩

theorem add_value (hx : x.isFinite = true) (hy : y.isFinite = true) :
    (x + y).isNaN = false ∧ value (x + y) = toBinary64 (toReal x + toReal y) := by
  obtain ⟨hne, hval⟩ := (add_roundsTo (canonical x) (canonical y) hx hy).readBack
  exact ⟨(isNaN_eq_false_iff _).mpr hne, hval⟩

theorem div_value (hx : x.isFinite = true) (hy : y.isFinite = true) (hy0 : toReal y ≠ 0) :
    (x / y).isNaN = false ∧ value (x / y) = toBinary64 (toReal x / toReal y) := by
  have hyu : y.toModel.unpack.isFinite = true := hy
  rw [isNaN_eq_false_iff, value, unpack_div]
  unfold toReal at hy0 ⊢
  generalize y.toModel.unpack = v at hyu hy0 ⊢
  cases v with
  | finite s m e hm => exact (div_roundsTo hx s e hm).readBack
  | zero s => exact absurd rfl hy0
  | _ => cases hyu

/-- A float packed from a rounded result is valued at the rounding with overflow. -/
theorem ofModel_value {u : UnpackedFloat} (h : RoundsTo z u) :
    (Float.ofModel (Float.Model.pack u)).isNaN = false ∧
      value (Float.ofModel (Float.Model.pack u)) = toBinary64 z := by
  obtain ⟨hne, hval⟩ := h.readBack
  exact ⟨(isNaN_eq_false_iff _).mpr hne, hval⟩

/-- An exact result of positive sign, rounded with overflow, is `+∞` or a finite float valued at
its rounding. -/
theorem of_value_eq (hnan : w.isNaN = false) (h : value w = toBinary64 z) (hz : 0 ≤ z) :
    value w = ⊤ ∨ (w.isFinite = true ∧ toReal w = nearest z) := by
  have hn : 0 ≤ nearest z := nearest_nonneg hz
  have ho := overflow_pos
  by_cases hover : overflow ≤ nearest z
  · left
    rw [h, toBinary64, if_pos hover]
  · right
    have hcoe : value w = (nearest z : EReal) := by
      rw [h, toBinary64, if_neg hover, if_neg (by linarith)]
    have hfin := isFinite_of_value_ne hnan (by rw [hcoe]; exact EReal.coe_ne_top _)
      (by rw [hcoe]; exact EReal.coe_ne_bot _)
    refine ⟨hfin, ?_⟩
    rw [value_of_isFinite hfin] at hcoe
    exact EReal.coe_injective hcoe

/-- A rounding below `2^1024` in size is finite, and the float is valued at it. -/
theorem isFinite_of_value_eq (hnan : w.isNaN = false) (h : value w = toBinary64 z)
    (hlt : |nearest z| < overflow) : w.isFinite = true ∧ toReal w = nearest z := by
  rw [abs_lt] at hlt
  have hcoe : value w = (nearest z : EReal) := by
    rw [h, toBinary64, if_neg (not_le.mpr hlt.2), if_neg (not_le.mpr hlt.1)]
  have hfin := isFinite_of_value_ne hnan (by rw [hcoe]; exact EReal.coe_ne_top _)
    (by rw [hcoe]; exact EReal.coe_ne_bot _)
  refine ⟨hfin, ?_⟩
  rw [value_of_isFinite hfin] at hcoe
  exact EReal.coe_injective hcoe

/-- A finite float valued at an exact result of positive sign, rounded with overflow, is its
rounding. -/
theorem toReal_eq_nearest (hw : w.isFinite = true) (h : value w = toBinary64 z) (hz : 0 ≤ z) :
    toReal w = nearest z := by
  rcases of_value_eq (isNaN_eq_false_of_isFinite hw) h hz with htop | ⟨-, hreal⟩
  · exact absurd htop (value_ne_top_of_isFinite hw)
  · exact hreal

theorem toBinary64_nonneg (hz : 0 ≤ z) : 0 ≤ toBinary64 z := by
  have h0 : toBinary64 0 = 0 := by
    have ho := overflow_pos
    rw [toBinary64, nearest_zero, if_neg (not_le.mpr ho), if_neg (by linarith)]
    rfl
  rw [← h0]
  exact toBinary64_mono hz

/-- A finite float is its own rounding. -/
theorem nearest_toReal (hx : x.isFinite = true) : nearest (toReal x) = toReal x :=
  (roundsTo_real (canonical x) hx).real_eq.symm

/-- `+∞` plus anything but NaN and `-∞` is `+∞`. -/
theorem value_add_eq_top (hx : value x = ⊤) (hy : y.isNaN = false) (hyb : value y ≠ ⊥) :
    value (x + y) = ⊤ := by
  rw [value_eq_top_iff] at hx ⊢
  rw [isNaN_eq_false_iff] at hy
  rw [Ne, value_eq_bot_iff] at hyb
  rw [unpack_add, hx]
  generalize y.toModel.unpack = v at hy hyb
  cases v with
  | notANumber => exact absurd rfl hy
  | infinity s =>
    cases s
    · exact absurd rfl hyb
    · exact repack_infinity _
  | zero s => exact repack_infinity _
  | finite s m e hm => exact repack_infinity _

theorem le_of_value_eq_top (hw : value w = ⊤) (hx : x.isNaN = false) : x ≤ w := by
  have hwn : w.isNaN = false := by
    rw [isNaN_eq_false_iff, value_eq_top_iff.mp hw]
    exact fun h => by cases h
  exact le_iff.mpr ⟨hx, hwn, by rw [hw]; exact le_top⟩

/-- Adding a float of at least zero to one of at least zero never lowers it. -/
theorem le_add_of_nonneg (hx : (0 : Float) ≤ x) (hy : (0 : Float) ≤ y) : x ≤ x + y := by
  obtain ⟨-, hxn, hx0⟩ := le_iff.mp hx
  obtain ⟨-, hyn, hy0⟩ := le_iff.mp hy
  have hv0 : value 0 = 0 := rfl
  rw [hv0] at hx0 hy0
  have hxb : value x ≠ ⊥ := fun h => by rw [h] at hx0; exact absurd hx0 (by decide)
  have hyb : value y ≠ ⊥ := fun h => by rw [h] at hy0; exact absurd hy0 (by decide)
  -- an infinite operand makes the sum `+∞`
  by_cases hxt : value x = ⊤
  · exact le_of_value_eq_top (value_add_eq_top hxt hyn hyb) hxn
  by_cases hyt : value y = ⊤
  · rw [float_add_comm]
    exact le_of_value_eq_top (value_add_eq_top hyt hxn hxb) hxn
  -- two finite operands: the sum is `x + y` rounded, and rounding is monotone
  have hxf := isFinite_of_value_ne hxn hxt hxb
  have hyf := isFinite_of_value_ne hyn hyt hyb
  rw [value_of_isFinite hxf] at hx0
  rw [value_of_isFinite hyf] at hy0
  have hxr : 0 ≤ toReal x := EReal.coe_nonneg.mp hx0
  have hyr : 0 ≤ toReal y := EReal.coe_nonneg.mp hy0
  obtain ⟨hnan, hval⟩ := add_value hxf hyf
  refine le_iff.mpr ⟨hxn, hnan, ?_⟩
  rcases of_value_eq hnan hval (by linarith) with htop | ⟨hfin, hreal⟩
  · rw [htop]
    exact le_top
  · rw [value_of_isFinite hxf, value_of_isFinite hfin, hreal, EReal.coe_le_coe_iff]
    calc toReal x = nearest (toReal x) := (nearest_toReal hxf).symm
      _ ≤ nearest (toReal x + toReal y) := nearest_mono (by linarith)

end Operations

/-! ### Sizes of finite floats -/

section Size

variable {x : Float}

theorem maxFinite_lt_overflow : maxFinite < overflow := by
  unfold maxFinite overflow
  calc ((2 : ℝ) ^ 53 - 1) * 2 ^ 971 < 2 ^ 53 * 2 ^ 971 := by gcongr; norm_num
    _ = 2 ^ 1024 := by rw [← pow_add]

/-- The largest finite value is kept by rounding. -/
theorem nearest_maxFinite : nearest maxFinite = maxFinite := by
  have hint : maxFinite = ((2 ^ 53 - 1 : ℤ) : ℝ) * 2 ^ (971 : ℤ) := by
    rw [maxFinite, zpow_ofNat, Int.cast_sub, Int.cast_pow, Int.cast_ofNat, Int.cast_one]
  have hlt : |maxFinite| < 2 ^ (1024 : ℤ) := by
    rw [abs_of_pos (by unfold maxFinite; positivity), zpow_ofNat]
    exact maxFinite_lt_overflow
  have hq : quantum maxFinite ≤ 1024 - 53 := quantum_le_of_abs_lt (by norm_num) hlt
  rw [hint]
  apply nearest_intCast_mul_zpow
  rw [← hint]
  omega

/-- A finite float from bits has a mantissa of at most 53 bits at an exponent from `-1074` to
`971`. -/
theorem bounds_of_unpack {b : BitVec 64} {s : Sign} {m : ℕ} {e : ℤ} {hm : 0 < m}
    (h : UnpackedFloat.unpack .binary64 b = .finite s m e hm) : m < 2 ^ 53 ∧ -1074 ≤ e ∧ e ≤ 971 := by
  have hE := exponentField_lt b
  have hM := mantissaField_lt b
  rcases unpack_cases b with ⟨-, -, hu⟩ | ⟨-, -, hu⟩ | ⟨-, -, hu⟩ | ⟨-, hp, hu⟩ | ⟨h0, h2047, hp, hu⟩ <;>
    rw [hu] at h <;> cases h
  · exact ⟨by omega, le_rfl, by norm_num⟩
  · exact ⟨by omega, by omega, by omega⟩

theorem parts_of_pos (h : x.isFinite = true) (hpos : 0 < toReal x) :
    ∃ m e, ∃ hm : 0 < m, x.toModel.unpack = .finite .positive m e hm ∧ m < 2 ^ 53 ∧ -1074 ≤ e ∧
      e ≤ 971 := by
  have hf : x.toModel.unpack.isFinite = true := h
  have hb : ∀ {s : Sign} {m : ℕ} {e : ℤ} {hm : 0 < m}, x.toModel.unpack = .finite s m e hm →
      m < 2 ^ 53 ∧ -1074 ≤ e ∧ e ≤ 971 := fun hu => bounds_of_unpack hu
  unfold toReal at hpos
  generalize x.toModel.unpack = u at hf hpos hb ⊢
  cases u with
  | finite s m e hm =>
    cases s
    · have : (0 : ℝ) < m * 2 ^ e := by positivity
      exact absurd hpos (not_lt.mpr (by simp only [real, signed]; linarith))
    · exact ⟨m, e, hm, rfl, hb rfl⟩
  | zero s => exact absurd hpos (lt_irrefl _)
  | _ => cases hf

/-- No finite float exceeds `maxFinite` in size. -/
theorem toReal_le_maxFinite (h : x.isFinite = true) : toReal x ≤ maxFinite := by
  rcases le_or_gt (toReal x) 0 with hle | hpos
  · exact hle.trans (by unfold maxFinite; positivity)
  obtain ⟨m, e, hm, hu, hm53, -, he⟩ := parts_of_pos h hpos
  rw [toReal, hu]
  show (m : ℝ) * 2 ^ e ≤ (2 ^ 53 - 1) * 2 ^ 971
  have hm' : (m : ℝ) ≤ 2 ^ 53 - 1 := by
    have : (m : ℝ) + 1 ≤ 2 ^ 53 := by exact_mod_cast (show m + 1 ≤ 2 ^ 53 by omega)
    linarith
  calc (m : ℝ) * 2 ^ e ≤ (2 ^ 53 - 1) * 2 ^ e := by gcongr
    _ ≤ (2 ^ 53 - 1) * 2 ^ (971 : ℤ) := by gcongr; norm_num
    _ = (2 ^ 53 - 1) * 2 ^ 971 := by rw [zpow_ofNat]

/-- No finite float above zero is below the least subnormal, `2^-1074`. -/
theorem two_zpow_le_toReal (h : x.isFinite = true) (hpos : 0 < toReal x) :
    2 ^ (-1074 : ℤ) ≤ toReal x := by
  obtain ⟨m, e, hm, hu, -, he, -⟩ := parts_of_pos h hpos
  rw [toReal, hu]
  show 2 ^ (-1074 : ℤ) ≤ (m : ℝ) * 2 ^ e
  calc (2 : ℝ) ^ (-1074 : ℤ) ≤ 2 ^ e := zpow_le_zpow_right₀ one_le_two he
    _ ≤ m * 2 ^ e := le_mul_of_one_le_left (by positivity) (by exact_mod_cast hm)

/-- A finite float valued at zero is a zero. -/
theorem unpack_of_toReal_eq_zero (h : x.isFinite = true) (h0 : toReal x = 0) :
    ∃ s, x.toModel.unpack = .zero s := by
  have hf : x.toModel.unpack.isFinite = true := h
  unfold toReal at h0
  generalize x.toModel.unpack = u at hf h0 ⊢
  cases u with
  | zero s => exact ⟨s, rfl⟩
  | finite s m e hm =>
    have : (0 : ℝ) < m * 2 ^ e := by positivity
    cases s <;> simp only [real, signed] at h0 <;> linarith
  | _ => cases hf

end Size

/-! ### Natural numbers as floats -/

section Conversion

/-- A natural number below `2^53` converts to a finite float valued at the number itself. -/
theorem ofNat_value {n : ℕ} (hn : n < 2 ^ 53) :
    (Float.ofNat n).isFinite = true ∧ toReal (Float.ofNat n) = n := by
  -- below `2^53` the conversion is the integer, rounded, times the exact `1` of a table
  obtain ⟨one, hfast, hone⟩ : ∃ one : Float, Float.ofNat n = n.toUInt64.toFloat * one ∧
      one.toModel.unpack = .finite .positive (2 ^ 52) (-52) (by decide) := by
    refine ⟨?one, ?fast, ?exact⟩
    case fast =>
      show Float.ofScientific n false 0 = _
      rw [Float.ofScientific, dif_pos ⟨hn, by omega⟩]
      rfl
    case exact =>
      -- the entry read at a closed bound, which evaluates
      show (GetElem.getElem Float.exactlyRepresentablePowersOfTen 0 (by decide)).toModel.unpack = _
      rfl
  have hconv : n.toUInt64.toFloat =
      Float.ofModel (Float.Model.pack (UnpackedFloat.normalize .binary64 n 0 .positive)) := by
    show Float.ofModel (Float.Model.pack
      (UnpackedFloat.normalize .binary64 (n.toUInt64.toNat : ℤ) 0 .positive)) = _
    rw [show n.toUInt64.toNat = n from Nat.mod_eq_of_lt (by omega)]
  have hexact : nearest (n : ℝ) = n := nearest_natCast hn
  have hsmall : |nearest (n : ℝ)| < overflow := by
    rw [hexact, abs_of_nonneg (Nat.cast_nonneg _), overflow]
    calc (n : ℝ) < 2 ^ 53 := by exact_mod_cast hn
      _ ≤ 2 ^ 1024 := pow_le_pow_right₀ one_le_two (by norm_num)
  -- the integer itself converts exactly
  have hround := normalize_roundsTo n 0 .positive
  rw [zpow_zero, mul_one, Int.cast_natCast] at hround
  obtain ⟨hnan, hval⟩ := ofModel_value hround
  rw [← hconv] at hnan hval
  obtain ⟨hfin, hreal⟩ := isFinite_of_value_eq hnan hval hsmall
  -- and the product by `1` is exact
  have honeFin : one.isFinite = true := by
    show one.toModel.unpack.isFinite = true
    rw [hone]
    rfl
  have honeReal : toReal one = 1 := by
    rw [toReal, hone]
    show ((2 ^ 52 : ℕ) : ℝ) * 2 ^ (-52 : ℤ) = 1
    rw [Nat.cast_pow, Nat.cast_ofNat, ← zpow_natCast, ← zpow_add₀ two_ne_zero]
    norm_num
  obtain ⟨hnan', hval'⟩ := mul_value hfin honeFin
  rw [hreal, hexact, honeReal, mul_one] at hval'
  rw [hfast]
  obtain ⟨hfin', hreal'⟩ := isFinite_of_value_eq hnan' hval' hsmall
  exact ⟨hfin', hreal'.trans hexact⟩

/-- Past `2^53` the model rounds `n · 2^53` at the exponent `-53`, a product by `10^0`: the
conversion is `n` rounded with overflow. -/
theorem ofNat_value_of_large {n : ℕ} (hn : 2 ^ 53 ≤ n) :
    (Float.ofNat n).isNaN = false ∧ value (Float.ofNat n) = toBinary64 n := by
  have hm : 0 < n <<< 53 := by rw [Nat.shiftLeft_eq]; positivity
  have hslow : Float.ofNat n = Float.ofModel (Float.Model.pack
      (mul .binary64 (.finite .positive (n <<< 53) (-53) hm) (.finite .positive 1 0 Nat.one_pos))) := by
    show Float.ofScientific n false 0 = _
    rw [Float.ofScientific, dif_neg (by omega)]
    have h1 : ¬ (Int.ofNat 0 > 2 ^ 11) := by decide
    have h2 : ¬ (Int.ofNat 0 < -(2 ^ 11 + (n.log2 : ℤ))) := by
      simp only [Int.ofNat_eq_natCast, Nat.cast_zero]
      omega
    simp only [Float.Model.ofScientific, UnpackedFloat.ofScientific, Bool.false_eq_true, if_false,
      dif_neg (show n ≠ 0 by omega), if_neg h1, if_neg h2, if_pos (show (0:ℤ) ≤ Int.ofNat 0 from le_refl _)]
    have hb : Format.binary64.mantissaBits = 53 := rfl
    have h10 : (10 : ℕ) ^ (Int.ofNat 0).toNat = 1 := rfl
    simp only [hb, h10]
    rfl
  have hmul : mul .binary64 (.finite .positive (n <<< 53) (-53) hm) (.finite .positive 1 0 Nat.one_pos) =
      roundWithAccuracy .binary64 .positive (n <<< 53 * 1) (-53 + 0) .exact := rfl
  have hshift : n <<< 53 * 1 = n * 2 ^ 53 := by rw [Nat.shiftLeft_eq, Nat.mul_one]
  rw [hmul, hshift, show (-53 + 0 : ℤ) = -53 from rfl] at hslow
  have he : (-53 : ℤ) ≤ target (n * 2 ^ 53) (-53) := by
    have hlog : 53 ≤ Nat.log2 (n * 2 ^ 53) := (Nat.le_log2 (by positivity)).mpr (by omega)
    rw [target_eq]
    omega
  have hround := roundWithAccuracy_exact .positive (n * 2 ^ 53) he
  have hz : signed .positive (((n * 2 ^ 53 : ℕ) : ℝ) * 2 ^ (-53 : ℤ)) = n := by
    rw [signed, Nat.cast_mul, Nat.cast_pow, Nat.cast_ofNat, mul_assoc, ← zpow_natCast,
      ← zpow_add₀ two_ne_zero]
    norm_num
  rw [hz] at hround
  obtain ⟨hnan, hval⟩ := ofModel_value hround
  rw [← hslow] at hnan hval
  exact ⟨hnan, hval⟩

/-- A natural number converts to its rounding with overflow. -/
theorem ofNat_value_eq (n : ℕ) :
    (Float.ofNat n).isNaN = false ∧ value (Float.ofNat n) = toBinary64 n := by
  by_cases hsmall : n < 2 ^ 53
  · obtain ⟨hf, hr⟩ := ofNat_value hsmall
    refine ⟨isNaN_eq_false_of_isFinite hf, ?_⟩
    have hlt : (n : ℝ) < overflow := by
      rw [overflow]
      calc (n : ℝ) < 2 ^ 53 := by exact_mod_cast hsmall
        _ ≤ 2 ^ 1024 := pow_le_pow_right₀ one_le_two (by norm_num)
    have hov := overflow_pos
    rw [value_of_isFinite hf, hr, toBinary64, nearest_natCast hsmall, if_neg (by linarith),
      if_neg (by linarith [(Nat.cast_nonneg n : (0 : ℝ) ≤ n)])]
  · exact ofNat_value_of_large (by omega)

/-- Converting natural numbers keeps their order. -/
theorem ofNat_mono {m n : ℕ} (h : m ≤ n) : Float.ofNat m ≤ Float.ofNat n := by
  obtain ⟨hm, hvm⟩ := ofNat_value_eq m
  obtain ⟨hn, hvn⟩ := ofNat_value_eq n
  exact le_iff.mpr ⟨hm, hn, by rw [hvm, hvn]; exact toBinary64_mono (by exact_mod_cast h)⟩

/-- A natural number from one to below `2^64`, the range of a 64-bit count, converts to a finite
float of value at least one. -/
theorem ofNat_pos {n : ℕ} (h1 : 1 ≤ n) (hn : n < 2 ^ 64) :
    (Float.ofNat n).isFinite = true ∧ 1 ≤ toReal (Float.ofNat n) := by
  by_cases hsmall : n < 2 ^ 53
  · obtain ⟨hf, hr⟩ := ofNat_value hsmall
    exact ⟨hf, by rw [hr]; exact_mod_cast h1⟩
  obtain ⟨hnan, hval⟩ := ofNat_value_of_large (n := n) (by omega)
  have hup : nearest (n : ℝ) ≤ 2 ^ 64 := by
    have := nearest_mono (show (n : ℝ) ≤ (2 : ℝ) ^ (64 : ℤ) by
      rw [zpow_ofNat]; exact_mod_cast hn.le)
    rwa [nearest_two_zpow (by norm_num), zpow_ofNat] at this
  have hlow : 1 ≤ nearest (n : ℝ) := by
    have := nearest_mono (show (1 : ℝ) ≤ n by exact_mod_cast h1)
    rwa [nearest_one] at this
  obtain ⟨hfin, hreal⟩ := isFinite_of_value_eq hnan hval (by
    rw [abs_of_pos (by linarith), overflow]
    calc nearest (n : ℝ) ≤ 2 ^ 64 := hup
      _ < 2 ^ 1024 := pow_lt_pow_right₀ one_lt_two (by norm_num))
  exact ⟨hfin, hreal ▸ hlow⟩

end Conversion

end RangeAdvisor.Binary64
