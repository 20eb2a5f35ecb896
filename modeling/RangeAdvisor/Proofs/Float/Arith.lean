import RangeAdvisor.Proofs.Float.Order

/-!
# Monotone float arithmetic

Rounding a real to binary64 overflows to an infinity once the rounded value reaches `2^1024` in
size. A float operation that keeps each infinity where it is and rounds a monotone function of a
finite operand is monotone on floats; one that swaps the infinities and rounds an antitone function
is antitone. Adding a finite constant and multiplying by a finite constant of either sign are such
operations. Main statements: `Binary64.mul_le_mul_of_pos`, `Binary64.mul_le_mul_of_neg` and
`Binary64.add_le_add_right`.
-/

set_option autoImplicit false

open Float.Model Float.Model.UnpackedFloat

namespace RangeAdvisor

namespace Rounding

/-- `x` rounded to binary64 with overflow: a rounding of size `2^1024` or more is infinite. -/
noncomputable def toBinary64 (x : ℝ) : EReal :=
  if overflow ≤ nearest x then ⊤ else if nearest x ≤ -overflow then ⊥ else (nearest x : EReal)

theorem toBinary64_mono : Monotone toBinary64 := by
  intro x y hxy
  have h := nearest_mono hxy
  unfold toBinary64
  by_cases hy : overflow ≤ nearest y
  · rw [if_pos hy]
    exact le_top
  rw [if_neg hy, if_neg (fun hx => hy (hx.trans h))]
  by_cases hx : nearest x ≤ -overflow
  · rw [if_pos hx]
    exact bot_le
  rw [if_neg hx, if_neg (fun hy' => hx (h.trans hy'))]
  exact EReal.coe_le_coe_iff.mpr h

end Rounding

namespace Unpacked

open Rounding

/-- Packing to bits and reading back. -/
def repack (u : UnpackedFloat) : UnpackedFloat :=
  UnpackedFloat.unpack .binary64 (UnpackedFloat.pack .binary64 u)

theorem repack_infinity (s : Sign) : repack (.infinity s) = .infinity s := unpack_pack_infinity s

theorem overflow_eq (a : ℕ) (b : ℤ) (h : (a : ℤ) + b = 1024) : overflow = 2 ^ a * 2 ^ b := by
  rw [overflow, ← zpow_natCast, ← zpow_natCast, ← zpow_add₀ two_ne_zero, h]
  rfl

/-- Past the largest exponent a canonical value is at least `2^1024` in size, below it less. -/
theorem overflow_iff {m : ℕ} (hm : 0 < m) {e : ℤ} (hc : target m e = e) :
    972 ≤ e ↔ overflow ≤ m * 2 ^ e := by
  rw [target_eq] at hc
  have hbits : m < 2 ^ 53 := (Nat.log2_lt hm.ne').mp (by omega)
  constructor
  · intro he
    have hnormal : 2 ^ 52 ≤ m := (Nat.le_log2 hm.ne').mp (by omega)
    rw [overflow_eq 52 972 (by norm_num)]
    gcongr
    · exact_mod_cast hnormal
    · norm_num
  · intro hbig
    by_contra he
    have : (m : ℝ) * 2 ^ e < overflow := by
      rw [overflow_eq 53 971 (by norm_num)]
      calc (m : ℝ) * 2 ^ e < 2 ^ 53 * 2 ^ e := by gcongr; exact_mod_cast hbits
        _ ≤ 2 ^ 53 * 2 ^ (971 : ℤ) := by gcongr; norm_num; omega
    linarith

/-- A rounded result reads back as the rounding with overflow. -/
theorem RoundsTo.readBack {x : ℝ} {u : UnpackedFloat} (h : RoundsTo x u) :
    repack u ≠ .notANumber ∧ toEReal (repack u) = toBinary64 x := by
  have hbound := overflow_pos
  cases u with
  | zero s =>
    refine ⟨by rw [repack, unpack_pack_zero]; exact fun h => (by cases h), ?_⟩
    rw [repack, unpack_pack_zero, toBinary64, show nearest x = 0 from h, if_neg (by linarith),
      if_neg (by linarith)]
    rfl
  | finite s m e hm =>
    obtain ⟨hc, hval⟩ := h
    have hpos : (0 : ℝ) < m * 2 ^ e := by positivity
    rw [repack, unpack_pack_finite s hm hc]
    by_cases hover : 972 ≤ e
    · -- overflow to the infinity of the sign
      rw [if_pos hover]
      have hbig := (overflow_iff hm hc).mp hover
      refine ⟨fun h => (by cases h), ?_⟩
      cases s
      · rw [toBinary64, ← hval, signed, if_neg (by linarith), if_pos (by linarith)]
        rfl
      · rw [toBinary64, ← hval, signed, if_pos hbig]
        rfl
    · rw [if_neg hover]
      have hsmall : (m : ℝ) * 2 ^ e < overflow := not_le.mp (mt (overflow_iff hm hc).mpr hover)
      refine ⟨fun h => (by cases h), ?_⟩
      rw [toBinary64, ← hval]
      cases s
      · rw [signed, if_neg (by linarith), if_neg (by linarith)]
        rfl
      · rw [signed, if_neg (by linarith), if_neg (by linarith)]
        rfl
  | _ => exact h.elim

theorem kind_cases {u : UnpackedFloat} (hu : u ≠ .notANumber) :
    u = .infinity .negative ∨ u = .infinity .positive ∨ u.isFinite = true := by
  cases u with
  | notANumber => exact absurd rfl hu
  | infinity s => cases s <;> simp
  | zero s => exact .inr (.inr rfl)
  | finite s m e hm => exact .inr (.inr rfl)

/-- How an operation on one float acts: where it sends each infinity, and that it rounds `g` of a
finite value. -/
structure Acts (f : UnpackedFloat → UnpackedFloat) (g : ℝ → ℝ) (atBot atTop : Sign) : Prop where
  bot : f (.infinity .negative) = .infinity atBot
  top : f (.infinity .positive) = .infinity atTop
  fin : ∀ u, Canonical u → u.isFinite = true → RoundsTo (g (real u)) (f u)

section Acts

variable {f : UnpackedFloat → UnpackedFloat} {g : ℝ → ℝ} {atBot atTop : Sign}
  {u v : UnpackedFloat}

theorem Acts.repack_ne (hf : Acts f g atBot atTop) (hu : Canonical u) (hnu : u ≠ .notANumber) :
    repack (f u) ≠ .notANumber := by
  rcases kind_cases hnu with rfl | rfl | hfin
  · rw [hf.bot, repack_infinity]
    exact fun h => by cases h
  · rw [hf.top, repack_infinity]
    exact fun h => by cases h
  · exact (hf.fin u hu hfin).readBack.1

/-- An operation that keeps the infinities in place and rounds a monotone function is monotone. -/
theorem Acts.mono (hf : Acts f g .negative .positive) (hg : Monotone g) (hu : Canonical u)
    (hv : Canonical v) (hnu : u ≠ .notANumber) (hnv : v ≠ .notANumber) (h : toEReal u ≤ toEReal v) :
    toEReal (repack (f u)) ≤ toEReal (repack (f v)) := by
  rcases kind_cases hnu with rfl | rfl | hfu
  · rw [hf.bot, repack_infinity]
    exact bot_le
  · -- only the positive infinity lies above the positive infinity
    rcases kind_cases hnv with rfl | rfl | hfv
    · exact absurd h (by simp [toEReal])
    · exact le_rfl
    · rw [toEReal_of_isFinite hfv] at h
      exact absurd h (by simp [toEReal])
  · rcases kind_cases hnv with rfl | rfl | hfv
    · rw [toEReal_of_isFinite hfu] at h
      exact absurd h (by simp [toEReal])
    · rw [hf.top, repack_infinity]
      exact le_top
    · rw [(hf.fin u hu hfu).readBack.2, (hf.fin v hv hfv).readBack.2]
      rw [toEReal_of_isFinite hfu, toEReal_of_isFinite hfv, EReal.coe_le_coe_iff] at h
      exact toBinary64_mono (hg h)

/-- An operation that swaps the infinities and rounds an antitone function is antitone. -/
theorem Acts.anti (hf : Acts f g .positive .negative) (hg : Antitone g) (hu : Canonical u)
    (hv : Canonical v) (hnu : u ≠ .notANumber) (hnv : v ≠ .notANumber) (h : toEReal u ≤ toEReal v) :
    toEReal (repack (f v)) ≤ toEReal (repack (f u)) := by
  rcases kind_cases hnu with rfl | rfl | hfu
  · rw [hf.bot, repack_infinity]
    exact le_top
  · rcases kind_cases hnv with rfl | rfl | hfv
    · exact absurd h (by simp [toEReal])
    · exact le_rfl
    · rw [toEReal_of_isFinite hfv] at h
      exact absurd h (by simp [toEReal])
  · rcases kind_cases hnv with rfl | rfl | hfv
    · rw [toEReal_of_isFinite hfu] at h
      exact absurd h (by simp [toEReal])
    · rw [hf.top, repack_infinity]
      exact bot_le
    · rw [(hf.fin u hu hfu).readBack.2, (hf.fin v hv hfv).readBack.2]
      rw [toEReal_of_isFinite hfu, toEReal_of_isFinite hfv, EReal.coe_le_coe_iff] at h
      exact toBinary64_mono (hg h)

end Acts

/-! ### Sums and products with a finite constant -/

section Constant

variable {w : UnpackedFloat}

theorem acts_add_right (hw : Canonical w) (hfw : w.isFinite = true) :
    Acts (fun u => add .binary64 u w) (· + real w) .negative .positive := by
  refine ⟨?_, ?_, fun u hu hfu => add_roundsTo hu hw hfu hfw⟩ <;>
  · cases w <;> first | rfl | cases hfw

theorem acts_mul_pos {m : ℕ} {e : ℤ} (hm : 0 < m) (hc : target m e = e) :
    Acts (fun u => mul .binary64 u (.finite .positive m e hm)) (· * (m * 2 ^ e)) .negative .positive :=
  ⟨rfl, rfl, fun _ hu hfu => mul_roundsTo hu hc hfu rfl⟩

theorem acts_mul_neg {m : ℕ} {e : ℤ} (hm : 0 < m) (hc : target m e = e) :
    Acts (fun u => mul .binary64 u (.finite .negative m e hm)) (· * -(m * 2 ^ e)) .positive .negative :=
  ⟨rfl, rfl, fun _ hu hfu => mul_roundsTo hu hc hfu rfl⟩

end Constant

theorem sign_mul_comm (a b : Sign) : a * b = b * a := by cases a <;> cases b <;> rfl

theorem unpacked_mul_comm (u v : UnpackedFloat) : mul .binary64 u v = mul .binary64 v u := by
  cases u <;> cases v <;> simp only [UnpackedFloat.mul, sign_mul_comm, Nat.mul_comm, add_comm]

theorem unpacked_add_comm (u v : UnpackedFloat) : add .binary64 u v = add .binary64 v u := by
  cases u <;> cases v
  all_goals simp only [UnpackedFloat.add, min_comm, add_comm]
  -- two infinities or two zeros: the result depends on whether the signs agree
  all_goals rename_i s₁ s₂; cases s₁ <;> cases s₂ <;> rfl

end Unpacked

namespace Binary64

open Unpacked Rounding

theorem unpack_zero : (0 : Float).toModel.unpack = .zero .positive := rfl

/-- A finite float above zero is a positive canonical finite value. -/
theorem unpack_of_pos {c : Float} (hpos : (0 : Float) < c) (hfin : c.isFinite = true) :
    ∃ m e, ∃ hm : 0 < m, c.toModel.unpack = .finite .positive m e hm := by
  obtain ⟨-, -, h⟩ := lt_iff.mp hpos
  rw [value, value, unpack_zero] at h
  have hf : c.toModel.unpack.isFinite = true := hfin
  generalize c.toModel.unpack = u at h hf
  cases u with
  | zero s => exact absurd h (lt_irrefl _)
  | finite s m e hm =>
    cases s
    · have : (0 : ℝ) < m * 2 ^ e := by positivity
      exact absurd h (not_lt.mpr (EReal.coe_le_coe_iff.mpr (by simp [real, signed]; linarith)))
    · exact ⟨m, e, hm, rfl⟩
  | _ => cases hf

/-- A finite float below zero is a negative canonical finite value. -/
theorem unpack_of_neg {c : Float} (hneg : c < (0 : Float)) (hfin : c.isFinite = true) :
    ∃ m e, ∃ hm : 0 < m, c.toModel.unpack = .finite .negative m e hm := by
  obtain ⟨-, -, h⟩ := lt_iff.mp hneg
  rw [value, value, unpack_zero] at h
  have hf : c.toModel.unpack.isFinite = true := hfin
  generalize c.toModel.unpack = u at h hf
  cases u with
  | zero s => exact absurd h (lt_irrefl _)
  | finite s m e hm =>
    cases s
    · exact ⟨m, e, hm, rfl⟩
    · have : (0 : ℝ) < m * 2 ^ e := by positivity
      exact absurd h (not_lt.mpr (EReal.coe_le_coe_iff.mpr (by simp [real, signed]; linarith)))
  | _ => cases hf

section Monotone

variable {x y c : Float}

theorem unpack_mul (x y : Float) :
    (x * y).toModel.unpack = repack (mul .binary64 x.toModel.unpack y.toModel.unpack) := rfl

theorem unpack_add (x y : Float) :
    (x + y).toModel.unpack = repack (add .binary64 x.toModel.unpack y.toModel.unpack) := rfl

theorem float_mul_comm (x y : Float) : x * y = y * x := by
  show Float.ofModel (Float.Model.pack (mul .binary64 x.toModel.unpack y.toModel.unpack)) =
    Float.ofModel (Float.Model.pack (mul .binary64 y.toModel.unpack x.toModel.unpack))
  rw [unpacked_mul_comm]

theorem float_add_comm (x y : Float) : x + y = y + x := by
  show Float.ofModel (Float.Model.pack (add .binary64 x.toModel.unpack y.toModel.unpack)) =
    Float.ofModel (Float.Model.pack (add .binary64 y.toModel.unpack x.toModel.unpack))
  rw [unpacked_add_comm]

/-- Multiplying by a finite constant above zero keeps the order. -/
theorem mul_le_mul_of_pos (hpos : (0 : Float) < c) (hfin : c.isFinite = true) (h : x ≤ y) :
    x * c ≤ y * c := by
  obtain ⟨m, e, hm, hc⟩ := unpack_of_pos hpos hfin
  have hcanon : target m e = e := by have := canonical c; rwa [hc] at this
  have hf := acts_mul_pos hm hcanon
  obtain ⟨hx, hy, hxy⟩ := le_iff.mp h
  rw [isNaN_eq_false_iff] at hx hy
  apply le_iff.mpr
  rw [isNaN_eq_false_iff, isNaN_eq_false_iff, value, value, unpack_mul, unpack_mul, hc]
  exact ⟨hf.repack_ne (canonical x) hx, hf.repack_ne (canonical y) hy,
    hf.mono (fun a b hab => mul_le_mul_of_nonneg_right hab (by positivity)) (canonical x) (canonical y)
      hx hy hxy⟩

/-- Multiplying by a finite constant below zero reverses the order. -/
theorem mul_le_mul_of_neg (hneg : c < (0 : Float)) (hfin : c.isFinite = true) (h : x ≤ y) :
    y * c ≤ x * c := by
  obtain ⟨m, e, hm, hc⟩ := unpack_of_neg hneg hfin
  have hcanon : target m e = e := by have := canonical c; rwa [hc] at this
  have hf := acts_mul_neg hm hcanon
  obtain ⟨hx, hy, hxy⟩ := le_iff.mp h
  rw [isNaN_eq_false_iff] at hx hy
  apply le_iff.mpr
  rw [isNaN_eq_false_iff, isNaN_eq_false_iff, value, value, unpack_mul, unpack_mul, hc]
  have hpos : (0 : ℝ) < m * 2 ^ e := by positivity
  exact ⟨hf.repack_ne (canonical y) hy, hf.repack_ne (canonical x) hx,
    hf.anti (fun a b hab => mul_le_mul_of_nonpos_right hab (by linarith)) (canonical x) (canonical y)
      hx hy hxy⟩

/-- Adding a finite constant keeps the order. -/
theorem add_le_add_right (hfin : c.isFinite = true) (h : x ≤ y) : x + c ≤ y + c := by
  have hf := acts_add_right (canonical c) hfin
  obtain ⟨hx, hy, hxy⟩ := le_iff.mp h
  rw [isNaN_eq_false_iff] at hx hy
  apply le_iff.mpr
  rw [isNaN_eq_false_iff, isNaN_eq_false_iff, value, value, unpack_add, unpack_add]
  exact ⟨hf.repack_ne (canonical x) hx, hf.repack_ne (canonical y) hy,
    hf.mono (fun a b hab => by simp only; linarith) (canonical x) (canonical y) hx hy hxy⟩

theorem add_le_add_left (hfin : c.isFinite = true) (h : x ≤ y) : c + x ≤ c + y := by
  rw [float_add_comm c x, float_add_comm c y]
  exact add_le_add_right hfin h

end Monotone

end Binary64

/-! ### Signs -/

namespace Unpacked

/-- An unpacked float of positive sign, or NaN. -/
def NonNeg : UnpackedFloat → Prop
  | .infinity s | .zero s | .finite s _ _ _ => s = .positive
  | .notANumber => True

section NonNeg

variable {u : UnpackedFloat}

theorem nonNeg_abs (u : UnpackedFloat) : NonNeg u.abs := by
  cases u <;> trivial

theorem nonNeg_roundWithAccuracy (m : ℕ) (e : ℤ) (acc : Accuracy) :
    NonNeg (roundWithAccuracy .binary64 .positive m e acc) := by
  unfold roundWithAccuracy
  split
  dsimp only
  split <;> trivial

/-- Dividing by a float of positive sign keeps the sign. -/
theorem nonNeg_div {v : UnpackedFloat} (hu : NonNeg u) (hv : NonNeg v) : NonNeg (div .binary64 u v) := by
  cases u with
  | notANumber => trivial
  | infinity s₁ =>
    obtain rfl : s₁ = .positive := hu
    cases v with
    | notANumber => trivial
    | infinity s₂ => trivial
    | zero s₂ =>
      obtain rfl : s₂ = .positive := hv
      rfl
    | finite s₂ m₂ e₂ h₂ =>
      obtain rfl : s₂ = .positive := hv
      rfl
  | zero s₁ =>
    obtain rfl : s₁ = .positive := hu
    cases v with
    | notANumber => trivial
    | infinity s₂ =>
      obtain rfl : s₂ = .positive := hv
      rfl
    | zero s₂ => trivial
    | finite s₂ m₂ e₂ h₂ =>
      obtain rfl : s₂ = .positive := hv
      rfl
  | finite s₁ m₁ e₁ h₁ =>
    obtain rfl : s₁ = .positive := hu
    cases v with
    | notANumber => trivial
    | infinity s₂ =>
      obtain rfl : s₂ = .positive := hv
      rfl
    | zero s₂ =>
      obtain rfl : s₂ = .positive := hv
      rfl
    | finite s₂ m₂ e₂ h₂ =>
      obtain rfl : s₂ = .positive := hv
      exact nonNeg_roundWithAccuracy _ _ _

theorem nonNeg_unpack (b : BitVec 64) (h : signField b = .positive) :
    NonNeg (UnpackedFloat.unpack .binary64 b) := by
  rcases unpack_cases b with ⟨-, -, hu⟩ | ⟨-, -, hu⟩ | ⟨-, -, hu⟩ | ⟨-, hpos, hu⟩ | ⟨-, -, hpos, hu⟩ <;>
    rw [hu] <;> first | exact h | trivial

theorem signField_pack (hu : NonNeg u) (hn : u ≠ .notANumber) :
    signField (UnpackedFloat.pack .binary64 u) = .positive := by
  cases u with
  | notANumber => exact absurd rfl hn
  | infinity s =>
    cases hu
    exact signField_packComponents _ _ _
  | zero s =>
    cases hu
    exact signField_packComponents _ _ _
  | finite s m e hm =>
    cases hu
    rw [pack_finite]
    split
    · exact signField_packComponents _ _ _
    · split <;> exact signField_packComponents _ _ _

theorem nonNeg_repack (hu : NonNeg u) : NonNeg (repack u) := by
  by_cases hn : u = .notANumber
  · rw [hn]
    trivial
  · exact nonNeg_unpack _ (signField_pack hu hn)

theorem toEReal_nonneg (hu : NonNeg u) : 0 ≤ toEReal u := by
  cases u with
  | notANumber => exact le_rfl
  | infinity s =>
    cases hu
    exact le_top
  | zero s => exact le_rfl
  | finite s m e hm =>
    cases hu
    exact EReal.coe_nonneg.mpr (show (0 : ℝ) ≤ m * 2 ^ e by positivity)

end NonNeg

end Unpacked

namespace Binary64

open Unpacked

theorem unpack_abs (x : Float) : x.abs.toModel.unpack = repack x.toModel.unpack.abs := rfl

theorem unpack_div (x y : Float) :
    (x / y).toModel.unpack = repack (div .binary64 x.toModel.unpack y.toModel.unpack) := rfl

theorem zero_le_of_nonNeg {x : Float} (hx : x.isNaN = false) (h : NonNeg x.toModel.unpack) :
    (0 : Float) ≤ x :=
  le_iff.mpr ⟨rfl, hx, by rw [value, value, unpack_zero]; exact toEReal_nonneg h⟩

end Binary64

end RangeAdvisor
