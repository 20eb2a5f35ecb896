import RangeAdvisor.Proofs.Float.Arith
import RangeAdvisor.Proofs.Saturating

/-!
# Floors of floats as 32-bit integers

`Saturating.floorOf` reads a float's parts and floors them exactly: the floor of the value, stopped
at the ends of the 32-bit range, with the infinities at the ends and NaN at zero. Away from NaN it is
therefore a monotone function of the float's value, and so is `roundHalfUp`, which floors after
adding one half in floats. A zero, and so any product with a zero factor, rounds to zero. Main
statements: `Saturating.floorOf_mono`, `Saturating.roundHalfUp_mono`.
-/

set_option autoImplicit false

open Float.Model Float.Model.UnpackedFloat

namespace RangeAdvisor

open Unpacked

/-- The floor computed on the parts is the floor of the value they stand for. -/
theorem Binary64.floorOf_parts (s : Sign) (m : ℕ) (e : ℤ) :
    Binary64.floorOf (s == .negative) m e = ⌊signed s ((m : ℝ) * 2 ^ e)⌋ := by
  have hq : signed s ((m : ℝ) * 2 ^ e) =
      ((if (s == .negative) = true then -(m : ℤ) else (m : ℤ) : ℤ) : ℝ) * 2 ^ e := by
    cases s
    · show -((m : ℝ) * 2 ^ e) = ((-(m : ℤ) : ℤ) : ℝ) * 2 ^ e
      push_cast
      ring
    · show (m : ℝ) * 2 ^ e = ((m : ℤ) : ℝ) * 2 ^ e
      push_cast
      ring
  rw [hq]
  unfold Binary64.floorOf
  simp only [Nat.pow_eq]
  generalize (if (s == .negative) = true then -(m : ℤ) else (m : ℤ)) = q
  split
  · rename_i he
    -- a non-negative exponent scales by an integer
    obtain ⟨k, rfl⟩ := Int.eq_ofNat_of_zero_le he
    rw [zpow_natCast, Int.toNat_natCast]
    exact_mod_cast (Int.floor_intCast (q * 2 ^ k : ℤ)).symm
  · rename_i he
    -- a negative exponent divides by a power of two, which floors
    obtain ⟨k, hk⟩ : ∃ k : ℕ, e = -(k : ℤ) := ⟨(-e).toNat, by omega⟩
    subst hk
    rw [zpow_neg, zpow_natCast, ← div_eq_mul_inv, neg_neg, Int.toNat_natCast]
    have h := Int.floor_div_natCast (q : ℝ) (2 ^ k)
    rw [Int.floor_intCast] at h
    exact_mod_cast h.symm

/-- The nearest integer computed on the parts is the value rounded, a tie going away from zero. -/
theorem Binary64.roundOf_parts (s : Sign) (m : ℕ) (e : ℤ) :
    Binary64.roundOf (s == .negative) m e = Rounding.roundAway (signed s ((m : ℝ) * 2 ^ e)) := by
  -- the magnitude is rounded half up, `⌊m · 2^e + 1/2⌋`, with a shift for a negative exponent
  have hmag : ((if 0 ≤ e then m * Nat.pow 2 e.toNat
      else (2 * m + Nat.pow 2 (-e).toNat) / Nat.pow 2 ((-e).toNat + 1) : ℕ) : ℤ) =
      Rounding.roundAway ((m : ℝ) * 2 ^ e) := by
    rw [Rounding.roundAway_of_nonneg (by positivity)]
    simp only [Nat.pow_eq]
    split
    · rename_i he
      obtain ⟨k, rfl⟩ := Int.eq_ofNat_of_zero_le he
      rw [zpow_natCast, Int.toNat_natCast, eq_comm, Int.floor_eq_iff]
      push_cast
      constructor <;> linarith
    · obtain ⟨k, rfl⟩ : ∃ k : ℕ, e = -(k : ℤ) := ⟨(-e).toNat, by omega⟩
      rw [neg_neg, Int.toNat_natCast]
      have hhalf : (m : ℝ) * 2 ^ (-(k : ℤ)) + 1 / 2 =
          ((2 * m + 2 ^ k : ℕ) : ℝ) / ((2 ^ (k + 1) : ℕ) : ℝ) := by
        rw [zpow_neg, zpow_natCast]
        push_cast
        field_simp
        ring
      rw [hhalf, Int.floor_div_natCast, Int.floor_natCast, Int.natCast_div]
  unfold Binary64.roundOf
  cases s
  · show -(_ : ℤ) = Rounding.roundAway (-((m : ℝ) * 2 ^ e))
    rw [hmag, Rounding.roundAway_neg]
  · exact hmag

namespace Saturating

/-- The floor of an extended real stopped at the ends of the 32-bit range. -/
noncomputable def floorSat (v : EReal) : ℤ :=
  if v = ⊤ then hi else if v = ⊥ then lo else max lo (min ⌊v.toReal⌋ hi)

theorem floorSat_coe (x : ℝ) : floorSat x = max lo (min ⌊x⌋ hi) := by
  simp [floorSat]

theorem lo_le_floorSat (v : EReal) : lo ≤ floorSat v := by
  unfold floorSat
  split_ifs <;> simp [lo, hi]

theorem floorSat_le_hi (v : EReal) : floorSat v ≤ hi := by
  unfold floorSat
  split_ifs <;> simp [lo, hi]

theorem floorSat_mono : Monotone floorSat := by
  intro a b hab
  induction a using EReal.rec with
  | bot => simpa [floorSat] using lo_le_floorSat b
  | top =>
    rw [top_le_iff.mp hab]
  | coe x =>
    induction b using EReal.rec with
    | bot => exact absurd hab (not_le.mpr (EReal.bot_lt_coe x))
    | top => simpa [floorSat] using floorSat_le_hi x
    | coe y =>
      rw [floorSat_coe, floorSat_coe]
      have := Int.floor_mono (EReal.coe_le_coe_iff.mp hab)
      omega

theorem ofFloat_eq_parts (x : Float) : Binary64.ofFloat x = parts x.toModel.unpack :=
  ofBits_eq_parts _

theorem floorOf_congr {x y : Float} (h : x.toModel.unpack = y.toModel.unpack) :
    floorOf x = floorOf y := by
  rw [floorOf, floorOf, ofFloat_eq_parts, ofFloat_eq_parts, h]

theorem floorOf_of_notANumber {x : Float} (hu : x.toModel.unpack = .notANumber) : floorOf x = 0 := by
  rw [floorOf, ofFloat_eq_parts, hu]
  rfl

/-- Away from NaN, the floor of a float is the saturated floor of its value. -/
theorem toInt_floorOf {x : Float} (hx : x.isNaN = false) : (floorOf x).toInt = floorSat (Binary64.value x) := by
  rw [Binary64.isNaN_eq_false_iff] at hx
  rw [floorOf, ofFloat_eq_parts, Binary64.value]
  generalize x.toModel.unpack = u at hx
  cases u with
  | notANumber => exact absurd rfl hx
  | infinity s =>
    cases s
    · show Int32.minValue.toInt = floorSat ⊥
      rw [show floorSat ⊥ = lo by simp [floorSat]]
      rfl
    · show Int32.maxValue.toInt = floorSat ⊤
      rw [show floorSat ⊤ = hi by simp [floorSat]]
      rfl
  | zero s =>
    show (ofInt (Binary64.floorOf (s == .negative) 0 Binary64.minExp)).toInt = floorSat ((0 : ℝ) : EReal)
    rw [Binary64.floorOf_parts, toInt_ofInt, floorSat_coe]
    cases s <;> simp [signed]
  | finite s m e hm =>
    show (ofInt (Binary64.floorOf (s == .negative) m e)).toInt = floorSat (signed s ((m : ℝ) * 2 ^ e) : ℝ)
    rw [Binary64.floorOf_parts, toInt_ofInt, floorSat_coe]

section Monotone

variable {x y : Float}

theorem floorOf_mono (h : x ≤ y) : (floorOf x).toInt ≤ (floorOf y).toInt := by
  obtain ⟨hx, hy, hxy⟩ := Binary64.le_iff.mp h
  rw [toInt_floorOf hx, toInt_floorOf hy]
  exact floorSat_mono hxy

theorem half_isFinite : (0.5 : Float).isFinite = true := by decide

theorem roundHalfUp_mono (h : x ≤ y) : (roundHalfUp x).toInt ≤ (roundHalfUp y).toInt :=
  floorOf_mono (Binary64.add_le_add_right half_isFinite h)

end Monotone

/-! ### Rounding a zero -/

section Zero

variable {x : Float}

theorem roundHalfUp_of_notANumber (hu : x.toModel.unpack = .notANumber) : roundHalfUp x = 0 :=
  floorOf_of_notANumber (by rw [Binary64.unpack_add, hu]; rfl)

/-- A zero of either sign plus one half is one half, which floors to zero. -/
theorem roundHalfUp_of_zero {s : Sign} (hu : x.toModel.unpack = .zero s) : roundHalfUp x = 0 := by
  have h : (x + 0.5).toModel.unpack = (0.5 : Float).toModel.unpack := by
    rw [Binary64.unpack_add, hu]
    cases s <;> rfl
  rw [roundHalfUp, floorOf_congr h]
  decide

/-- A product with a zero factor is a zero or NaN, so it rounds to zero. -/
theorem roundHalfUp_mul_zero (x : Float) {c : Float} {t : Sign} (hc : c.toModel.unpack = .zero t) :
    roundHalfUp (x * c) = 0 := by
  have hxc := Binary64.unpack_mul x c
  rw [hc] at hxc
  generalize x.toModel.unpack = u at hxc
  cases u with
  | notANumber => exact roundHalfUp_of_notANumber (hxc.trans unpack_pack_notANumber)
  | infinity s => exact roundHalfUp_of_notANumber (hxc.trans unpack_pack_notANumber)
  | zero s => exact roundHalfUp_of_zero (hxc.trans (unpack_pack_zero _))
  | finite s m e hm => exact roundHalfUp_of_zero (hxc.trans (unpack_pack_zero _))

end Zero

end Saturating

end RangeAdvisor
