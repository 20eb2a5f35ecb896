import Mathlib

/-!
# Rounding a real number to binary64

A binary64 value carries 53 significant bits and no place below `2^-1074`. Rounding a real to the
format keeps the multiple of its last place `2^quantum x` nearest to it, a tie going to the even
multiple. This rounding is odd and monotone: a larger real never rounds to a smaller value. The
exponent is not bounded above here; overflow to infinity, from `2^1024` on, is decided where values
become bits. An unpacked float `±m · 2^e` stands for a real, and `RoundsTo x u` says that `u` is `x`
rounded, in the canonical form the format stores.
-/

set_option autoImplicit false

namespace RangeAdvisor.Rounding

/-- The integer nearest to `x`, a tie going to the even one. -/
noncomputable def nearestEven (x : ℝ) : ℤ :=
  if x - ⌊x⌋ < 1 / 2 then ⌊x⌋
  else if 1 / 2 < x - ⌊x⌋ then ⌊x⌋ + 1
  else if Even ⌊x⌋ then ⌊x⌋ else ⌊x⌋ + 1

theorem nearestEven_mem (x : ℝ) : nearestEven x = ⌊x⌋ ∨ nearestEven x = ⌊x⌋ + 1 := by
  unfold nearestEven
  split_ifs <;> simp

theorem nearestEven_intCast (n : ℤ) : nearestEven n = n := by
  simp [nearestEven]

/-- Only a fractional part past one half, or a tie above an odd floor, rounds up. -/
theorem nearestEven_eq_succ_iff (x : ℝ) :
    nearestEven x = ⌊x⌋ + 1 ↔ 1 / 2 < x - ⌊x⌋ ∨ (x - ⌊x⌋ = 1 / 2 ∧ ¬ Even ⌊x⌋) := by
  unfold nearestEven
  by_cases h₁ : x - ⌊x⌋ < 1 / 2
  · rw [if_pos h₁]
    constructor
    · intro h
      omega
    · rintro (h | ⟨h, -⟩) <;> linarith
  rw [if_neg h₁]
  by_cases h₂ : 1 / 2 < x - ⌊x⌋
  · rw [if_pos h₂]
    exact ⟨fun _ => .inl h₂, fun _ => rfl⟩
  rw [if_neg h₂]
  have htie : x - ⌊x⌋ = 1 / 2 := by linarith
  by_cases h₃ : Even ⌊x⌋
  · rw [if_pos h₃]
    constructor
    · intro h
      omega
    · rintro (h | ⟨-, h⟩)
      · linarith
      · exact absurd h₃ h
  · rw [if_neg h₃]
    exact ⟨fun _ => .inr ⟨htie, h₃⟩, fun _ => rfl⟩

theorem nearestEven_mono : Monotone nearestEven := by
  intro x y hxy
  have hfloor : ⌊x⌋ ≤ ⌊y⌋ := Int.floor_mono hxy
  rcases lt_or_eq_of_le hfloor with hlt | heq
  · -- a later integer part decides
    rcases nearestEven_mem x with hx | hx <;> rcases nearestEven_mem y with hy | hy <;> omega
  · -- the same integer part: the fractional parts decide, a tie going the same way for both
    rcases nearestEven_mem x with hx | hx
    · rcases nearestEven_mem y with hy | hy <;> omega
    · rcases nearestEven_mem y with hy | hy
      · -- `x` rounds up, so `y`, at least as far into the same interval, rounds up too
        rw [nearestEven_eq_succ_iff] at hx
        have hup : ¬ (1 / 2 < y - ⌊y⌋ ∨ (y - ⌊y⌋ = 1 / 2 ∧ ¬ Even ⌊y⌋)) :=
          fun h => by have := (nearestEven_eq_succ_iff y).mpr h; omega
        rw [← heq] at hup
        rcases hx with hx | ⟨hx, hodd⟩
        · exact absurd (.inl (by linarith)) hup
        · rcases lt_or_eq_of_le (show x - ⌊x⌋ ≤ y - ⌊x⌋ by linarith) with hlt | htie
          · exact absurd (.inl (by linarith)) hup
          · exact absurd (.inr ⟨by linarith, hodd⟩) hup
      · omega

theorem abs_sub_nearestEven_le (x : ℝ) : |x - nearestEven x| ≤ 1 / 2 := by
  have h₁ := Int.floor_le x
  have h₂ := Int.lt_floor_add_one x
  unfold nearestEven
  split_ifs with ha hb <;> push_cast <;> rw [abs_le] <;> constructor <;> linarith

theorem nearestEven_neg (x : ℝ) : nearestEven (-x) = -nearestEven x := by
  by_cases hint : x - ⌊x⌋ = 0
  · have hx : x = (⌊x⌋ : ℝ) := by linarith
    rw [hx, ← Int.cast_neg, nearestEven_intCast, nearestEven_intCast]
  -- off the integers, `-x` has the floor `-⌊x⌋ - 1` and the complementary fraction
  have h₁ := Int.floor_le x
  have h₂ := Int.lt_floor_add_one x
  have hpos : 0 < x - ⌊x⌋ := lt_of_le_of_ne (by linarith) (Ne.symm hint)
  have hfloor : ⌊-x⌋ = -⌊x⌋ - 1 := by
    rw [Int.floor_eq_iff]
    push_cast
    constructor <;> linarith
  have hfrac : -x - ⌊-x⌋ = 1 - (x - ⌊x⌋) := by
    rw [hfloor]
    push_cast
    ring
  have hparity : Even (-⌊x⌋ - 1) ↔ ¬ Even ⌊x⌋ := by
    rw [Int.even_sub_one, even_neg]
  unfold nearestEven
  rw [hfrac, hfloor]
  by_cases hlt : x - ⌊x⌋ < 1 / 2
  · rw [if_neg (by linarith), if_pos (by linarith), if_pos hlt]
    ring
  by_cases hgt : 1 / 2 < x - ⌊x⌋
  · rw [if_pos (by linarith), if_neg hlt, if_pos hgt]
    ring
  rw [if_neg (by linarith), if_neg (by linarith), if_neg hlt, if_neg hgt]
  by_cases heven : Even ⌊x⌋
  · rw [if_neg (hparity.not.mpr (not_not.mpr heven)), if_pos heven]
    ring
  · rw [if_pos (hparity.mpr heven), if_neg heven]
    ring

/-- The exponent of the last place binary64 gives `x`: 53 significant bits, never below `-1074`. -/
noncomputable def quantum (x : ℝ) : ℤ := max (Int.log 2 |x| - 52) (-1074)

/-- `x` rounded to binary64 precision, ties to even, with gradual underflow and no overflow. -/
noncomputable def nearest (x : ℝ) : ℝ := nearestEven (x / 2 ^ quantum x) * 2 ^ quantum x

theorem quantum_neg (x : ℝ) : quantum (-x) = quantum x := by
  simp only [quantum, abs_neg]

theorem nearest_neg (x : ℝ) : nearest (-x) = -nearest x := by
  simp only [nearest, quantum_neg, neg_div, nearestEven_neg]
  push_cast
  ring

theorem nearestEven_zero : nearestEven 0 = 0 := by
  simpa using nearestEven_intCast 0

theorem nearest_zero : nearest 0 = 0 := by
  simp [nearest, nearestEven_zero]

theorem nearest_nonneg {x : ℝ} (hx : 0 ≤ x) : 0 ≤ nearest x := by
  have hq : (0 : ℝ) < 2 ^ quantum x := zpow_pos (by norm_num) _
  have hn : nearestEven 0 ≤ nearestEven (x / 2 ^ quantum x) :=
    nearestEven_mono (div_nonneg hx hq.le)
  rw [nearestEven_zero] at hn
  exact mul_nonneg (by exact_mod_cast hn) hq.le

/-- Rounding a value at most `n · 2^q` on the grid of `2^q` stays at most `n · 2^q`. -/
theorem nearestEven_le_of_le {x : ℝ} {n : ℤ} (h : x ≤ n) : nearestEven x ≤ n := by
  simpa [nearestEven_intCast] using nearestEven_mono h

theorem le_nearestEven_of_le {x : ℝ} {n : ℤ} (h : (n : ℝ) ≤ x) : n ≤ nearestEven x := by
  simpa [nearestEven_intCast] using nearestEven_mono h

theorem quantum_mono {x y : ℝ} (hx : 0 < x) (hxy : x ≤ y) : quantum x ≤ quantum y := by
  have habs : |x| ≤ |y| := by
    rw [abs_of_pos hx, abs_of_pos (hx.trans_le hxy)]
    exact hxy
  have := Int.log_mono_right (b := 2) (abs_pos.mpr hx.ne') habs
  unfold quantum
  omega

theorem two_pow_mul_zpow (n : ℕ) (q : ℤ) : ((2 ^ n : ℤ) : ℝ) * (2 : ℝ) ^ q = 2 ^ (q + n) := by
  rw [Int.cast_pow, Int.cast_ofNat, ← zpow_natCast, ← zpow_add₀ two_ne_zero, add_comm]

theorem nearest_mono_of_pos {x y : ℝ} (hx : 0 < x) (hxy : x ≤ y) : nearest x ≤ nearest y := by
  have hy : 0 < y := hx.trans_le hxy
  have hqx : (0 : ℝ) < 2 ^ quantum x := zpow_pos (by norm_num) _
  have hqy : (0 : ℝ) < 2 ^ quantum y := zpow_pos (by norm_num) _
  rcases lt_or_eq_of_le (quantum_mono hx hxy) with hlt | heq
  · -- `y` has a coarser last place, so it is a normal value of at least `2^(quantum y + 52)`,
    -- while `x` stays below `2^(quantum x + 53)`
    have hylow : (2 : ℝ) ^ (quantum y + (52 : ℕ)) ≤ y := by
      have hlog : quantum y + (52 : ℕ) = Int.log 2 |y| := by unfold quantum at hlt ⊢; omega
      have h := Int.zpow_log_le_self (b := 2) (r := |y|) (by norm_num) (abs_pos.mpr hy.ne')
      rw [hlog]
      calc (2 : ℝ) ^ Int.log 2 |y| ≤ |y| := by exact_mod_cast h
        _ = y := abs_of_pos hy
    have hxhigh : x ≤ (2 : ℝ) ^ (quantum x + (53 : ℕ)) := by
      have h := Int.lt_zpow_succ_log_self (b := 2) (by norm_num) |x|
      have hle : Int.log 2 |x| + 1 ≤ quantum x + (53 : ℕ) := by unfold quantum; omega
      calc x = |x| := (abs_of_pos hx).symm
        _ ≤ (2 : ℝ) ^ (Int.log 2 |x| + 1) := by exact_mod_cast h.le
        _ ≤ (2 : ℝ) ^ (quantum x + (53 : ℕ)) := zpow_le_zpow_right₀ (by norm_num) hle
    have hnx : nearestEven (x / 2 ^ quantum x) ≤ (2 ^ 53 : ℤ) := by
      apply nearestEven_le_of_le
      rwa [div_le_iff₀ hqx, two_pow_mul_zpow]
    have hny : (2 ^ 52 : ℤ) ≤ nearestEven (y / 2 ^ quantum y) := by
      apply le_nearestEven_of_le
      rwa [le_div_iff₀ hqy, two_pow_mul_zpow]
    calc nearest x ≤ ((2 ^ 53 : ℤ) : ℝ) * (2 : ℝ) ^ quantum x :=
          mul_le_mul_of_nonneg_right (by exact_mod_cast hnx) hqx.le
      _ = (2 : ℝ) ^ (quantum x + (53 : ℕ)) := two_pow_mul_zpow 53 _
      _ ≤ (2 : ℝ) ^ (quantum y + (52 : ℕ)) := zpow_le_zpow_right₀ (by norm_num) (by omega)
      _ = ((2 ^ 52 : ℤ) : ℝ) * (2 : ℝ) ^ quantum y := (two_pow_mul_zpow 52 _).symm
      _ ≤ nearest y := mul_le_mul_of_nonneg_right (by exact_mod_cast hny) hqy.le
  · -- the same last place: round both quotients on one grid
    unfold nearest
    rw [heq]
    exact mul_le_mul_of_nonneg_right
      (by exact_mod_cast nearestEven_mono (div_le_div_of_nonneg_right hxy hqy.le)) hqy.le

/-- Rounding to binary64 is monotone. -/
theorem nearest_mono : Monotone nearest := by
  intro x y hxy
  rcases lt_or_ge 0 x with hx | hx
  · exact nearest_mono_of_pos hx hxy
  rcases le_or_gt 0 y with hy | hy
  · -- the signs differ: zero separates the two roundings
    have h₁ := nearest_nonneg (neg_nonneg.mpr hx)
    rw [nearest_neg] at h₁
    linarith [nearest_nonneg hy]
  · have := nearest_mono_of_pos (neg_pos.mpr hy) (neg_le_neg hxy)
    rw [nearest_neg, nearest_neg] at this
    linarith

/-! ### Binary logarithms of mantissas -/

/-- A real between `m · 2^e` and `(m + 1) · 2^e` lies in the binade of `m · 2^e`. -/
theorem log_of_le_of_lt {m : ℕ} (hm : 0 < m) {e : ℤ} {x : ℝ} (hlo : (m : ℝ) * 2 ^ e ≤ x)
    (hhi : x < (m + 1) * 2 ^ e) : Int.log 2 x = Nat.log2 m + e := by
  have hpos : (0 : ℝ) < x := lt_of_lt_of_le (by positivity) hlo
  have hlow : (2 : ℝ) ^ ((Nat.log2 m : ℤ) + e) ≤ x := by
    rw [zpow_add₀ two_ne_zero, zpow_natCast]
    refine le_trans ?_ hlo
    gcongr
    exact_mod_cast Nat.log2_self_le hm.ne'
  have hhigh : x < 2 ^ ((Nat.log2 m : ℤ) + e + 1) := by
    rw [add_right_comm, zpow_add₀ two_ne_zero, ← Nat.cast_succ, zpow_natCast]
    refine lt_of_lt_of_le hhi ?_
    gcongr
    exact_mod_cast Nat.lt_log2_self
  apply le_antisymm
  · have := (Int.lt_zpow_iff_log_lt (b := 2) one_lt_two hpos).mp (by exact_mod_cast hhigh)
    omega
  · exact (Int.zpow_le_iff_le_log (b := 2) one_lt_two hpos).mp (by exact_mod_cast hlow)

theorem log_natCast_mul_zpow {m : ℕ} (hm : 0 < m) (e : ℤ) :
    Int.log 2 ((m : ℝ) * 2 ^ e) = Nat.log2 m + e :=
  log_of_le_of_lt hm le_rfl (by gcongr; linarith)

theorem quantum_natCast_mul_zpow {m : ℕ} (hm : 0 < m) (e : ℤ) :
    quantum ((m : ℝ) * 2 ^ e) = max (Nat.log2 m + e - 52) (-1074) := by
  have hpos : (0 : ℝ) < m * 2 ^ e := by positivity
  rw [quantum, abs_of_pos hpos, log_natCast_mul_zpow hm]

/-- The size from which a rounding overflows to an infinity, `2^1024`. -/
noncomputable def overflow : ℝ := 2 ^ 1024

theorem overflow_pos : 0 < overflow := by unfold overflow; positivity

/-- The largest finite binary64 value, `(2^53 - 1) · 2^971`. -/
noncomputable def maxFinite : ℝ := (2 ^ 53 - 1) * 2 ^ 971

/-- The integer nearest to `x`, a tie going away from zero. -/
noncomputable def roundAway (x : ℝ) : ℤ := if x < 0 then -round (-x) else round x

theorem roundAway_of_nonneg {x : ℝ} (hx : 0 ≤ x) : roundAway x = ⌊x + 1 / 2⌋ := by
  rw [roundAway, if_neg (not_lt.mpr hx), round_eq]

theorem roundAway_neg (x : ℝ) : roundAway (-x) = -roundAway x := by
  unfold roundAway
  rcases lt_trichotomy x 0 with hx | rfl | hx
  · rw [if_neg (by linarith), if_pos hx, neg_neg]
  · simp
  · rw [if_pos (by linarith), if_neg (by linarith), neg_neg]

/-- A real within a half of an integer rounds to it. -/
theorem roundAway_eq_of_abs_sub_lt {x : ℝ} {b : ℤ} (h : |x - b| < 1 / 2) : roundAway x = b := by
  rw [abs_lt] at h
  unfold roundAway
  split
  · rw [round_eq, neg_eq_iff_eq_neg, Int.floor_eq_iff]
    push_cast
    constructor <;> linarith
  · rw [round_eq, Int.floor_eq_iff]
    constructor <;> linarith

end RangeAdvisor.Rounding

/-! ### The values of unpacked floats -/

namespace RangeAdvisor.Unpacked

open Float.Model Float.Model.UnpackedFloat Rounding

/-- The exponent binary64 gives `m · 2^e`: that of its 53rd significant bit, never below `-1074`. -/
def target (m : ℕ) (e : ℤ) : ℤ := Format.binary64.targetExponent (totalExponent m e)

theorem target_eq (m : ℕ) (e : ℤ) : target m e = max (Nat.log2 m + e - 52) (-1074) := by
  simp only [target, Format.targetExponent, Format.minExponent, Format.mantissaBits, totalExponent]
  omega

theorem quantum_eq_target {m : ℕ} (hm : 0 < m) (e : ℤ) : quantum ((m : ℝ) * 2 ^ e) = target m e := by
  rw [quantum_natCast_mul_zpow hm, target_eq]

/-- `x` with the sign `s`. -/
def signed : Sign → ℝ → ℝ
  | .negative, x => -x
  | .positive, x => x

theorem nearest_signed (s : Sign) (x : ℝ) : nearest (signed s x) = signed s (nearest x) := by
  cases s
  · exact nearest_neg x
  · rfl

/-- The real value of an unpacked float; NaN and the infinities read as zero. -/
noncomputable def real : UnpackedFloat → ℝ
  | .finite s m e _ => signed s (m * 2 ^ e)
  | _ => 0

/-- A finite float as binary64 stores it: its exponent is the one the format gives its value. -/
def Canonical : UnpackedFloat → Prop
  | .finite _ m e _ => target m e = e
  | _ => True

/-- `u` is `x` rounded to binary64 before any overflow: a zero when `x` rounds to zero, otherwise
a canonical finite float of value `nearest x`. -/
def RoundsTo (x : ℝ) : UnpackedFloat → Prop
  | .zero _ => nearest x = 0
  | .finite s m e _ => target m e = e ∧ signed s (m * 2 ^ e) = nearest x
  | _ => False

theorem RoundsTo.canonical {x : ℝ} {u : UnpackedFloat} (h : RoundsTo x u) : Canonical u := by
  cases u with
  | finite s m e hm => exact h.1
  | _ => trivial

theorem RoundsTo.real_eq {x : ℝ} {u : UnpackedFloat} (h : RoundsTo x u) : real u = nearest x := by
  cases u with
  | zero s => exact h.symm
  | finite s m e hm => exact h.2
  | _ => exact h.elim

theorem nearest_canonical {m : ℕ} (hm : 0 < m) {e : ℤ} (hc : target m e = e) :
    nearest ((m : ℝ) * 2 ^ e) = m * 2 ^ e := by
  have hq := quantum_eq_target hm e
  rw [hc] at hq
  rw [nearest, hq, mul_div_cancel_right₀ _ (zpow_ne_zero _ two_ne_zero)]
  exact_mod_cast congrArg (fun n : ℤ => (n : ℝ) * 2 ^ e) (nearestEven_intCast m)

theorem roundsTo_real {u : UnpackedFloat} (hc : Canonical u) (hu : u.isFinite = true) :
    RoundsTo (real u) u := by
  cases u with
  | zero s => exact nearest_zero
  | finite s m e hm => exact ⟨hc, by rw [real, nearest_signed, nearest_canonical hm hc]⟩
  | _ => cases hu

/-- How the integer part of `y ≥ 0` approximates it: exactly, or with the fraction against one
half. -/
noncomputable def fractionAccuracy (y : ℝ) : Accuracy :=
  if y = ⌊y⌋₊ then .exact else .inexact (compare (y - ⌊y⌋₊) (1 / 2))

/-- `x` rounded to binary64 by the format's own rounding, from its multiple of `2^-1074`. -/
noncomputable def ofReal (x : ℝ) : UnpackedFloat :=
  roundWithAccuracy .binary64 (if x < 0 then .negative else .positive) ⌊|x| * 2 ^ 1074⌋₊ (-1074)
    (fractionAccuracy (|x| * 2 ^ 1074))

end RangeAdvisor.Unpacked
