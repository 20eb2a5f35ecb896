import RangeAdvisor.Proofs.Float.Share
import RangeAdvisor.Proofs.Float.Exact

/-!
# Gains that never show

A float of at least zero scaled by a factor of at most one is never above itself, so the gain
`c·u - c` is never above zero: not after rounding, not when `c` is `+∞` (the difference is `-∞`
or NaN), and not when either is NaN, since NaN compares above nothing. Scaled by a finite factor
of at least one, it is never below itself. Products and quotients of floats of at least zero by
floats above zero stay at least zero, and a product with a zero is a zero or NaN. Main statement:
`Binary64.not_pos_mul_sub_self`.
-/

set_option autoImplicit false

open Float.Model Float.Model.UnpackedFloat

namespace RangeAdvisor.Binary64

open Unpacked Rounding

variable {x y c u : Float}

/-! ### NaN -/

section NaN

theorem isNaN_eq_true_iff (x : Float) : x.isNaN = true ↔ x.toModel.unpack = .notANumber := by
  rw [← Bool.not_eq_false, isNaN_eq_false_iff, not_not]

/-- Nothing compares below NaN. -/
theorem not_lt_of_isNaN (h : x.isNaN = true) (y : Float) : ¬ y < x := fun hlt => by
  rw [(lt_iff.mp hlt).2.1] at h
  cases h

/-- A number fails to be at most `y` exactly when `y` is NaN or below it. -/
theorem not_le_iff (hx : x.isNaN = false) : ¬ x ≤ y ↔ y.isNaN = true ∨ y < x := by
  constructor
  · intro h
    cases hy : y.isNaN
    · exact .inr (Classical.byContradiction fun hlt => h (le_of_not_lt hy hx hlt))
    · exact .inl rfl
  · rintro (hy | hlt) hle
    · rw [(le_iff.mp hle).2.1] at hy
      cases hy
    · exact not_le_of_lt hlt hle

theorem isNaN_mul_of_left (hx : x.isNaN = true) (y : Float) : (x * y).isNaN = true := by
  rw [isNaN_eq_true_iff] at hx ⊢
  rw [unpack_mul, hx]
  exact unpack_pack_notANumber

theorem isNaN_mul_of_right (hy : y.isNaN = true) (x : Float) : (x * y).isNaN = true := by
  rw [float_mul_comm]
  exact isNaN_mul_of_left hy x

theorem isNaN_sub_of_left (hx : x.isNaN = true) (y : Float) : (x - y).isNaN = true := by
  rw [isNaN_eq_true_iff] at hx ⊢
  rw [unpack_sub, hx]
  exact unpack_pack_notANumber

end NaN

/-! ### Differences -/

section Sub

theorem isFinite_neg_unpack (hc : c.isFinite = true) : c.toModel.unpack.neg.isFinite = true := by
  have : c.toModel.unpack.isFinite = true := hc
  cases h : c.toModel.unpack <;> simp_all [UnpackedFloat.neg, UnpackedFloat.isFinite]

/-- Subtracting a finite float keeps the order. -/
theorem sub_le_sub_right (hc : c.isFinite = true) (h : x ≤ y) : x - c ≤ y - c := by
  have hf := acts_add_right (canonical_neg (canonical c)) (isFinite_neg_unpack hc)
  obtain ⟨hx, hy, hxy⟩ := le_iff.mp h
  rw [isNaN_eq_false_iff] at hx hy
  apply le_iff.mpr
  rw [isNaN_eq_false_iff, isNaN_eq_false_iff, value, value, unpack_sub, unpack_sub,
    sub_eq_add_neg, sub_eq_add_neg]
  exact ⟨hf.repack_ne (canonical x) hx, hf.repack_ne (canonical y) hy,
    hf.mono (fun a b hab => by simp only; linarith) (canonical x) (canonical y) hx hy hxy⟩

theorem value_sub_self (hc : c.isFinite = true) : value (c - c) = 0 := by
  rw [(sub_value hc hc).2, sub_self, toBinary64_zero]

/-- A float less a finite float at least as large is never above zero. -/
theorem not_pos_sub_of_le (hc : c.isFinite = true) (h : x ≤ c) : ¬ (0 : Float) < x - c := by
  intro hpos
  have hle := (le_iff.mp (sub_le_sub_right hc h)).2.2
  have hlt := (lt_iff.mp hpos).2.2
  rw [value_sub_self hc] at hle
  exact absurd (hlt.trans_le hle) (lt_irrefl _)

/-- Anything less `+∞` is `-∞` or NaN, never above zero. -/
theorem not_pos_sub_top (hc : value c = ⊤) (x : Float) : ¬ (0 : Float) < x - c := by
  rw [value_eq_top_iff] at hc
  intro hpos
  obtain ⟨-, hnan, hv⟩ := lt_iff.mp hpos
  rw [isNaN_eq_false_iff, unpack_sub, hc] at hnan
  rw [value, value, unpack_sub, hc] at hv
  generalize x.toModel.unpack = w at hnan hv
  -- every case gives `-∞`, but `+∞ - +∞`, which is NaN
  cases w with
  | notANumber => exact hnan unpack_pack_notANumber
  | infinity s =>
    cases s with
    | negative => exact absurd hv (by rw [show UnpackedFloat.sub .binary64 (.infinity .negative)
        (.infinity .positive) = .infinity .negative from rfl, repack_infinity]; exact not_lt_bot)
    | positive => exact hnan unpack_pack_notANumber
  | zero s => exact absurd hv (by rw [show UnpackedFloat.sub .binary64 (.zero s)
      (.infinity .positive) = .infinity .negative from rfl, repack_infinity]; exact not_lt_bot)
  | finite s m e hm => exact absurd hv (by rw [show UnpackedFloat.sub .binary64 (.finite s m e hm)
      (.infinity .positive) = .infinity .negative from rfl, repack_infinity]; exact not_lt_bot)

end Sub

/-! ### Products -/

section Mul

/-- A product with a zero factor is a zero or NaN. -/
theorem mul_zero_cases (x : Float) {s : Sign} (hc : c.toModel.unpack = .zero s) :
    (x * c).isNaN = true ∨ ((x * c).isNaN = false ∧ value (x * c) = 0) := by
  rw [isNaN_eq_true_iff, isNaN_eq_false_iff, value, unpack_mul, hc]
  generalize x.toModel.unpack = w
  have hzero : ∀ t : Sign, repack (.zero t) = .zero t := fun t => unpack_pack_zero t
  cases w with
  | notANumber => exact .inl unpack_pack_notANumber
  | infinity t => exact .inl unpack_pack_notANumber
  | zero t =>
    right
    rw [show mul .binary64 (.zero t) (.zero s) = .zero (t * s) from rfl, hzero]
    exact ⟨fun h => (by cases h), rfl⟩
  | finite t m e hm =>
    right
    rw [show mul .binary64 (.finite t m e hm) (.zero s) = .zero (t * s) from rfl, hzero]
    exact ⟨fun h => (by cases h), rfl⟩

theorem zero_le_zero_mul (hcf : c.isFinite = true) : (0 : Float) ≤ 0 * c := by
  obtain ⟨hn, hv⟩ := mul_value (x := 0) rfl hcf
  refine le_iff.mpr ⟨rfl, hn, ?_⟩
  rw [hv, show toReal (0 : Float) = 0 from rfl, zero_mul, toBinary64_zero]
  rfl

/-- A float of at least zero times a finite float above zero is at least zero. -/
theorem zero_le_mul_of_pos (hx : (0 : Float) ≤ x) (hc : (0 : Float) < c)
    (hcf : c.isFinite = true) : (0 : Float) ≤ x * c :=
  le_trans (zero_le_zero_mul hcf) (mul_le_mul_of_pos hc hcf hx)

/-- A float of at least zero times a finite float of at least zero is at least zero, or NaN when
`+∞` meets a zero. -/
theorem zero_le_mul_or_isNaN (hx : (0 : Float) ≤ x) (ht : (0 : Float) ≤ c)
    (hcf : c.isFinite = true) : (x * c).isNaN = true ∨ (0 : Float) ≤ x * c := by
  have hc0 : 0 ≤ toReal c := toReal_le_of_le rfl hcf ht
  rcases hc0.lt_or_eq with hpos | hzero
  · exact .inr (zero_le_mul_of_pos hx (lt_of_toReal_lt rfl hcf hpos) hcf)
  · obtain ⟨s, hs⟩ := unpack_of_toReal_eq_zero hcf hzero.symm
    rcases mul_zero_cases x hs with hn | ⟨hn, hv⟩
    · exact .inl hn
    · exact .inr (le_iff.mpr ⟨rfl, hn, by rw [hv]; rfl⟩)

/-- Over a finite float above zero, a float of at least zero stays at least zero. -/
theorem zero_le_div_of_pos (hx : (0 : Float) ≤ x) (hc : (0 : Float) < c)
    (hcf : c.isFinite = true) : (0 : Float) ≤ x / c := by
  have h := div_le_div_of_pos hc hcf hx
  rwa [zero_div_of_pos hc] at h

end Mul

/-! ### Scaling -/

section Scale

/-- A finite float of at least zero is its own rounding. -/
theorem toBinary64_toReal (hc : c.isFinite = true) (hc0 : 0 ≤ toReal c) :
    toBinary64 (toReal c) = value c := by
  have hmax := toReal_le_maxFinite hc
  have hlt := maxFinite_lt_overflow
  have hov := overflow_pos
  rw [toBinary64, nearest_toReal hc, if_neg (by linarith), if_neg (by linarith),
    value_of_isFinite hc]

/-- A finite float of at least zero times a factor of at most one is at most the float, or NaN. -/
theorem mul_le_self (hc : c.isFinite = true) (hc0 : 0 ≤ toReal c) (hu : u ≤ 1) :
    (c * u).isNaN = true ∨ c * u ≤ c := by
  have hcn := isNaN_eq_false_of_isFinite hc
  rcases hc0.lt_or_eq with hpos | hzero
  · -- above zero, `c · u ≤ c · 1 = c` by monotone scaling
    have hup := mul_le_mul_of_pos (lt_of_toReal_lt rfl hc hpos) hc hu
    obtain ⟨hn, hv⟩ := mul_value isFinite_one hc
    rw [toReal_one, one_mul, toBinary64_toReal hc hc0] at hv
    obtain ⟨hun, -, huv⟩ := le_iff.mp hup
    rw [float_mul_comm]
    exact .inr (le_iff.mpr ⟨hun, hcn, huv.trans_eq hv⟩)
  · -- a zero times a number is a zero or NaN
    obtain ⟨s, hs⟩ := unpack_of_toReal_eq_zero hc hzero.symm
    rw [float_mul_comm]
    rcases mul_zero_cases u hs with hn | ⟨hn, hv⟩
    · exact .inl hn
    · refine .inr (le_iff.mpr ⟨hn, hcn, ?_⟩)
      rw [hv, value_of_isFinite hc, ← hzero]
      rfl

/-- A float of at least zero, finite or `+∞`, times a finite factor of at least one is at least
the float: the exact product is, and rounding keeps the order and the float itself. -/
theorem le_mul_of_one_le (hc : (0 : Float) ≤ c) (hu : (1 : Float) ≤ u) (huf : u.isFinite = true) :
    c ≤ c * u := by
  obtain ⟨-, hcn, hc0⟩ := le_iff.mp hc
  have hu1 : 1 ≤ toReal u := toReal_one ▸ toReal_le_of_le isFinite_one huf hu
  by_cases htop : value c = ⊤
  · exact le_of_value_eq_top (mul_eq_top htop (.inr ⟨huf, by linarith⟩)) hcn
  have hcf := isFinite_of_value_ne hcn htop (fun h => by rw [h] at hc0; exact absurd hc0 (by decide))
  have hcr : 0 ≤ toReal c := toReal_le_of_le rfl hcf hc
  obtain ⟨hn, hv⟩ := mul_value hcf huf
  refine le_iff.mpr ⟨hcn, hn, ?_⟩
  rw [hv, ← toBinary64_toReal hcf hcr]
  exact toBinary64_mono (le_mul_of_one_le_right hcr hu1)

/-- A float of at least zero, scaled by a factor of at most one, gains nothing: `c·u - c` is never
above zero, whatever the roundings, infinities and NaNs. -/
theorem not_pos_mul_sub_self (hc : c.isNaN = true ∨ (0 : Float) ≤ c)
    (hu : u.isNaN = true ∨ u ≤ 1) : ¬ (0 : Float) < c * u - c := by
  rcases hc with hc | hc
  · exact not_lt_of_isNaN (isNaN_sub_of_left (isNaN_mul_of_left hc u) c) 0
  rcases hu with hu | hu
  · exact not_lt_of_isNaN (isNaN_sub_of_left (isNaN_mul_of_right hu c) c) 0
  obtain ⟨-, hcn, hv⟩ := le_iff.mp hc
  by_cases htop : value c = ⊤
  · exact not_pos_sub_top htop _
  -- a finite current amount: its product with `u` is at most itself
  have hcf := isFinite_of_value_ne hcn htop (fun h => by rw [h] at hv; exact absurd hv (by decide))
  have hc0 : 0 ≤ toReal c := toReal_le_of_le rfl hcf hc
  rcases mul_le_self hcf hc0 hu with hn | hle
  · exact not_lt_of_isNaN (isNaN_sub_of_left hn c) 0
  · exact not_pos_sub_of_le hcf hle

/-- A zero scaled by any factor gains nothing. -/
theorem not_pos_zero_mul_sub (u : Float) : ¬ (0 : Float) < 0 * u - 0 := by
  by_cases hn : u.isNaN = true
  · exact not_lt_of_isNaN (isNaN_sub_of_left (isNaN_mul_of_right hn 0) 0) 0
  have hz : (0 : Float).toModel.unpack = .zero .positive := unpack_zero
  rw [float_mul_comm]
  rcases mul_zero_cases u hz with hm | ⟨hm, hv⟩
  · exact not_lt_of_isNaN (isNaN_sub_of_left hm 0) 0
  · exact not_pos_sub_of_le rfl (le_iff.mpr ⟨hm, rfl, by rw [hv]; rfl⟩)

end Scale

end RangeAdvisor.Binary64
