import RangeAdvisor.Proofs.Power
import RangeAdvisor.Binary64.Order

/-!
# Shares of a float total

Weights of at least zero added from the left give a total at least each weight, and above zero
once a weight is. A weight divided by such a total is a share: at least zero and at most one, also
after the total overflowed to `+∞`, when every share is zero. Dividing by a total above zero keeps
the order of finite weights. Floats above zero are ordered by their bits, so the total order key
of such floats orders them as their values do. A number less a finite float, its magnitude, and
its quotient by a finite float above zero are numbers. Main statements: `le_total_of_mem`,
`div_le_one_of_le`, `div_le_div_right` and `le_of_totalKey_le`.
-/

set_option autoImplicit false

open Float.Model Float.Model.UnpackedFloat

namespace RangeAdvisor

namespace Unpacked

open Rounding

theorem acts_div_pos {m : ℕ} {e : ℤ} (hm : 0 < m) :
    Acts (fun u => div .binary64 u (.finite .positive m e hm)) (· / (m * 2 ^ e)) .negative .positive :=
  ⟨rfl, rfl, fun _ _ hfu => div_roundsTo hfu .positive e hm⟩

theorem sign_apply_neg (s : Sign) (n : ℤ) : (-s).apply n = -s.apply n := by
  cases s with
  | negative => exact (Int.neg_neg n).symm
  | positive => rfl

/-- Subtracting is adding the negation, case by case of the two operands. -/
theorem sub_eq_add_neg (u w : UnpackedFloat) :
    UnpackedFloat.sub .binary64 u w = UnpackedFloat.add .binary64 u w.neg := by
  cases u <;> cases w <;>
    simp [UnpackedFloat.sub, UnpackedFloat.add, UnpackedFloat.neg, sign_apply_neg, Int.sub_eq_add_neg]

theorem canonical_neg {u : UnpackedFloat} (h : Canonical u) : Canonical u.neg := by
  cases u <;> exact h

/-- Reading back a canonical value that is a number gives a number. -/
theorem repack_ne {u : UnpackedFloat} (hu : Canonical u) (hn : u ≠ .notANumber) :
    repack u ≠ .notANumber := by
  cases u with
  | notANumber => exact absurd rfl hn
  | infinity s =>
    rw [repack_infinity]
    exact fun h => by cases h
  | zero s =>
    rw [repack, unpack_pack_zero]
    exact fun h => by cases h
  | finite s m e hm =>
    rw [repack, unpack_pack_finite s hm hu]
    split <;> exact fun h => by cases h

end Unpacked

namespace Binary64

open Unpacked Rounding

variable {x y c : Float}

/-! ### Operations that give a number -/

section Number

theorem unpack_sub (x y : Float) :
    (x - y).toModel.unpack = repack (UnpackedFloat.sub .binary64 x.toModel.unpack y.toModel.unpack) :=
  rfl

/-- A number less a finite float is a number: only two infinities of one sign cancel to NaN. -/
theorem isNaN_sub (hx : x.isNaN = false) (hc : c.isFinite = true) : (x - c).isNaN = false := by
  have hfin : c.toModel.unpack.neg.isFinite = true := by
    have : c.toModel.unpack.isFinite = true := hc
    cases h : c.toModel.unpack <;> simp_all [UnpackedFloat.neg, UnpackedFloat.isFinite]
  rw [isNaN_eq_false_iff] at hx ⊢
  rw [unpack_sub, sub_eq_add_neg]
  exact (acts_add_right (canonical_neg (canonical c)) hfin).repack_ne (canonical x) hx

theorem isNaN_abs (hx : x.isNaN = false) : x.abs.isNaN = false := by
  rw [isNaN_eq_false_iff] at hx ⊢
  rw [unpack_abs]
  have hcan := canonical x
  refine repack_ne ?_ ?_ <;> cases h : x.toModel.unpack <;>
    simp_all [UnpackedFloat.abs, Canonical]

/-- A number divided by a finite float above zero is a number. -/
theorem isNaN_div (hx : x.isNaN = false) (hc : (0 : Float) < c) (hcf : c.isFinite = true) :
    (x / c).isNaN = false := by
  obtain ⟨m, e, hm, hu⟩ := unpack_of_pos hc hcf
  rw [isNaN_eq_false_iff] at hx ⊢
  rw [unpack_div, hu]
  exact (acts_div_pos hm).repack_ne (canonical x) hx

end Number

/-! ### Totals -/

section Total

/-- Adding weights of at least zero to a start of at least zero never falls below the start or
below any weight added. -/
theorem le_foldl_add {xs : List Float} (hc : (0 : Float) ≤ c) (hxs : ∀ x ∈ xs, (0 : Float) ≤ x) :
    c ≤ xs.foldl (· + ·) c ∧ ∀ x ∈ xs, x ≤ xs.foldl (· + ·) c := by
  induction xs generalizing c with
  | nil => exact ⟨le_refl_of_not_isNaN (isNaN_eq_false_of_le_right hc), by simp⟩
  | cons y ys ih =>
    have hy := hxs y List.mem_cons_self
    have hcy : c ≤ c + y := le_add_of_nonneg hc hy
    have hycy : y ≤ c + y := by
      rw [float_add_comm]
      exact le_add_of_nonneg hy hc
    obtain ⟨hstart, hrest⟩ := ih (le_trans hc hcy) fun x hx => hxs x (List.mem_cons_of_mem _ hx)
    rw [List.foldl_cons]
    refine ⟨le_trans hcy hstart, fun x hx => ?_⟩
    rcases List.mem_cons.mp hx with rfl | hx
    · exact le_trans hycy hstart
    · exact hrest x hx

/-- A total of weights of at least zero is at least each of them. -/
theorem le_total_of_mem {xs : List Float} (hxs : ∀ x ∈ xs, (0 : Float) ≤ x) (hx : x ∈ xs) :
    x ≤ total xs :=
  (le_foldl_add (by decide) hxs).2 x hx

theorem not_le_of_lt (h : x < y) : ¬ y ≤ x := fun hyx =>
  absurd (lt_iff.mp h).2.2 (not_lt.mpr (le_iff.mp hyx).2.2)

/-- A total of weights above zero, of at least one weight, is above zero. -/
theorem total_pos {xs : List Float} (hxs : ∀ x ∈ xs, (0 : Float) < x) (hne : xs ≠ []) :
    (0 : Float) < total xs := by
  obtain ⟨x, hx⟩ := List.exists_mem_of_ne_nil xs hne
  exact lt_of_lt_of_le (hxs x hx) (le_total_of_mem (fun y hy => le_of_lt (hxs y hy)) hx)

end Total

/-! ### Shares -/

section Share

/-- A float above zero that is not finite is `+∞`. -/
theorem value_eq_top_of_pos (hc : (0 : Float) < c) (hf : c.isFinite = false) : value c = ⊤ := by
  obtain ⟨-, hcn, hlt⟩ := lt_iff.mp hc
  by_contra htop
  have hbot : value c ≠ ⊥ := fun h => by rw [h] at hlt; exact absurd hlt not_lt_bot
  rw [isFinite_of_value_ne hcn htop hbot] at hf
  cases hf

/-- A finite float divided by `+∞` is zero. -/
theorem div_of_value_top (hx : x.isFinite = true) (hc : value c = ⊤) :
    (x / c).isNaN = false ∧ value (x / c) = 0 := by
  rw [value_eq_top_iff] at hc
  rw [isNaN_eq_false_iff, value, unpack_div, hc]
  have hxu : x.toModel.unpack.isFinite = true := hx
  generalize x.toModel.unpack = u at hxu
  cases u with
  | zero s =>
    rw [show div .binary64 (.zero s) (.infinity .positive) = .zero (s / .positive) from rfl, repack,
      unpack_pack_zero]
    exact ⟨fun h => (by cases h), rfl⟩
  | finite s m e hm =>
    rw [show div .binary64 (.finite s m e hm) (.infinity .positive) = .zero (s / .positive) from rfl,
      repack, unpack_pack_zero]
    exact ⟨fun h => (by cases h), rfl⟩
  | _ => cases hxu

theorem toBinary64_zero : toBinary64 0 = 0 := by
  have ho := overflow_pos
  rw [toBinary64, nearest_zero, if_neg (by linarith), if_neg (by linarith)]
  rfl

theorem toBinary64_one : toBinary64 1 = 1 := by
  have ho : (1 : ℝ) < overflow := by
    unfold overflow
    exact one_lt_pow₀ one_lt_two (by norm_num)
  rw [toBinary64, nearest_one, if_neg (by linarith), if_neg (by linarith)]
  rfl

/-- Dividing by a finite float above zero keeps the order. -/
theorem div_le_div_of_pos (hpos : (0 : Float) < c) (hfin : c.isFinite = true) (h : x ≤ y) :
    x / c ≤ y / c := by
  obtain ⟨m, e, hm, hc⟩ := unpack_of_pos hpos hfin
  have hf := acts_div_pos (e := e) hm
  obtain ⟨hx, hy, hxy⟩ := le_iff.mp h
  rw [isNaN_eq_false_iff] at hx hy
  apply le_iff.mpr
  rw [isNaN_eq_false_iff, isNaN_eq_false_iff, value, value, unpack_div, unpack_div, hc]
  exact ⟨hf.repack_ne (canonical x) hx, hf.repack_ne (canonical y) hy,
    hf.mono (fun a b hab => div_le_div_of_nonneg_right hab (by positivity)) (canonical x)
      (canonical y) hx hy hxy⟩

/-- Shares of one total above zero keep the order of finite weights; an infinite total makes
both zero. -/
theorem div_le_div_right (hx : x.isFinite = true) (hy : y.isFinite = true) (hc : (0 : Float) < c)
    (h : x ≤ y) : x / c ≤ y / c := by
  cases hcf : c.isFinite
  · have htop := value_eq_top_of_pos hc hcf
    obtain ⟨hxn, hxv⟩ := div_of_value_top hx htop
    obtain ⟨hyn, hyv⟩ := div_of_value_top hy htop
    exact le_iff.mpr ⟨hxn, hyn, by rw [hxv, hyv]⟩
  · exact div_le_div_of_pos hc hcf h

theorem toReal_pos_of_pos (hc : (0 : Float) < c) (hf : c.isFinite = true) : 0 < toReal c := by
  have := (lt_iff.mp hc).2.2
  rw [value_of_isFinite hf] at this
  exact EReal.coe_pos.mp this

/-- The share of a weight of at least zero is at least zero. -/
theorem zero_le_div (hx0 : (0 : Float) ≤ x) (hx : x.isFinite = true) (hc : (0 : Float) < c) :
    (0 : Float) ≤ x / c := by
  cases hcf : c.isFinite
  · obtain ⟨hn, hv⟩ := div_of_value_top hx (value_eq_top_of_pos hc hcf)
    exact le_iff.mpr ⟨rfl, hn, by rw [hv]; rfl⟩
  · have hcpos := toReal_pos_of_pos hc hcf
    have hx0' : 0 ≤ toReal x := by
      have := (le_iff.mp hx0).2.2
      rw [value_of_isFinite hx] at this
      exact EReal.coe_nonneg.mp this
    obtain ⟨hn, hv⟩ := div_value hx hcf hcpos.ne'
    refine le_iff.mpr ⟨rfl, hn, ?_⟩
    rw [hv, show value 0 = toBinary64 0 by rw [toBinary64_zero]; rfl]
    exact toBinary64_mono (div_nonneg hx0' hcpos.le)

/-- `+∞` over a finite float above zero is `+∞`. -/
theorem div_of_top (hx : value x = ⊤) (hc : (0 : Float) < c) (hcf : c.isFinite = true) :
    (x / c).isNaN = false ∧ value (x / c) = ⊤ := by
  obtain ⟨m, e, hm, hu⟩ := unpack_of_pos hc hcf
  rw [value_eq_top_iff] at hx ⊢
  have hr : repack (div .binary64 (.infinity .positive) (.finite .positive m e hm)) =
      .infinity .positive :=
    repack_infinity .positive
  rw [isNaN_eq_false_iff, unpack_div, hx, hu, hr]
  exact ⟨fun h => (by cases h), rfl⟩

/-- A float of at least zero, finite or `+∞`, over a finite float above zero is at least zero. -/
theorem zero_le_div_of_isFinite (hx0 : (0 : Float) ≤ x) (hc : (0 : Float) < c)
    (hcf : c.isFinite = true) : (0 : Float) ≤ x / c := by
  cases hxf : x.isFinite
  · -- a float of at least zero that is not finite is `+∞`
    obtain ⟨-, hxn, hv⟩ := le_iff.mp hx0
    have hbot : value x ≠ ⊥ := fun h => by rw [h] at hv; exact absurd hv (by decide)
    have htop : value x = ⊤ := by
      by_contra hne
      rw [isFinite_of_value_ne hxn hne hbot] at hxf
      cases hxf
    obtain ⟨hn, hv'⟩ := div_of_top htop hc hcf
    exact le_of_value_eq_top hv' rfl
  · exact zero_le_div hx0 hxf hc

/-- The magnitude of a number is at least zero. -/
theorem zero_le_abs (hx : x.isNaN = false) : (0 : Float) ≤ x.abs :=
  zero_le_of_nonNeg (isNaN_abs hx) (by rw [unpack_abs]; exact nonNeg_repack (nonNeg_abs _))

/-- A finite weight's share of a total at least as large is at most one. -/
theorem div_le_one_of_le (hx : x.isFinite = true) (hc : (0 : Float) < c) (h : x ≤ c) :
    x / c ≤ 1 := by
  cases hcf : c.isFinite
  · obtain ⟨hn, hv⟩ := div_of_value_top hx (value_eq_top_of_pos hc hcf)
    refine le_iff.mpr ⟨hn, rfl, ?_⟩
    rw [hv, value_of_isFinite isFinite_one, toReal_one]
    exact EReal.coe_le_coe_iff.mpr zero_le_one
  · have hcpos := toReal_pos_of_pos hc hcf
    have hxc : toReal x ≤ toReal c := toReal_le_of_le hx hcf h
    obtain ⟨hn, hv⟩ := div_value hx hcf hcpos.ne'
    refine le_iff.mpr ⟨hn, rfl, ?_⟩
    rw [hv, value_of_isFinite isFinite_one, toReal_one, EReal.coe_one, ← toBinary64_one]
    exact toBinary64_mono ((div_le_one hcpos).mpr hxc)

end Share

/-! ### The order of the bits -/

section Bits

/-- The sign bit of a float of positive sign is clear. -/
theorem toNat_lt_of_signField {b : BitVec 64} (h : signField b = .positive) : b.toNat < 2 ^ 63 := by
  have hlt : b.toNat < 2 ^ 64 := b.isLt
  unfold signField at h
  split at h
  · cases h
  · omega

/-- The bits of a finite float above zero: below the sign bit, a biased exponent `E` below its
largest value and a trailing significand `M`, standing for `M · 2^-1074` when `E` is zero and for
`(2^52 + M) · 2^(E - 1075)` otherwise. -/
theorem bits_of_pos (hx : (0 : Float) < x) (hf : x.isFinite = true) :
    ∃ m e, ∃ hm : 0 < m, x.toModel.unpack = .finite .positive m e hm ∧
      ∃ E M : ℕ, E < 2047 ∧ M < 2 ^ 52 ∧ x.toBits.toNat = E * 2 ^ 52 + M ∧
        ((E = 0 ∧ m = M ∧ e = -1074) ∨ (0 < E ∧ m = 2 ^ 52 + M ∧ e = E - 1075)) := by
  obtain ⟨m, e, hm, hu⟩ := unpack_of_pos hx hf
  refine ⟨m, e, hm, hu, ?_⟩
  have hb : x.toModel.unpack = UnpackedFloat.unpack .binary64 x.toBits.toBitVec := rfl
  have hnat : x.toBits.toNat = x.toBits.toBitVec.toNat := rfl
  have hE := exponentField_lt x.toBits.toBitVec
  have hM := mantissaField_lt x.toBits.toBitVec
  -- the exponent and significand fields split the bits below the sign bit
  have hsplit : ∀ {b : BitVec 64}, signField b = .positive →
      b.toNat = exponentField b * 2 ^ 52 + mantissaField b := fun {b} hs => by
    have := toNat_lt_of_signField hs
    unfold exponentField mantissaField
    omega
  rcases unpack_cases x.toBits.toBitVec with ⟨-, -, hu'⟩ | ⟨-, -, hu'⟩ | ⟨-, -, hu'⟩ |
    ⟨h₁, hpos, hu'⟩ | ⟨h₁, h₂, hpos, hu'⟩ <;> rw [hb, hu'] at hu
  · cases hu
  · cases hu
  · cases hu
  · -- a subnormal value
    obtain ⟨hs, rfl, rfl⟩ := (UnpackedFloat.finite.injEq _ _ _ _ _ _ _ _).mp hu
    exact ⟨0, _, by omega, hM, by rw [hnat, hsplit hs, h₁], .inl ⟨rfl, rfl, rfl⟩⟩
  · -- a normal value with its leading bit
    obtain ⟨hs, rfl, rfl⟩ := (UnpackedFloat.finite.injEq _ _ _ _ _ _ _ _).mp hu
    exact ⟨_, _, by omega, hM, by rw [hnat, hsplit hs], .inr ⟨by omega, rfl, rfl⟩⟩

/-- The bits of `+∞`: the largest biased exponent and an empty significand. -/
theorem bits_of_value_top (hx : value x = ⊤) : x.toBits.toNat = 2047 * 2 ^ 52 := by
  have hu := value_eq_top_iff.mp hx
  have hb : x.toModel.unpack = UnpackedFloat.unpack .binary64 x.toBits.toBitVec := rfl
  have hnat : x.toBits.toNat = x.toBits.toBitVec.toNat := rfl
  rcases unpack_cases x.toBits.toBitVec with ⟨h₁, h₂, hu'⟩ | ⟨_, _, hu'⟩ | ⟨_, _, hu'⟩ |
    ⟨_, _, hu'⟩ | ⟨_, _, _, hu'⟩ <;> rw [hb, hu'] at hu
  · have hs : signField x.toBits.toBitVec = .positive := by
      injection hu
    have := toNat_lt_of_signField hs
    unfold exponentField mantissaField at *
    omega
  all_goals cases hu

/-- Below the sign bit, the total order key of a float is its bits. -/
theorem totalKey_of_lt {n : ℕ} (h : x.toBits.toNat = n) (hn : n < 2 ^ 63) : totalKey x = n := by
  unfold totalKey
  rw [h, if_pos (by simpa using hn)]

/-- Floats above zero are ordered by their bits: one whose total order key is no greater is no
greater. -/
theorem le_of_totalKey_le (hx : (0 : Float) < x) (hy : (0 : Float) < y)
    (h : totalKey x ≤ totalKey y) : x ≤ y := by
  have hxn := isNaN_eq_false_of_le_right (le_of_lt hx)
  have hyn := isNaN_eq_false_of_le_right (le_of_lt hy)
  cases hyf : y.isFinite
  · exact le_of_value_eq_top (value_eq_top_of_pos hy hyf) hxn
  obtain ⟨my, ey, hmy, huy, Ey, My, hEy, hMy, hby, hy'⟩ := bits_of_pos hy hyf
  have hky : totalKey y = Ey * 2 ^ 52 + My := by
    rw [totalKey_of_lt hby (by omega)]
    push_cast
    rfl
  cases hxf : x.isFinite
  · -- `+∞` has the greatest key of the floats above zero
    have hkx : totalKey x = 2047 * 2 ^ 52 :=
      totalKey_of_lt (bits_of_value_top (value_eq_top_of_pos hx hxf)) (by norm_num)
    rw [hkx, hky] at h
    omega
  obtain ⟨mx, ex, hmx, hux, Ex, Mx, hEx, hMx, hbx, hx'⟩ := bits_of_pos hx hxf
  have hkx : totalKey x = Ex * 2 ^ 52 + Mx := by
    rw [totalKey_of_lt hbx (by omega)]
    push_cast
    rfl
  rw [hkx, hky] at h
  -- the exponent orders the values, then the significand
  have hlex : ex < ey ∨ (ex = ey ∧ mx ≤ my) := by
    rcases hx' with ⟨rfl, rfl, rfl⟩ | ⟨hE, rfl, rfl⟩ <;> rcases hy' with ⟨rfl, rfl, rfl⟩ | ⟨hE', rfl, rfl⟩ <;>
      omega
  have hcx : target mx ex = ex := by have := canonical x; rwa [hux] at this
  have hcy : target my ey = ey := by have := canonical y; rwa [huy] at this
  refine le_iff.mpr ⟨hxn, hyn, ?_⟩
  rw [value, value, hux, huy]
  rcases hlex with hlt | ⟨rfl, hle⟩
  · exact (EReal.coe_lt_coe_iff.mpr (value_lt_of_lex hmx hmy hcx hcy (.inl hlt))).le
  · exact EReal.coe_le_coe_iff.mpr (mul_le_mul_of_nonneg_right (by exact_mod_cast hle) (by positivity))

end Bits

end Binary64

end RangeAdvisor
