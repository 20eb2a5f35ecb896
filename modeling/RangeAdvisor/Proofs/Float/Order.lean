import RangeAdvisor.Proofs.Float.Bits
import RangeAdvisor.Binary64.Order

/-!
# The order of floats

A float that is not NaN stands for an extended real: its value, or an infinity. On canonical forms
the model's comparison is the comparison of these extended reals, so `≤` and `<` on floats are the
order of the extended reals away from NaN: transitive, and total and reflexive on the floats that
are not NaN. The greater of two floats then grows with either argument that is not NaN. Main
statements: `compare_eq_toEReal`, `Binary64.le_iff`, `Binary64.lt_iff` and `Binary64.beq_iff`.
-/

set_option autoImplicit false

open Float.Model Float.Model.UnpackedFloat

namespace RangeAdvisor.Unpacked

/-- The extended real an unpacked float stands for; NaN reads as zero. -/
noncomputable def toEReal : UnpackedFloat → EReal
  | .infinity .positive => ⊤
  | .infinity .negative => ⊥
  | u => (real u : EReal)

theorem toEReal_of_isFinite {u : UnpackedFloat} (h : u.isFinite = true) : toEReal u = (real u : EReal) := by
  cases u with
  | zero s => rfl
  | finite s m e hm => rfl
  | _ => cases h

/-! ### Canonical values are ordered by exponent, then mantissa -/

section Lex

variable {m₁ m₂ : ℕ} {e₁ e₂ : ℤ}

theorem finite_value_pos (hm : 0 < m₁) : (0 : ℝ) < m₁ * 2 ^ e₁ := by positivity

/-- A larger exponent outweighs any mantissa: the smaller value has fewer than 54 bits and the
larger one, being above the least exponent, a full 53. -/
theorem value_lt_of_lex (hm₁ : 0 < m₁) (hm₂ : 0 < m₂) (hc₁ : target m₁ e₁ = e₁)
    (hc₂ : target m₂ e₂ = e₂) (h : e₁ < e₂ ∨ (e₁ = e₂ ∧ m₁ < m₂)) :
    (m₁ : ℝ) * 2 ^ e₁ < m₂ * 2 ^ e₂ := by
  rcases h with hlt | ⟨rfl, hm⟩
  · rw [target_eq] at hc₁ hc₂
    have hbits₁ : m₁ < 2 ^ 53 := (Nat.log2_lt hm₁.ne').mp (by omega)
    have hbits₂ : 2 ^ 52 ≤ m₂ := (Nat.le_log2 hm₂.ne').mp (by omega)
    calc (m₁ : ℝ) * 2 ^ e₁ < 2 ^ 53 * 2 ^ e₁ := by gcongr; exact_mod_cast hbits₁
      _ = 2 ^ 52 * 2 ^ (e₁ + 1) := by rw [zpow_add_one₀ two_ne_zero]; ring
      _ ≤ 2 ^ 52 * 2 ^ e₂ := by gcongr; norm_num; omega
      _ ≤ m₂ * 2 ^ e₂ := by gcongr; exact_mod_cast hbits₂
  · gcongr

theorem compare_value (hm₁ : 0 < m₁) (hm₂ : 0 < m₂) (hc₁ : target m₁ e₁ = e₁)
    (hc₂ : target m₂ e₂ = e₂) :
    (compare e₁ e₂).then (compare m₁ m₂) = compare ((m₁ : ℝ) * 2 ^ e₁) ((m₂ : ℝ) * 2 ^ e₂) := by
  rcases lt_trichotomy e₁ e₂ with he | rfl | he
  · rw [compare_lt_iff_lt.mpr he, compare_lt_iff_lt.mpr (value_lt_of_lex hm₁ hm₂ hc₁ hc₂ (.inl he))]
    rfl
  · rw [compare_eq_iff_eq.mpr rfl]
    rcases lt_trichotomy m₁ m₂ with hm | rfl | hm
    · rw [compare_lt_iff_lt.mpr hm,
        compare_lt_iff_lt.mpr (value_lt_of_lex hm₁ hm₂ hc₁ hc₂ (.inr ⟨rfl, hm⟩))]
      rfl
    · rw [compare_eq_iff_eq.mpr rfl, compare_eq_iff_eq.mpr rfl]
      rfl
    · rw [compare_gt_iff_gt.mpr hm,
        compare_gt_iff_gt.mpr (value_lt_of_lex hm₂ hm₁ hc₂ hc₁ (.inr ⟨rfl, hm⟩))]
      rfl
  · rw [compare_gt_iff_gt.mpr he, compare_gt_iff_gt.mpr (value_lt_of_lex hm₂ hm₁ hc₂ hc₁ (.inl he))]
    rfl

end Lex

/-! ### Comparing extended reals -/

section Compare

variable (x y : ℝ)

theorem compare_top_coe : compare (⊤ : EReal) x = .gt := compare_gt_iff_gt.mpr (EReal.coe_lt_top x)

theorem compare_coe_top : compare (x : EReal) ⊤ = .lt := compare_lt_iff_lt.mpr (EReal.coe_lt_top x)

theorem compare_bot_coe : compare (⊥ : EReal) x = .lt := compare_lt_iff_lt.mpr (EReal.bot_lt_coe x)

theorem compare_coe_bot : compare (x : EReal) ⊥ = .gt := compare_gt_iff_gt.mpr (EReal.bot_lt_coe x)

theorem compare_coe_coe : compare (x : EReal) (y : EReal) = compare x y := by
  rcases lt_trichotomy x y with h | rfl | h
  · rw [compare_lt_iff_lt.mpr h, compare_lt_iff_lt.mpr (EReal.coe_lt_coe_iff.mpr h)]
  · rw [compare_eq_iff_eq.mpr rfl, compare_eq_iff_eq.mpr rfl]
  · rw [compare_gt_iff_gt.mpr h, compare_gt_iff_gt.mpr (EReal.coe_lt_coe_iff.mpr h)]

theorem compare_neg_neg : compare (-x) (-y) = (compare x y).swap := by
  rcases lt_trichotomy x y with h | rfl | h
  · rw [compare_lt_iff_lt.mpr h, compare_gt_iff_gt.mpr (neg_lt_neg h)]
    rfl
  · rw [compare_eq_iff_eq.mpr rfl, compare_eq_iff_eq.mpr rfl]
    rfl
  · rw [compare_gt_iff_gt.mpr h, compare_lt_iff_lt.mpr (neg_lt_neg h)]
    rfl

end Compare

theorem some_compare {a b : EReal} {o : Ordering} (h : compare a b = o) : some o = some (compare a b) :=
  congrArg some h.symm

/-- On canonical floats other than NaN the model's comparison compares their extended reals. -/
theorem compare_eq_toEReal {u v : UnpackedFloat} (hu : Canonical u) (hv : Canonical v)
    (hnu : u ≠ .notANumber) (hnv : v ≠ .notANumber) :
    u.compare v = some (compare (toEReal u) (toEReal v)) := by
  cases u with
  | notANumber => exact absurd rfl hnu
  | infinity s₁ =>
    cases v with
    | notANumber => exact absurd rfl hnv
    | infinity s₂ =>
      cases s₁ <;> cases s₂
      · exact some_compare (compare_eq_iff_eq.mpr rfl)
      · exact some_compare (compare_lt_iff_lt.mpr bot_lt_top)
      · exact some_compare (compare_gt_iff_gt.mpr bot_lt_top)
      · exact some_compare (compare_eq_iff_eq.mpr rfl)
    | zero s₂ => cases s₁ <;> exact some_compare (by first | exact compare_bot_coe _ | exact compare_top_coe _)
    | finite s₂ m₂ e₂ h₂ =>
      cases s₁ <;> cases s₂ <;> exact some_compare (by first | exact compare_bot_coe _ | exact compare_top_coe _)
  | zero s₁ =>
    cases v with
    | notANumber => exact absurd rfl hnv
    | infinity s₂ => cases s₂ <;> exact some_compare (by first | exact compare_coe_bot _ | exact compare_coe_top _)
    | zero s₂ => exact some_compare (compare_eq_iff_eq.mpr rfl)
    | finite s₂ m₂ e₂ h₂ =>
      -- a zero lies below a positive value and above a negative one
      have hpos : (0 : ℝ) < m₂ * 2 ^ e₂ := finite_value_pos h₂
      cases s₂
      · exact some_compare ((compare_coe_coe _ _).trans
          (compare_gt_iff_gt.mpr (show -((m₂ : ℝ) * 2 ^ e₂) < 0 by linarith)))
      · exact some_compare ((compare_coe_coe _ _).trans (compare_lt_iff_lt.mpr hpos))
  | finite s₁ m₁ e₁ h₁ =>
    have hpos₁ : (0 : ℝ) < m₁ * 2 ^ e₁ := finite_value_pos h₁
    cases v with
    | notANumber => exact absurd rfl hnv
    | infinity s₂ =>
      cases s₁ <;> cases s₂ <;> exact some_compare (by first | exact compare_coe_bot _ | exact compare_coe_top _)
    | zero s₂ =>
      cases s₁
      · exact some_compare ((compare_coe_coe _ _).trans
          (compare_lt_iff_lt.mpr (show -((m₁ : ℝ) * 2 ^ e₁) < 0 by linarith)))
      · exact some_compare ((compare_coe_coe _ _).trans (compare_gt_iff_gt.mpr hpos₁))
    | finite s₂ m₂ e₂ h₂ =>
      have hpos₂ : (0 : ℝ) < m₂ * 2 ^ e₂ := finite_value_pos h₂
      -- equal signs compare exponents, then mantissas; a negative pair in reverse
      cases s₁ <;> cases s₂
      · show some _ = _
        rw [compare_value h₁ h₂ hu hv]
        exact congrArg some ((compare_coe_coe _ _).trans (compare_neg_neg _ _)).symm
      · exact some_compare ((compare_coe_coe _ _).trans
          (compare_lt_iff_lt.mpr (show -((m₁ : ℝ) * 2 ^ e₁) < m₂ * 2 ^ e₂ by linarith)))
      · exact some_compare ((compare_coe_coe _ _).trans
          (compare_gt_iff_gt.mpr (show -((m₂ : ℝ) * 2 ^ e₂) < m₁ * 2 ^ e₁ by linarith)))
      · show some _ = _
        rw [compare_value h₁ h₂ hu hv]
        exact congrArg some (compare_coe_coe _ _).symm

section Order

variable {u v : UnpackedFloat}

theorem compare_notANumber_right (u : UnpackedFloat) : u.compare .notANumber = none := by
  cases u <;> rfl

theorem le_iff_toEReal (hu : Canonical u) (hv : Canonical v) :
    u.le v = true ↔ u ≠ .notANumber ∧ v ≠ .notANumber ∧ toEReal u ≤ toEReal v := by
  by_cases hnu : u = .notANumber
  · subst hnu
    simp [UnpackedFloat.le, UnpackedFloat.compare]
  by_cases hnv : v = .notANumber
  · subst hnv
    simp [UnpackedFloat.le, compare_notANumber_right]
  rw [UnpackedFloat.le, compare_eq_toEReal hu hv hnu hnv, Option.any_some, Std.LawfulBCmp.isLE_iff_le]
  exact ⟨fun h => ⟨hnu, hnv, h⟩, fun h => h.2.2⟩

theorem lt_iff_toEReal (hu : Canonical u) (hv : Canonical v) :
    u.lt v = true ↔ u ≠ .notANumber ∧ v ≠ .notANumber ∧ toEReal u < toEReal v := by
  by_cases hnu : u = .notANumber
  · subst hnu
    simp [UnpackedFloat.lt, UnpackedFloat.compare]
  by_cases hnv : v = .notANumber
  · subst hnv
    simp [UnpackedFloat.lt, compare_notANumber_right]
  rw [UnpackedFloat.lt, compare_eq_toEReal hu hv hnu hnv, beq_iff_eq, Option.some.injEq,
    compare_lt_iff_lt]
  exact ⟨fun h => ⟨hnu, hnv, h⟩, fun h => h.2.2⟩

theorem beq_iff_toEReal (hu : Canonical u) (hv : Canonical v) :
    u.beq v = true ↔ u ≠ .notANumber ∧ v ≠ .notANumber ∧ toEReal u = toEReal v := by
  by_cases hnu : u = .notANumber
  · subst hnu
    simp [UnpackedFloat.beq, UnpackedFloat.compare]
  by_cases hnv : v = .notANumber
  · subst hnv
    simp [UnpackedFloat.beq, compare_notANumber_right]
  rw [UnpackedFloat.beq, compare_eq_toEReal hu hv hnu hnv, beq_iff_eq, Option.some.injEq,
    compare_eq_iff_eq]
  exact ⟨fun h => ⟨hnu, hnv, h⟩, fun h => h.2.2⟩

end Order

end RangeAdvisor.Unpacked

namespace RangeAdvisor.Binary64

open Unpacked

/-- The extended real a float stands for: its value, or an infinity; NaN reads as zero. -/
noncomputable def value (x : Float) : EReal := toEReal x.toModel.unpack

theorem canonical (x : Float) : Canonical x.toModel.unpack := canonical_unpack _

theorem isNaN_eq_false_iff (x : Float) : x.isNaN = false ↔ x.toModel.unpack ≠ .notANumber := by
  show x.toModel.unpack.isNaN = false ↔ _
  cases x.toModel.unpack <;> simp [UnpackedFloat.isNaN]

/-- Away from NaN, `≤` on floats is the order of their extended reals. -/
theorem le_iff {x y : Float} : x ≤ y ↔ x.isNaN = false ∧ y.isNaN = false ∧ value x ≤ value y := by
  rw [isNaN_eq_false_iff, isNaN_eq_false_iff]
  show decide (x.toModel.unpack.le y.toModel.unpack = true) = true ↔ _
  rw [decide_eq_true_iff]
  exact le_iff_toEReal (canonical x) (canonical y)

/-- Away from NaN, `<` on floats is the strict order of their extended reals. -/
theorem lt_iff {x y : Float} : x < y ↔ x.isNaN = false ∧ y.isNaN = false ∧ value x < value y := by
  rw [isNaN_eq_false_iff, isNaN_eq_false_iff]
  show decide (x.toModel.unpack.lt y.toModel.unpack = true) = true ↔ _
  rw [decide_eq_true_iff]
  exact lt_iff_toEReal (canonical x) (canonical y)

/-- Away from NaN, `==` on floats is equality of their extended reals, so `-0 == 0`. -/
theorem beq_iff {x y : Float} :
    (x == y) = true ↔ x.isNaN = false ∧ y.isNaN = false ∧ value x = value y := by
  rw [isNaN_eq_false_iff, isNaN_eq_false_iff]
  exact beq_iff_toEReal (canonical x) (canonical y)

section Order

variable {x y z : Float}

theorem le_refl_of_not_isNaN (hx : x.isNaN = false) : x ≤ x := le_iff.mpr ⟨hx, hx, le_rfl⟩

theorem le_trans (hxy : x ≤ y) (hyz : y ≤ z) : x ≤ z := by
  obtain ⟨hx, -, h₁⟩ := le_iff.mp hxy
  obtain ⟨-, hz, h₂⟩ := le_iff.mp hyz
  exact le_iff.mpr ⟨hx, hz, h₁.trans h₂⟩

theorem lt_of_lt_of_le (hxy : x < y) (hyz : y ≤ z) : x < z := by
  obtain ⟨hx, -, h₁⟩ := lt_iff.mp hxy
  obtain ⟨-, hz, h₂⟩ := le_iff.mp hyz
  exact lt_iff.mpr ⟨hx, hz, h₁.trans_le h₂⟩

theorem lt_of_le_of_lt (hxy : x ≤ y) (hyz : y < z) : x < z := by
  obtain ⟨hx, -, h₁⟩ := le_iff.mp hxy
  obtain ⟨-, hz, h₂⟩ := lt_iff.mp hyz
  exact lt_iff.mpr ⟨hx, hz, h₁.trans_lt h₂⟩

theorem le_of_lt (h : x < y) : x ≤ y := by
  obtain ⟨hx, hy, h⟩ := lt_iff.mp h
  exact le_iff.mpr ⟨hx, hy, h.le⟩

theorem le_of_not_lt (hx : x.isNaN = false) (hy : y.isNaN = false) (h : ¬ x < y) : y ≤ x :=
  le_iff.mpr ⟨hy, hx, not_lt.mp fun hlt => h (lt_iff.mpr ⟨hx, hy, hlt⟩)⟩

theorem isNaN_eq_false_of_le_left (h : x ≤ y) : x.isNaN = false := (le_iff.mp h).1

theorem isNaN_eq_false_of_le_right (h : x ≤ y) : y.isNaN = false := (le_iff.mp h).2.1

end Order

section Greater

variable {a a₁ a₂ b : Float}

theorem greater_of_not_isNaN (ha : a.isNaN = false) (hb : b.isNaN = false) :
    greater a b = if a < b then b else a := by
  have hb' : ¬ b.isNaN = true := by rw [hb]; decide
  have ha' : ¬ a.isNaN = true := by rw [ha]; decide
  rw [greater, if_neg hb', if_neg ha']

theorem le_greater_right (hb : b.isNaN = false) (a : Float) : b ≤ greater a b := by
  cases ha : a.isNaN
  · rw [greater_of_not_isNaN ha hb]
    split
    · exact le_refl_of_not_isNaN hb
    · rename_i hlt
      exact le_of_not_lt ha hb hlt
  · simp only [greater, hb, ha]
    exact le_refl_of_not_isNaN hb

theorem greater_mono_left (hb : b.isNaN = false) (h : a₁ ≤ a₂) : greater a₁ b ≤ greater a₂ b := by
  have ha₁ := isNaN_eq_false_of_le_left h
  have ha₂ := isNaN_eq_false_of_le_right h
  rw [greater_of_not_isNaN ha₁ hb, greater_of_not_isNaN ha₂ hb]
  by_cases h₂ : a₂ < b
  · rw [if_pos (lt_of_le_of_lt h h₂), if_pos h₂]
    exact le_refl_of_not_isNaN hb
  · rw [if_neg h₂]
    by_cases h₁ : a₁ < b
    · rw [if_pos h₁]
      exact le_of_not_lt ha₂ hb h₂
    · rw [if_neg h₁]
      exact h

end Greater

section Lesser

variable {a b : Float}

theorem lesser_of_not_isNaN (ha : a.isNaN = false) (hb : b.isNaN = false) :
    lesser a b = if b < a then b else a := by
  have hb' : ¬ b.isNaN = true := by rw [hb]; decide
  have ha' : ¬ a.isNaN = true := by rw [ha]; decide
  rw [lesser, if_neg hb', if_neg ha']

theorem lesser_le_left (ha : a.isNaN = false) (hb : b.isNaN = false) : lesser a b ≤ a := by
  rw [lesser_of_not_isNaN ha hb]
  split
  · exact le_of_lt ‹b < a›
  · exact le_refl_of_not_isNaN ha

theorem lesser_le_right (ha : a.isNaN = false) (hb : b.isNaN = false) : lesser a b ≤ b := by
  rw [lesser_of_not_isNaN ha hb]
  split
  · exact le_refl_of_not_isNaN hb
  · exact le_of_not_lt hb ha ‹¬ b < a›

theorem lesser_mem (ha : a.isNaN = false) (hb : b.isNaN = false) : lesser a b = a ∨ lesser a b = b := by
  rw [lesser_of_not_isNaN ha hb]
  split
  · exact .inr rfl
  · exact .inl rfl

theorem le_greater_left (ha : a.isNaN = false) (hb : b.isNaN = false) : a ≤ greater a b := by
  rw [greater_of_not_isNaN ha hb]
  split
  · exact le_of_lt ‹a < b›
  · exact le_refl_of_not_isNaN ha

theorem greater_mem (ha : a.isNaN = false) (hb : b.isNaN = false) :
    greater a b = a ∨ greater a b = b := by
  rw [greater_of_not_isNaN ha hb]
  split
  · exact .inr rfl
  · exact .inl rfl

/-- Away from NaN, the lesser of two floats is their minimum. -/
theorem lesser_eq_min (ha : a.isNaN = false) (hb : b.isNaN = false) : lesser a b = min a b := by
  have hb' : ¬ b.isNaN = true := by rw [hb]; decide
  have ha' : ¬ a.isNaN = true := by rw [ha]; decide
  rw [lesser, if_neg hb', if_neg ha']
  show (if b < a then b else a) = if a ≤ b then a else b
  by_cases hab : a ≤ b
  · rw [if_pos hab, if_neg fun hlt => absurd (lt_iff.mp hlt).2.2 (not_lt.mpr (le_iff.mp hab).2.2)]
  · rw [if_neg hab, if_pos (lt_iff.mpr ⟨hb, ha, not_le.mp fun h => hab (le_iff.mpr ⟨ha, hb, h⟩)⟩)]

end Lesser

section Clamp

variable {x lo hi : Float}

/-- A clamp into an ordered interval lands in it, whatever number it is given. -/
theorem clamp_mem (hx : x.isNaN = false) (hlh : lo ≤ hi) : lo ≤ clamp x lo hi ∧ clamp x lo hi ≤ hi := by
  have hlo := isNaN_eq_false_of_le_left hlh
  have hhi := isNaN_eq_false_of_le_right hlh
  unfold clamp
  dsimp only
  by_cases hbelow : x < lo
  · -- raised to `lo`, which is not above `hi`
    have hnot : ¬ lo > hi := fun h => absurd (lt_iff.mp h).2.2 (not_lt.mpr (le_iff.mp hlh).2.2)
    rw [if_pos hbelow, if_neg hnot]
    exact ⟨le_refl_of_not_isNaN hlo, hlh⟩
  · have hxlo : lo ≤ x := le_of_not_lt hx hlo hbelow
    rw [if_neg hbelow]
    by_cases habove : x > hi
    · rw [if_pos habove]
      exact ⟨hlh, le_refl_of_not_isNaN hhi⟩
    · rw [if_neg habove]
      exact ⟨hxlo, le_of_not_lt hhi hx habove⟩

end Clamp

end RangeAdvisor.Binary64
