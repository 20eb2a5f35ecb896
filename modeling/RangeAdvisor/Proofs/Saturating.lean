import RangeAdvisor.Saturating

/-!
# Saturating arithmetic read on integers

Each saturating operation is the exact integer result moved into `[lo, hi]`, and a clamp keeps
its bounds. With these equations a statement about bin edges and spans becomes linear integer
arithmetic over `toInt`, which `omega` decides.
-/

set_option autoImplicit false

namespace RangeAdvisor.Saturating

theorem lo_le_toInt (x : Int32) : lo ≤ x.toInt := by
  have := x.le_toInt
  simp only [lo]
  omega

theorem toInt_le_hi (x : Int32) : x.toInt ≤ hi := by
  have := x.toInt_lt
  simp only [hi]
  omega

@[simp] theorem toInt_ofInt (i : Int) : (ofInt i).toInt = max lo (min i hi) := by
  unfold ofInt
  rw [Int32.toInt_ofInt_of_le] <;> simp only [lo, hi] <;> omega

theorem toInt_ofInt_of_mem {i : Int} (h₁ : lo ≤ i) (h₂ : i ≤ hi) : (ofInt i).toInt = i := by
  rw [toInt_ofInt]
  omega

@[simp] theorem toInt_add (a b : Int32) :
    (add a b).toInt = max lo (min (a.toInt + b.toInt) hi) := toInt_ofInt _

@[simp] theorem toInt_sub (a b : Int32) :
    (sub a b).toInt = max lo (min (a.toInt - b.toInt) hi) := toInt_ofInt _

/-- Wrapping addition of two small widths does not wrap. -/
theorem toInt_wrapping_add {a b : Int32} (h₁ : lo ≤ a.toInt + b.toInt) (h₂ : a.toInt + b.toInt ≤ hi) :
    (a + b).toInt = a.toInt + b.toInt := by
  rw [Int32.toInt_add]
  simp only [lo, hi] at h₁ h₂
  exact Int.bmod_eq_of_le (by omega) (by omega)

theorem add_zero (a : Int32) : add a 0 = a := by
  rw [← Int32.toInt_inj, toInt_add]
  have := lo_le_toInt a
  have := toInt_le_hi a
  simp only [Int32.toInt_zero]
  omega

@[simp] theorem toInt_min (x y : Int32) : (min x y).toInt = min x.toInt y.toInt := by
  show (if x ≤ y then x else y).toInt = _
  split <;> rename_i h <;> rw [Int32.le_iff_toInt_le] at h <;> omega

@[simp] theorem toInt_max (x y : Int32) : (max x y).toInt = max x.toInt y.toInt := by
  show (if x ≤ y then y else x).toInt = _
  split <;> rename_i h <;> rw [Int32.le_iff_toInt_le] at h <;> omega

theorem toInt_clamp (x l h : Int32) :
    (clamp x l h).toInt =
      if x.toInt < l.toInt then l.toInt else if h.toInt < x.toInt then h.toInt else x.toInt := by
  unfold clamp
  by_cases h₁ : x < l
  · rw [if_pos h₁, if_pos (Int32.lt_iff_toInt_lt.mp h₁)]
  · rw [if_neg h₁, if_neg (mt Int32.lt_iff_toInt_lt.mpr h₁)]
    by_cases h₂ : h < x
    · rw [if_pos h₂, if_pos (Int32.lt_iff_toInt_lt.mp h₂)]
    · rw [if_neg h₂, if_neg (mt Int32.lt_iff_toInt_lt.mpr h₂)]

/-- A clamp into a non-empty interval lands in it. -/
theorem clamp_mem (x : Int32) {l h : Int32} (hlh : l.toInt ≤ h.toInt) :
    l.toInt ≤ (clamp x l h).toInt ∧ (clamp x l h).toInt ≤ h.toInt := by
  rw [toInt_clamp]
  by_cases h₁ : x.toInt < l.toInt <;> by_cases h₂ : h.toInt < x.toInt <;>
    simp only [h₁, h₂, if_true, if_false] <;> omega

/-- A clamp into a non-empty interval keeps the order of what it clamps. -/
theorem clamp_mono {x y l h : Int32} (hlh : l.toInt ≤ h.toInt) (hxy : x.toInt ≤ y.toInt) :
    (clamp x l h).toInt ≤ (clamp y l h).toInt := by
  rw [toInt_clamp, toInt_clamp]
  by_cases h₁ : x.toInt < l.toInt <;> by_cases h₂ : h.toInt < x.toInt <;>
    by_cases h₃ : y.toInt < l.toInt <;> by_cases h₄ : h.toInt < y.toInt <;>
    simp only [h₁, h₂, h₃, h₄, if_true, if_false] <;> omega

theorem ofInt_mono {i j : Int} (h : i ≤ j) : (ofInt i).toInt ≤ (ofInt j).toInt := by
  rw [toInt_ofInt, toInt_ofInt]
  omega

end RangeAdvisor.Saturating
