import RangeAdvisor.Proofs.Float.Nearest

/-!
# How far rounding moves a value

Rounding to binary64 moves `x` by at most half its last place. For a normal value the last place
is at most `2^-52` of it; anywhere above `2^-1025`, subnormals included, rounding moves `x` by at
most `2^-50` of `x`, and its logarithm by at most `2^-49`. A value that is an integer multiple of
its last place is kept, powers of two in range among them. The largest finite value `maxFinite`
times a float never rounds up: its fraction at the last place stays below one half. Main
statements: `abs_log_nearest_sub_le` and `nearest_maxFinite_mul_le`.
-/

set_option autoImplicit false

namespace RangeAdvisor.Rounding

/-! ### The size of a rounding -/

theorem abs_nearest_sub_le (x : ℝ) : |nearest x - x| ≤ 2 ^ (quantum x - 1) := by
  have hq : (0 : ℝ) < 2 ^ quantum x := zpow_pos two_pos _
  have h := abs_sub_nearestEven_le (x / 2 ^ quantum x)
  have hx : nearest x - x = -(x / 2 ^ quantum x - nearestEven (x / 2 ^ quantum x)) * 2 ^ quantum x := by
    rw [nearest]
    field_simp
    ring
  rw [hx, abs_mul, abs_neg, abs_of_pos hq, zpow_sub₀ two_ne_zero, zpow_one]
  calc _ ≤ 1 / 2 * 2 ^ quantum x := mul_le_mul_of_nonneg_right h hq.le
    _ = 2 ^ quantum x / 2 := by ring

/-- The last place of a normal value is at most `2^-52` of its size. -/
theorem two_zpow_quantum_le {x : ℝ} (hx : 2 ^ (-1022 : ℤ) ≤ |x|) :
    (2 : ℝ) ^ quantum x ≤ |x| / 2 ^ 52 := by
  have hpos : 0 < |x| := lt_of_lt_of_le (zpow_pos two_pos _) hx
  have hlog : -1022 ≤ Int.log 2 |x| :=
    (Int.zpow_le_iff_le_log (b := 2) one_lt_two hpos).mp (by exact_mod_cast hx)
  have hq : quantum x = Int.log 2 |x| - 52 := by unfold quantum; omega
  have hle : (2 : ℝ) ^ Int.log 2 |x| ≤ |x| := by
    exact_mod_cast Int.zpow_log_le_self (b := 2) one_lt_two hpos
  rw [hq, zpow_sub₀ two_ne_zero]
  exact div_le_div_of_nonneg_right (by exact_mod_cast hle) (by positivity)

/-- Below `2^k`, the last place is at most `2^(k - 53)`. -/
theorem quantum_le_of_abs_lt {x : ℝ} {k : ℤ} (hk : 1 ≤ k) (hx : |x| < 2 ^ k) :
    quantum x ≤ k - 53 := by
  unfold quantum
  rcases eq_or_lt_of_le (abs_nonneg x) with h0 | hpos
  · rw [← h0, Int.log_zero_right]
    omega
  have := (Int.lt_zpow_iff_log_lt (b := 2) one_lt_two hpos).mp (by exact_mod_cast hx)
  omega

theorem abs_nearest_sub_le_max (x : ℝ) :
    |nearest x - x| ≤ max (|x| / 2 ^ 53) (2 ^ (-1075 : ℤ)) := by
  rcases eq_or_ne x 0 with rfl | hx0
  · rw [nearest_zero, sub_zero, abs_zero]
    exact le_max_of_le_right (by positivity)
  refine (abs_nearest_sub_le x).trans ?_
  by_cases hx : 2 ^ (-1022 : ℤ) ≤ |x|
  · -- a normal value: half of at most `2^-52` of it
    refine le_max_of_le_left ?_
    rw [zpow_sub₀ two_ne_zero, zpow_one]
    have := two_zpow_quantum_le hx
    calc (2 : ℝ) ^ quantum x / 2 ≤ |x| / 2 ^ 52 / 2 := by gcongr
      _ = |x| / 2 ^ 53 := by ring
  · -- a subnormal value: the last place is the least one
    refine le_max_of_le_right (zpow_le_zpow_right₀ one_le_two ?_)
    have := (Int.lt_zpow_iff_log_lt (b := 2) one_lt_two (abs_pos.mpr hx0)).mp
      (by exact_mod_cast not_le.mp hx)
    unfold quantum
    omega

/-- Anywhere above `2^-1025`, subnormals included, rounding moves `x` by at most `2^-50` of it. -/
theorem abs_nearest_sub_le_of_le {x : ℝ} (hx : 2 ^ (-1025 : ℤ) ≤ x) :
    |nearest x - x| ≤ 2 ^ (-50 : ℤ) * x := by
  have hpos : 0 < x := lt_of_lt_of_le (zpow_pos two_pos _) hx
  refine (abs_nearest_sub_le_max x).trans (max_le ?_ ?_)
  · rw [abs_of_pos hpos]
    have : (2 : ℝ) ^ (-50 : ℤ) = 1 / 2 ^ 50 := by norm_num
    rw [this]
    have : x / 2 ^ 53 ≤ x / 2 ^ 50 := div_le_div_of_nonneg_left hpos.le (by positivity) (by norm_num)
    linarith
  · calc (2 : ℝ) ^ (-1075 : ℤ) = 2 ^ (-50 : ℤ) * 2 ^ (-1025 : ℤ) := by
          rw [← zpow_add₀ two_ne_zero]
          norm_num
      _ ≤ 2 ^ (-50 : ℤ) * x := by gcongr

/-! ### Logarithms -/

/-- A relative error of at most `η ≤ 1/2` moves the logarithm by at most `2η`. -/
theorem abs_log_sub_le {a b η : ℝ} (ha : 0 < a) (hη : η ≤ 1 / 2) (h : |b - a| ≤ η * a) :
    |Real.log b - Real.log a| ≤ 2 * η := by
  have hη0 : 0 ≤ η := nonneg_of_mul_nonneg_left ((abs_nonneg _).trans h) ha
  rw [abs_le] at h
  have hb : 0 < b := by nlinarith
  rw [abs_le]
  constructor
  · -- `log a - log b = log (a / b) ≤ a / b - 1`, and `b` is at least `(1 - η) a`
    have hlog := Real.log_le_sub_one_of_pos (div_pos ha hb)
    rw [Real.log_div ha.ne' hb.ne'] at hlog
    have hab : a / b - 1 ≤ 2 * η := by
      rw [div_sub_one hb.ne', div_le_iff₀ hb]
      nlinarith
    linarith
  · have hlog := Real.log_le_sub_one_of_pos (div_pos hb ha)
    rw [Real.log_div hb.ne' ha.ne'] at hlog
    have hba : b / a - 1 ≤ η := by
      rw [div_sub_one ha.ne', div_le_iff₀ ha]
      linarith
    linarith

/-- Above `2^-1025`, rounding moves the logarithm by at most `2^-49`. -/
theorem abs_log_nearest_sub_le {x : ℝ} (hx : 2 ^ (-1025 : ℤ) ≤ x) :
    |Real.log (nearest x) - Real.log x| ≤ 2 ^ (-49 : ℤ) := by
  have hpos : 0 < x := lt_of_lt_of_le (zpow_pos two_pos _) hx
  have h := abs_log_sub_le hpos (by norm_num) (abs_nearest_sub_le_of_le hx)
  calc _ ≤ 2 * 2 ^ (-50 : ℤ) := h
    _ = 2 ^ (-49 : ℤ) := by norm_num

/-! ### Values that are kept -/

/-- A multiple of `2^e` with `e` at least its last place is kept. -/
theorem nearest_intCast_mul_zpow {k : ℤ} {e : ℤ} (he : quantum (k * 2 ^ e) ≤ e) :
    nearest (k * 2 ^ e) = k * 2 ^ e := by
  obtain ⟨n, hn⟩ : ∃ n : ℕ, (n : ℤ) = e - quantum (k * 2 ^ e) :=
    ⟨(e - quantum ((k : ℝ) * 2 ^ e)).toNat, by omega⟩
  have hdiv : (k : ℝ) * 2 ^ e / 2 ^ quantum (k * 2 ^ e) = ((k * 2 ^ n : ℤ) : ℝ) := by
    rw [mul_div_assoc, ← zpow_sub₀ two_ne_zero, ← hn]
    push_cast
    rfl
  rw [nearest, hdiv, nearestEven_intCast, Int.cast_mul, Int.cast_pow, Int.cast_ofNat, mul_assoc,
    ← zpow_natCast, ← zpow_add₀ two_ne_zero, hn, sub_add_cancel]

theorem nearest_two_zpow {k : ℤ} (hk : -1074 ≤ k) : nearest (2 ^ k) = 2 ^ k := by
  have h := nearest_intCast_mul_zpow (k := 1) (e := k) (by
    rw [Int.cast_one, one_mul, quantum, abs_of_pos (zpow_pos two_pos k)]
    have : Int.log 2 ((2 : ℝ) ^ k) = k := by exact_mod_cast Int.log_zpow (R := ℝ) (b := 2) one_lt_two k
    omega)
  rwa [Int.cast_one, one_mul] at h

theorem nearest_one : nearest 1 = 1 := by
  simpa using nearest_two_zpow (k := 0) (by norm_num)

/-- A natural below `2^53` is kept. -/
theorem nearest_natCast {n : ℕ} (hn : n < 2 ^ 53) : nearest n = n := by
  rcases Nat.eq_zero_or_pos n with rfl | hpos
  · simpa using nearest_zero
  have h := nearest_intCast_mul_zpow (k := n) (e := 0) (by
    rw [Int.cast_natCast, quantum_natCast_mul_zpow hpos]
    have := (Nat.log2_lt hpos.ne').mpr hn
    omega)
  simpa using h

/-! ### Rounding down -/

/-- A value whose fraction at its last place is below one half rounds down. -/
theorem nearest_le_self_of_fract_lt {x : ℝ}
    (h : x / 2 ^ quantum x - ⌊x / 2 ^ quantum x⌋ < 1 / 2) : nearest x ≤ x := by
  have hq : (0 : ℝ) < 2 ^ quantum x := zpow_pos two_pos _
  have hfloor : nearestEven (x / 2 ^ quantum x) = ⌊x / 2 ^ quantum x⌋ := by
    unfold nearestEven
    rw [if_pos h]
  calc nearest x = ⌊x / 2 ^ quantum x⌋ * 2 ^ quantum x := by rw [nearest, hfloor]
    _ ≤ x / 2 ^ quantum x * 2 ^ quantum x :=
        mul_le_mul_of_nonneg_right (Int.floor_le _) hq.le
    _ = x := div_mul_cancel₀ x hq.ne'

/-- The fraction of a quotient of naturals is the remainder's share. -/
theorem natCast_div_sub_floor (a d : ℕ) (hd : 0 < d) :
    (a : ℝ) / d - ⌊(a : ℝ) / d⌋ = ((a % d : ℕ) : ℝ) / d := by
  have hd' : (0 : ℝ) < d := by exact_mod_cast hd
  have hfloor : ⌊(a : ℝ) / d⌋ = ((a / d : ℕ) : ℤ) := by
    rw [Int.floor_div_natCast, Int.floor_natCast, Int.natCast_div]
  have hsplit : (a : ℝ) = d * (a / d : ℕ) + (a % d : ℕ) := by exact_mod_cast (Nat.div_add_mod a d).symm
  rw [hfloor, Int.cast_natCast, eq_div_iff hd'.ne', sub_mul, div_mul_cancel₀ _ hd'.ne', hsplit]
  ring

/-- The mantissa `(2^53 - 1) · M` of the largest finite value times `M` leaves less than half a unit
below its 53 leading bits: with `M = 2^l + j`, the remainder is `2^(l+1) - M` when `j > 0`, and
nothing when `M = 2^l`. -/
theorem two_mul_mod_lt {M : ℕ} (hM : 0 < M) (hM53 : M < 2 ^ 53) :
    2 * ((2 ^ 53 - 1) * M % 2 ^ (Nat.log2 ((2 ^ 53 - 1) * M) - 52)) <
      2 ^ (Nat.log2 ((2 ^ 53 - 1) * M) - 52) := by
  have hN : (2 ^ 53 - 1) * M ≠ 0 := by positivity
  have hP : 2 ^ Nat.log2 M ≤ M := Nat.log2_self_le hM.ne'
  have hM2 : M < 2 * 2 ^ Nat.log2 M := by rw [← Nat.pow_succ']; exact Nat.lt_log2_self
  have hl : Nat.log2 M < 53 := (Nat.log2_lt hM.ne').mpr hM53
  obtain ⟨P, hPdef⟩ : ∃ P, 2 ^ Nat.log2 M = P := ⟨_, rfl⟩
  -- `2^53` is a multiple of `2^(l + 1)`
  have hsplit : 2 ^ 53 = 2 * P * 2 ^ (52 - Nat.log2 M) := by
    rw [← hPdef, ← Nat.pow_succ', ← Nat.pow_add]
    congr 1
    omega
  rw [hPdef] at hP hM2
  rcases eq_or_lt_of_le hP with hMP | hlt
  · -- `M = 2^l`: the product is exact at its last place
    have hlog : Nat.log2 ((2 ^ 53 - 1) * M) = 52 + Nat.log2 M := by
      apply le_antisymm
      · have := (Nat.log2_lt hN).mpr (show (2 ^ 53 - 1) * M < 2 ^ (53 + Nat.log2 M) by
          rw [Nat.pow_add, hPdef]; omega)
        omega
      · exact (Nat.le_log2 hN).mpr (by rw [Nat.pow_add, hPdef]; omega)
    rw [hlog, show 52 + Nat.log2 M - 52 = Nat.log2 M by omega, hPdef, ← hMP, Nat.mul_mod_left]
    omega
  · -- `M > 2^l`: one more leading bit, and the remainder `2^(l+1) - M` is below `2^l`
    have hlog : Nat.log2 ((2 ^ 53 - 1) * M) = 53 + Nat.log2 M := by
      apply le_antisymm
      · have := (Nat.log2_lt hN).mpr (show (2 ^ 53 - 1) * M < 2 ^ (54 + Nat.log2 M) by
          rw [Nat.pow_add, hPdef]; omega)
        omega
      · exact (Nat.le_log2 hN).mpr (by rw [Nat.pow_add, hPdef]; omega)
    have hK : 1 ≤ 2 ^ (52 - Nat.log2 M) * M := Nat.one_le_iff_ne_zero.mpr (by positivity)
    have hsum : (2 ^ 53 - 1) * M = (2 * P - M) + 2 * P * (2 ^ (52 - Nat.log2 M) * M - 1) := by
      zify [hK, hM2.le, (show 1 ≤ 2 ^ 53 by norm_num)]
      have hsplit' : (2 : ℤ) ^ 53 = 2 * P * 2 ^ (52 - Nat.log2 M) := by exact_mod_cast hsplit
      linear_combination (M : ℤ) * hsplit'
    rw [hlog, show 53 + Nat.log2 M - 52 = Nat.log2 M + 1 by omega,
      show 2 ^ (Nat.log2 M + 1) = 2 * P by rw [Nat.pow_succ', hPdef], hsum,
      Nat.add_mul_mod_self_left, Nat.mod_eq_of_lt (by omega)]
    omega

/-- The largest finite value times a positive float never rounds up. -/
theorem nearest_maxFinite_mul_le {M : ℕ} (hM : 0 < M) (hM53 : M < 2 ^ 53) {f : ℤ} (hf : -1074 ≤ f) :
    nearest (maxFinite * (M * 2 ^ f)) ≤ maxFinite * (M * 2 ^ f) := by
  have hN : 0 < (2 ^ 53 - 1) * M := by positivity
  have hx : maxFinite * (M * 2 ^ f) = (((2 ^ 53 - 1) * M : ℕ) : ℝ) * 2 ^ (971 + f) := by
    rw [maxFinite, zpow_add₀ two_ne_zero, zpow_ofNat, Nat.cast_mul, Nat.cast_sub (by norm_num)]
    push_cast
    generalize (2 : ℝ) ^ 971 = c
    ring
  rw [hx]
  apply nearest_le_self_of_fract_lt
  -- the product is normal, so its last place is that of its 53rd bit
  have hlog : 52 ≤ Nat.log2 ((2 ^ 53 - 1) * M) := (Nat.le_log2 hN.ne').mpr (by omega)
  have hq : quantum ((((2 ^ 53 - 1) * M : ℕ) : ℝ) * 2 ^ (971 + f)) =
      ((Nat.log2 ((2 ^ 53 - 1) * M) - 52 : ℕ) : ℤ) + (971 + f) := by
    rw [quantum_natCast_mul_zpow hN]
    omega
  -- at its last place the product reads as the integer `(2^53 - 1) M` shifted right
  have hdiv : (((2 ^ 53 - 1) * M : ℕ) : ℝ) * 2 ^ (971 + f) /
      2 ^ (((Nat.log2 ((2 ^ 53 - 1) * M) - 52 : ℕ) : ℤ) + (971 + f)) =
      (((2 ^ 53 - 1) * M : ℕ) : ℝ) / ((2 ^ (Nat.log2 ((2 ^ 53 - 1) * M) - 52) : ℕ) : ℝ) := by
    rw [zpow_add₀ two_ne_zero _ (971 + f), mul_div_mul_right _ _ (zpow_ne_zero _ two_ne_zero),
      zpow_natCast]
    push_cast
    rfl
  rw [hq, hdiv, natCast_div_sub_floor _ _ (Nat.two_pow_pos _)]
  have h := two_mul_mod_lt hM hM53
  have hpos : (0 : ℝ) < ((2 ^ (Nat.log2 ((2 ^ 53 - 1) * M) - 52) : ℕ) : ℝ) := by positivity
  rw [div_lt_iff₀ hpos, one_div_mul_eq_div, lt_div_iff₀ two_pos]
  exact_mod_cast (by omega : (2 ^ 53 - 1) * M % 2 ^ (Nat.log2 ((2 ^ 53 - 1) * M) - 52) * 2 <
    2 ^ (Nat.log2 ((2 ^ 53 - 1) * M) - 52))

end RangeAdvisor.Rounding
