import RangeAdvisor.Proofs.Float.Nearest

/-!
# Rounding a mantissa to binary64

Floats are computed on unpacked values `±m · 2^e`, an operation leaving a mantissa with a round bit
and a sticky bit that describe the exact result below it (`Describes`). Rounding shifts the
mantissa right to the exponent the format gives the value, each shift passing the dropped bit to
the round bit and the old bits to the sticky bit, rounds to nearest even on the two bits, and
shifts once more when the rounding carried into a new bit. The outcome is the exact result
rounded to the nearest binary64 value, `Rounding.nearest`, in the canonical form the format
stores: 53 significant bits, or fewer at the least exponent. Products, sums and quotients of
canonical floats are therefore their exact results rounded. Main statements:
`roundWithAccuracy_roundsTo`, `mul_roundsTo`, `add_roundsTo` and `div_roundsTo`.
-/

set_option autoImplicit false

open Float.Model Float.Model.UnpackedFloat

namespace RangeAdvisor.Unpacked

open Rounding

/-! ### Shifting right with round and sticky bits -/

theorem shiftRight_zero (em : ExtendedMantissa) : em >>> 0 = em := rfl

theorem shiftRight_succ (em : ExtendedMantissa) (n : ℕ) :
    em >>> (n + 1) = (em >>> n).shiftRightOne := rfl

theorem mantissa_shiftRight (em : ExtendedMantissa) (n : ℕ) :
    (em >>> n).mantissa = em.mantissa / 2 ^ n := by
  induction n with
  | zero => simp [shiftRight_zero]
  | succ n ih =>
    rw [shiftRight_succ]
    show (em >>> n).mantissa / 2 = _
    rw [ih, Nat.div_div_eq_div_mul, ← Nat.pow_succ]

/-- `em` describes the real `y`: its mantissa is the integer part of `y`, its round bit says
whether the fraction reaches one half, and its sticky bit whether the fraction is neither zero
nor one half. -/
structure Describes (em : ExtendedMantissa) (y : ℝ) : Prop where
  mantissa_le : (em.mantissa : ℝ) ≤ y
  lt_mantissa_add_one : y < em.mantissa + 1
  round_iff : em.roundBit = true ↔ (em.mantissa : ℝ) + 1 / 2 ≤ y
  sticky_iff : em.stickyBit = true ↔ y ≠ em.mantissa ∧ y ≠ em.mantissa + 1 / 2

section Describes

variable {em : ExtendedMantissa} {y : ℝ}

/-- One shift halves the described value: the dropped bit becomes the round bit, and the old
round and sticky bits become the sticky bit. -/
theorem Describes.shiftRightOne (h : Describes em y) : Describes em.shiftRightOne (y / 2) := by
  obtain ⟨m, r, s⟩ := em
  obtain ⟨hle, hlt, hr, hs⟩ := h
  dsimp only at hle hlt hr hs
  -- the old bits together say only that `y` is not the integer `m`
  have hrs : (r || s) = true ↔ y ≠ m := by
    rw [Bool.or_eq_true, hr, hs]
    constructor
    · rintro (h | ⟨h, -⟩)
      · intro heq
        linarith
      · exact h
    · intro hne
      by_cases hhalf : (m : ℝ) + 1 / 2 ≤ y
      · exact .inl hhalf
      · exact .inr ⟨hne, fun heq => hhalf heq.ge⟩
  have hsplit : (m : ℝ) = 2 * ((m / 2 : ℕ) : ℝ) + ((m % 2 : ℕ) : ℝ) := by
    exact_mod_cast (Nat.div_add_mod m 2).symm
  show Describes ⟨m / 2, m % 2 != 0, r || s⟩ (y / 2)
  rcases Nat.mod_two_eq_zero_or_one m with hb | hb
  · -- an even mantissa: half of `y` keeps a fraction below one half
    rw [hb, Nat.cast_zero, add_zero] at hsplit
    refine ⟨by dsimp only; linarith, by dsimp only; linarith, ?_, ?_⟩
    · show (m % 2 != 0) = true ↔ _
      rw [hb]
      exact ⟨fun h => absurd h (by decide), fun h => by dsimp only at h; linarith⟩
    · show (r || s) = true ↔ _
      rw [hrs]
      constructor
      · intro hne
        exact ⟨fun h => hne (by linarith), fun h => by linarith⟩
      · rintro ⟨h, -⟩ heq
        exact h (by dsimp only; linarith)
  · -- an odd mantissa: half of `y` has a fraction of at least one half
    rw [hb, Nat.cast_one] at hsplit
    refine ⟨by dsimp only; linarith, by dsimp only; linarith, ?_, ?_⟩
    · show (m % 2 != 0) = true ↔ _
      rw [hb]
      exact ⟨fun _ => by dsimp only; linarith, fun _ => rfl⟩
    · show (r || s) = true ↔ _
      rw [hrs]
      constructor
      · intro hne
        exact ⟨fun h => by dsimp only at h; linarith, fun h => hne (by dsimp only at h; linarith)⟩
      · rintro ⟨-, h⟩ heq
        exact h (by dsimp only; linarith)

theorem Describes.shiftRight (h : Describes em y) (n : ℕ) : Describes (em >>> n) (y / 2 ^ n) := by
  induction n with
  | zero => simpa [shiftRight_zero] using h
  | succ n ih =>
    rw [shiftRight_succ, pow_succ, ← div_div]
    exact ih.shiftRightOne

/-- Rounding on the round and sticky bits rounds the described value to nearest even. -/
theorem Describes.roundedMantissa (h : Describes em y) : (em.roundedMantissa : ℤ) = nearestEven y := by
  obtain ⟨m, r, s⟩ := em
  obtain ⟨hle, hlt, hr, hs⟩ := h
  dsimp only at hle hlt hr hs
  have hfloor : ⌊y⌋ = (m : ℤ) := Int.floor_eq_iff.mpr ⟨by exact_mod_cast hle, by exact_mod_cast hlt⟩
  unfold nearestEven
  rw [hfloor, Int.cast_natCast]
  cases r <;> cases s
  · -- no bit left: `y` is the mantissa
    have hy : y = m := by
      by_contra hne
      have := hs.mpr ⟨hne, fun heq => absurd (hr.mpr heq.ge) (by decide)⟩
      exact absurd this (by decide)
    rw [if_pos (by linarith)]
    rfl
  · -- below the half
    have hy : y < m + 1 / 2 := not_le.mp (fun h => absurd (hr.mpr h) (by decide))
    rw [if_pos (by linarith)]
    rfl
  · -- exactly the half: the even neighbour
    have hy : y = m + 1 / 2 := by
      by_contra hne
      have := hs.mpr ⟨fun heq => by linarith [hr.mp rfl], hne⟩
      exact absurd this (by decide)
    rw [if_neg (by linarith), if_neg (by linarith)]
    show ((m + m % 2 : ℕ) : ℤ) = _
    rcases Nat.mod_two_eq_zero_or_one m with hb | hb
    · rw [if_pos (Int.even_coe_nat m |>.mpr (Nat.even_iff.mpr hb))]
      omega
    · rw [if_neg (fun h => by rw [Int.even_coe_nat, Nat.even_iff] at h; omega)]
      omega
  · -- past the half
    have hhalf := hr.mp rfl
    have hne := (hs.mp rfl).2
    rw [if_neg (by linarith), if_pos (lt_of_le_of_ne (by linarith) (fun h => hne (by linarith)))]
    rfl

end Describes

theorem mantissa_ofMantissaAndAccuracy (m : ℕ) (acc : Accuracy) :
    (ExtendedMantissa.ofMantissaAndAccuracy m acc).mantissa = m := by
  rcases acc with _ | ⟨_ | _ | _⟩ <;> rfl

/-- A mantissa `q` with the accuracy of a remainder `r` out of `d` describes `q + r/d`. -/
theorem describes_fraction (q : ℕ) {r d : ℕ} (hrd : r < d) :
    Describes (ExtendedMantissa.ofMantissaAndAccuracy q (accuracyOfFraction r d)) (q + r / d) := by
  have hd : (0 : ℝ) < d := by exact_mod_cast (show 0 < d by omega)
  have hfrac : (r : ℝ) / d < 1 := (div_lt_one hd).mpr (by exact_mod_cast hrd)
  have hnonneg : 0 ≤ (r : ℝ) / d := by positivity
  have hhalf : (1 / 2 : ℝ) ≤ r / d ↔ d ≤ 2 * r := by
    rw [le_div_iff₀ hd]
    constructor <;> intro h
    · exact_mod_cast (show (d : ℝ) ≤ 2 * r by linarith)
    · have : (d : ℝ) ≤ 2 * r := by exact_mod_cast h
      linarith
  have htie : (r : ℝ) / d = 1 / 2 ↔ d = 2 * r := by
    rw [div_eq_iff hd.ne']
    constructor <;> intro h
    · exact_mod_cast (show (d : ℝ) = 2 * r by linarith)
    · have : (d : ℝ) = 2 * r := by exact_mod_cast h
      linarith
  have hzero : (r : ℝ) / d = 0 ↔ r = 0 := by
    rw [div_eq_zero_iff]
    constructor
    · rintro (h | h)
      · exact_mod_cast h
      · exact absurd h hd.ne'
    · intro h
      exact .inl (by exact_mod_cast h)
  refine ⟨?_, ?_, ?_, ?_⟩ <;> rw [mantissa_ofMantissaAndAccuracy]
  · linarith
  · linarith
  · rw [show ((q : ℝ) + 1 / 2 ≤ q + r / d) ↔ (1 / 2 : ℝ) ≤ r / d from add_le_add_iff_left _, hhalf]
    unfold accuracyOfFraction
    split
    · rename_i h0
      subst h0
      exact ⟨fun h => absurd h Bool.false_ne_true, fun h => by omega⟩
    · rcases Nat.lt_trichotomy (2 * r) d with hlt | heq | hgt
      · rw [Nat.compare_eq_lt.mpr hlt]
        exact ⟨fun h => absurd h Bool.false_ne_true, fun h => by omega⟩
      · rw [Nat.compare_eq_eq.mpr heq]
        exact ⟨fun _ => by omega, fun _ => rfl⟩
      · rw [Nat.compare_eq_gt.mpr hgt]
        exact ⟨fun _ => by omega, fun _ => rfl⟩
  · rw [Ne, Ne, add_eq_left, show ((q : ℝ) + r / d = q + 1 / 2) ↔ (r : ℝ) / d = 1 / 2 from
      add_right_inj _, hzero, htie]
    unfold accuracyOfFraction
    split
    · rename_i h0
      exact ⟨fun h => absurd h Bool.false_ne_true, fun h => absurd h0 h.1⟩
    · rename_i h0
      rcases Nat.lt_trichotomy (2 * r) d with hlt | heq | hgt
      · rw [Nat.compare_eq_lt.mpr hlt]
        exact ⟨fun _ => ⟨h0, by omega⟩, fun _ => rfl⟩
      · rw [Nat.compare_eq_eq.mpr heq]
        exact ⟨fun h => absurd h Bool.false_ne_true, fun h => absurd heq.symm h.2⟩
      · rw [Nat.compare_eq_gt.mpr hgt]
        exact ⟨fun _ => ⟨h0, by omega⟩, fun _ => rfl⟩

theorem describes_exact (q : ℕ) : Describes (ExtendedMantissa.ofMantissaAndAccuracy q .exact) q := by
  simpa [accuracyOfFraction] using describes_fraction q one_pos

/-- The integer part of `y ≥ 0` with the accuracy of its fraction describes `y`. -/
theorem describes_floor {y : ℝ} (hy : 0 ≤ y) :
    Describes (ExtendedMantissa.ofMantissaAndAccuracy ⌊y⌋₊ (fractionAccuracy y)) y := by
  have hle := Nat.floor_le hy
  have hlt := Nat.lt_floor_add_one y
  refine ⟨?_, ?_, ?_, ?_⟩ <;> rw [mantissa_ofMantissaAndAccuracy]
  · exact hle
  · exact hlt
  · unfold fractionAccuracy
    split
    · rename_i hint
      exact ⟨fun h => absurd h Bool.false_ne_true, fun h => by linarith⟩
    · rcases lt_trichotomy (y - ⌊y⌋₊) (1 / 2) with hbelow | htie | habove
      · rw [compare_lt_iff_lt.mpr hbelow]
        exact ⟨fun h => absurd h Bool.false_ne_true, fun h => by linarith⟩
      · rw [compare_eq_iff_eq.mpr htie]
        exact ⟨fun _ => by linarith, fun _ => rfl⟩
      · rw [compare_gt_iff_gt.mpr habove]
        exact ⟨fun _ => by linarith, fun _ => rfl⟩
  · unfold fractionAccuracy
    split
    · rename_i hint
      exact ⟨fun h => absurd h Bool.false_ne_true, fun h => absurd hint h.1⟩
    · rename_i hint
      rcases lt_trichotomy (y - ⌊y⌋₊) (1 / 2) with hbelow | htie | habove
      · rw [compare_lt_iff_lt.mpr hbelow]
        exact ⟨fun _ => ⟨hint, fun h => by linarith⟩, fun _ => rfl⟩
      · rw [compare_eq_iff_eq.mpr htie]
        exact ⟨fun h => absurd h Bool.false_ne_true, fun h => (h.2 (by linarith)).elim⟩
      · rw [compare_gt_iff_gt.mpr habove]
        exact ⟨fun _ => ⟨hint, fun h => by linarith⟩, fun _ => rfl⟩

/-! ### Rounding at the target exponent -/

theorem shiftToTargetExponent_eq {m : ℕ} {e : ℤ} (acc : Accuracy) (he : e ≤ target m e) :
    shiftToTargetExponent .binary64 m e acc =
      (ExtendedMantissa.ofMantissaAndAccuracy m acc >>> (target m e - e).toNat, target m e) := by
  show (_, e + ((target m e - e).toNat : ℤ)) = _
  rw [show e + ((target m e - e).toNat : ℤ) = target m e by omega]
  rfl

theorem roundedMantissa_le_succ (em : ExtendedMantissa) : em.roundedMantissa ≤ em.mantissa + 1 := by
  have := Nat.mod_lt em.mantissa two_pos
  obtain ⟨m, r, s⟩ := em
  cases r <;> cases s <;>
    simp only [ExtendedMantissa.roundedMantissa, ExtendedMantissa.accuracy,
      Accuracy.roundToNearestEven] <;> omega

theorem mantissa_le_roundedMantissa (em : ExtendedMantissa) : em.mantissa ≤ em.roundedMantissa := by
  obtain ⟨m, r, s⟩ := em
  cases r <;> cases s <;>
    simp only [ExtendedMantissa.roundedMantissa, ExtendedMantissa.accuracy,
      Accuracy.roundToNearestEven] <;> omega

section Mantissa

variable {m : ℕ} {e : ℤ}

/-- Shifted to its target exponent, a mantissa keeps at most 53 bits, and exactly 53 when the
value is normal. -/
theorem div_two_pow_lt (he : e ≤ target m e) : m / 2 ^ (target m e - e).toNat < 2 ^ 53 := by
  have ht := target_eq m e
  have hbits : m < 2 ^ 53 * 2 ^ (target m e - e).toNat := by
    calc m < 2 ^ (Nat.log2 m + 1) := Nat.lt_log2_self
      _ ≤ 2 ^ (53 + (target m e - e).toNat) := Nat.pow_le_pow_right two_pos (by omega)
      _ = 2 ^ 53 * 2 ^ (target m e - e).toNat := Nat.pow_add 2 53 _
  exact (Nat.div_lt_iff_lt_mul (Nat.two_pow_pos _)).mpr hbits

theorem two_pow_le_div (he : e ≤ target m e) (hnormal : target m e ≠ -1074) :
    2 ^ 52 ≤ m / 2 ^ (target m e - e).toNat := by
  have ht := target_eq m e
  have hm : m ≠ 0 := by
    rintro rfl
    have : Nat.log2 0 = 0 := rfl
    omega
  have hbits : 2 ^ 52 * 2 ^ (target m e - e).toNat ≤ m := by
    calc 2 ^ 52 * 2 ^ (target m e - e).toNat = 2 ^ (52 + (target m e - e).toNat) :=
          (Nat.pow_add 2 52 _).symm
      _ ≤ 2 ^ Nat.log2 m := Nat.pow_le_pow_right two_pos (by omega)
      _ ≤ m := Nat.log2_self_le hm
  exact (Nat.le_div_iff_mul_le (Nat.two_pow_pos _)).mpr hbits

/-- A positive real whose integer part at the exponent `e` is `m` has the target exponent of
`m · 2^e` as its last place, provided `e` is at most that target. -/
theorem quantum_eq_target_of_mem {x : ℝ} (hx : 0 < x) (he : e ≤ target m e)
    (hlo : (m : ℝ) * 2 ^ e ≤ x) (hhi : x < (m + 1) * 2 ^ e) : quantum x = target m e := by
  rw [quantum, abs_of_pos hx, target_eq]
  rcases Nat.eq_zero_or_pos m with rfl | hm
  · -- below `2^e`, and `e` is at most the least exponent
    have hlog0 : Nat.log2 0 = 0 := rfl
    rw [target_eq, hlog0] at he
    have hsmall : x < 2 ^ e := by simpa using hhi
    have := (Int.lt_zpow_iff_log_lt (b := 2) one_lt_two hx).mp (by exact_mod_cast hsmall)
    rw [hlog0]
    omega
  · rw [log_of_le_of_lt hm hlo hhi]

/-- The canonical exponent of a mantissa of at most 53 bits placed at a target exponent. -/
theorem target_of_lt {q : ℕ} {t : ℤ} (hq : q < 2 ^ 53) (ht : -1074 ≤ t)
    (hnormal : t ≠ -1074 → 2 ^ 52 ≤ q) : target q t = t := by
  rw [target_eq]
  rcases Nat.eq_zero_or_pos q with rfl | hpos
  · have : Nat.log2 0 = 0 := rfl
    omega
  have hlt := (Nat.log2_lt hpos.ne').mpr hq
  by_cases ht' : t = -1074
  · omega
  have hle := (Nat.le_log2 hpos.ne').mpr (hnormal ht')
  omega

end Mantissa

/-- Rounding a mantissa `m` at the exponent `e`, its round and sticky bits describing `x / 2^e`,
gives `x` rounded to the nearest binary64 value in canonical form, when `e` is at most the target
exponent of `m · 2^e`. -/
theorem roundWithAccuracy_roundsTo (s : Sign) {x : ℝ} {m : ℕ} {e : ℤ} {acc : Accuracy}
    (hx : Describes (ExtendedMantissa.ofMantissaAndAccuracy m acc) (x / 2 ^ e))
    (he : e ≤ target m e) :
    RoundsTo (signed s x) (roundWithAccuracy .binary64 s m e acc) := by
  have h2e : (0 : ℝ) < 2 ^ e := zpow_pos two_pos e
  have hlo : (m : ℝ) * 2 ^ e ≤ x := by
    have := hx.mantissa_le
    rwa [mantissa_ofMantissaAndAccuracy, le_div_iff₀ h2e] at this
  have hhi : x < (m + 1) * 2 ^ e := by
    have := hx.lt_mantissa_add_one
    rwa [mantissa_ofMantissaAndAccuracy, div_lt_iff₀ h2e] at this
  have ht : -1074 ≤ target m e := by rw [target_eq]; omega
  -- after the first shift the extended mantissa describes `x / 2^(target m e)`
  have hshift := hx.shiftRight (target m e - e).toNat
  rw [div_div, ← zpow_natCast, ← zpow_add₀ two_ne_zero,
    show e + ((target m e - e).toNat : ℤ) = target m e by omega] at hshift
  have hvalue : nearest x = nearestEven (x / 2 ^ target m e) * 2 ^ target m e := by
    rcases (le_trans (by positivity) hlo : (0 : ℝ) ≤ x).eq_or_lt with h0 | hpos
    · rw [← h0]
      simp [nearest_zero, nearestEven_zero]
    · rw [nearest, quantum_eq_target_of_mem hpos he hlo hhi]
  have hfloor : (ExtendedMantissa.ofMantissaAndAccuracy m acc >>> (target m e - e).toNat).mantissa =
      m / 2 ^ (target m e - e).toNat := by
    rw [mantissa_shiftRight, mantissa_ofMantissaAndAccuracy]
  have hq := roundedMantissa_le_succ (ExtendedMantissa.ofMantissaAndAccuracy m acc >>> (target m e - e).toNat)
  have hnormal := mantissa_le_roundedMantissa
    (ExtendedMantissa.ofMantissaAndAccuracy m acc >>> (target m e - e).toNat)
  have hround := hshift.roundedMantissa
  rw [hfloor] at hq hnormal
  have hbits := div_two_pow_lt he
  have hbits' := two_pow_le_div he
  unfold roundWithAccuracy
  rw [shiftToTargetExponent_eq acc he]
  obtain ⟨q, hqdef⟩ : ∃ q, (ExtendedMantissa.ofMantissaAndAccuracy m acc >>>
      (target m e - e).toNat).roundedMantissa = q := ⟨_, rfl⟩
  obtain ⟨t, htdef⟩ : ∃ t, target m e = t := ⟨_, rfl⟩
  rw [hqdef] at hq hnormal hround
  rw [← hround, Int.cast_natCast] at hvalue
  simp only [hqdef]
  simp only [htdef] at hvalue hbits hbits' ht hq hnormal ⊢
  have hnormal' : t ≠ -1074 → 2 ^ 52 ≤ q := fun h => (hbits' h).trans hnormal
  have hq53 : q ≤ 2 ^ 53 := by omega
  rcases Nat.lt_or_ge q (2 ^ 53) with hlt | hcarry
  · -- no carry: the rounded mantissa already sits at its canonical exponent
    have htq : target q t = t := target_of_lt hlt ht hnormal'
    have hsecond : shiftToTargetExponent .binary64 q t .exact =
        (ExtendedMantissa.ofMantissaAndAccuracy q .exact >>> 0, t) := by
      have := shiftToTargetExponent_eq (m := q) (e := t) .exact htq.ge
      rwa [htq, sub_self] at this
    simp only [hsecond, mantissa_shiftRight, mantissa_ofMantissaAndAccuracy, pow_zero, Nat.div_one]
    split
    · rename_i hzero
      show nearest _ = 0
      rw [nearest_signed, hvalue, hzero]
      cases s <;> simp [signed]
    · exact ⟨htq, by rw [nearest_signed, hvalue]⟩
  · -- a carry to `2^53`: one more shift gives `2^52` at the next exponent
    have hq53 : q = 2 ^ 53 := le_antisymm hq53 hcarry
    subst hq53
    have htq : target (2 ^ 53) t = t + 1 := by
      rw [target_eq, show Nat.log2 (2 ^ 53) = 53 from rfl]
      omega
    have hsecond : shiftToTargetExponent .binary64 (2 ^ 53) t .exact =
        (ExtendedMantissa.ofMantissaAndAccuracy (2 ^ 53) .exact >>> 1, t + 1) := by
      have := shiftToTargetExponent_eq (m := 2 ^ 53) (e := t) .exact (by omega)
      rwa [htq, show t + 1 - t = 1 by omega] at this
    simp only [hsecond, mantissa_shiftRight, mantissa_ofMantissaAndAccuracy]
    split
    · rename_i h
      exact absurd h (by decide)
    · refine ⟨by rw [target_eq, show Nat.log2 (2 ^ 53 / 2 ^ 1) = 52 from rfl]; omega, ?_⟩
      rw [nearest_signed, hvalue, zpow_add_one₀ two_ne_zero]
      congr 1
      push_cast
      ring

/-- Rounding an exact `±m · 2^e` whose exponent is at most its target. -/
theorem roundWithAccuracy_exact (s : Sign) (m : ℕ) {e : ℤ} (he : e ≤ target m e) :
    RoundsTo (signed s (m * 2 ^ e)) (roundWithAccuracy .binary64 s m e .exact) := by
  refine roundWithAccuracy_roundsTo s ?_ he
  rw [mul_div_cancel_right₀ _ (zpow_ne_zero _ two_ne_zero)]
  exact describes_exact m

/-- Lowering the exponent to the target first lets any finite `±m · 2^e` be rounded. -/
theorem round_roundsTo (s : Sign) {m : ℕ} (hm : 0 < m) (e : ℤ) :
    RoundsTo (signed s (m * 2 ^ e)) (round .binary64 s m e) := by
  obtain ⟨k, hk⟩ : ∃ k : ℕ, k = (e - target m e).toNat := ⟨_, rfl⟩
  have hm' : 0 < m <<< k := by rw [Nat.shiftLeft_eq]; positivity
  -- shifting left keeps the value and the position of the leading bit
  have hlog : Nat.log2 (m <<< k) = Nat.log2 m + k := by
    rw [Nat.shiftLeft_eq]
    apply le_antisymm
    · have := (Nat.log2_lt (by positivity)).mpr (show m * 2 ^ k < 2 ^ (Nat.log2 m + k + 1) by
        rw [Nat.add_right_comm, Nat.pow_add]
        exact Nat.mul_lt_mul_of_pos_right Nat.lt_log2_self (Nat.two_pow_pos k))
      omega
    · exact (Nat.le_log2 (by positivity)).mpr (by
        rw [Nat.pow_add]
        exact Nat.mul_le_mul_right _ (Nat.log2_self_le hm.ne'))
  have hvalue : ((m <<< k : ℕ) : ℝ) * 2 ^ (e - k) = m * 2 ^ e := by
    rw [Nat.shiftLeft_eq, zpow_sub₀ two_ne_zero, zpow_natCast]
    push_cast
    field_simp
  have he : e - k ≤ target (m <<< k) (e - k) := by
    have := target_eq m e
    rw [target_eq, hlog]
    omega
  have := roundWithAccuracy_exact s (m <<< k) he
  rw [hvalue] at this
  show RoundsTo _ (roundWithAccuracy .binary64 s (m <<< (e - target m e).toNat)
    (e - ((e - target m e).toNat : ℕ)) .exact)
  rwa [← hk]

/-- A signed mantissa is rounded by its magnitude with its sign; zero stays exact. -/
theorem normalize_roundsTo (M : ℤ) (e : ℤ) (zeroSign : Sign) :
    RoundsTo (M * 2 ^ e) (UnpackedFloat.normalize .binary64 M e zeroSign) := by
  unfold UnpackedFloat.normalize
  rcases lt_trichotomy M 0 with hneg | hzero | hpos
  · rw [compare_lt_iff_lt.mpr hneg]
    have := round_roundsTo .negative (m := (-M).toNat) (by omega) e
    have hcast : (((-M).toNat : ℕ) : ℝ) = -M := by
      rw [← Int.cast_natCast, Int.toNat_of_nonneg (by omega), Int.cast_neg]
    rwa [hcast, signed, neg_mul, neg_neg] at this
  · rw [compare_eq_iff_eq.mpr hzero, hzero]
    show nearest _ = 0
    simp [nearest_zero]
  · rw [compare_gt_iff_gt.mpr hpos]
    have := round_roundsTo .positive (m := M.toNat) (by omega) e
    rwa [show ((M.toNat : ℕ) : ℝ) = M by rw [← Int.cast_natCast, Int.toNat_of_nonneg hpos.le],
      signed] at this

/-! ### Products, sums and quotients -/

section Operations

variable {u v : UnpackedFloat}

theorem real_signed_mul (s₁ s₂ : Sign) (x y : ℝ) :
    signed (s₁ * s₂) (x * y) = signed s₁ x * signed s₂ y := by
  cases s₁ <;> cases s₂ <;> simp only [signed] <;> first | rfl | ring

/-- The product of two canonical finite mantissas needs no exponent below its target. -/
theorem add_le_target {m₁ m₂ : ℕ} (hm₁ : 0 < m₁) (hm₂ : 0 < m₂) {e₁ e₂ : ℤ}
    (hc₁ : target m₁ e₁ = e₁) (hc₂ : target m₂ e₂ = e₂) : e₁ + e₂ ≤ target (m₁ * m₂) (e₁ + e₂) := by
  have hlog : Nat.log2 m₁ + Nat.log2 m₂ ≤ Nat.log2 (m₁ * m₂) := by
    apply (Nat.le_log2 (Nat.mul_pos hm₁ hm₂).ne').mpr
    rw [Nat.pow_add]
    exact Nat.mul_le_mul (Nat.log2_self_le hm₁.ne') (Nat.log2_self_le hm₂.ne')
  rw [target_eq] at hc₁ hc₂ ⊢
  omega

/-- The product of canonical finite floats is their exact product rounded. -/
theorem mul_roundsTo (hu : Canonical u) (hv : Canonical v) (hfu : u.isFinite = true)
    (hfv : v.isFinite = true) : RoundsTo (real u * real v) (mul .binary64 u v) := by
  cases u with
  | zero s₁ =>
    cases v with
    | zero s₂ => show nearest _ = 0; simp [real, nearest_zero]
    | finite s₂ m₂ e₂ h₂ => show nearest _ = 0; simp [real, nearest_zero]
    | _ => cases hfv
  | finite s₁ m₁ e₁ h₁ =>
    cases v with
    | zero s₂ => show nearest _ = 0; simp [real, nearest_zero]
    | finite s₂ m₂ e₂ h₂ =>
      have := roundWithAccuracy_exact (s₁ * s₂) (m₁ * m₂) (add_le_target h₁ h₂ hu hv)
      show RoundsTo _ (roundWithAccuracy .binary64 (s₁ * s₂) (m₁ * m₂) (e₁ + e₂) .exact)
      rw [real, real, ← real_signed_mul]
      convert this using 2
      rw [zpow_add₀ two_ne_zero]
      push_cast
      ring
    | _ => cases hfv
  | _ => cases hfu

/-- The sum of finite floats is their exact sum rounded; a zero operand leaves the other. -/
theorem add_roundsTo (hu : Canonical u) (hv : Canonical v) (hfu : u.isFinite = true)
    (hfv : v.isFinite = true) : RoundsTo (real u + real v) (add .binary64 u v) := by
  cases u with
  | zero s₁ =>
    cases v with
    | zero s₂ =>
      show RoundsTo (0 + 0) (if s₁ == s₂ then .zero s₁ else .zero .positive)
      split <;> exact (show nearest (0 + 0) = 0 by simp [nearest_zero])
    | finite s₂ m₂ e₂ h₂ =>
      show RoundsTo (0 + _) (.finite s₂ m₂ e₂ h₂)
      rw [zero_add]
      exact roundsTo_real hv hfv
    | _ => cases hfv
  | finite s₁ m₁ e₁ h₁ =>
    cases v with
    | zero s₂ =>
      show RoundsTo (_ + 0) (.finite s₁ m₁ e₁ h₁)
      rw [add_zero]
      exact roundsTo_real hu hfu
    | finite s₂ m₂ e₂ h₂ =>
      -- both mantissas are brought to the smaller exponent and added as integers
      have hshift (s : Sign) (m : ℕ) (e : ℤ) (hle : min e₁ e₂ ≤ e) :
          ((s.apply (m <<< (e - min e₁ e₂).toNat : ℕ) : ℤ) : ℝ) * 2 ^ min e₁ e₂ =
            signed s (m * 2 ^ e) := by
        have hk : e = min e₁ e₂ + ((e - min e₁ e₂).toNat : ℕ) := by omega
        conv_rhs => rw [hk]
        rw [Nat.shiftLeft_eq, zpow_add₀ two_ne_zero, zpow_natCast]
        cases s <;> simp [Sign.apply, signed] <;> ring
      have := normalize_roundsTo (s₁.apply (m₁ <<< (e₁ - min e₁ e₂).toNat) +
        s₂.apply (m₂ <<< (e₂ - min e₁ e₂).toNat)) (min e₁ e₂) .positive
      rw [Int.cast_add, add_mul, hshift s₁ m₁ e₁ (min_le_left _ _),
        hshift s₂ m₂ e₂ (min_le_right _ _)] at this
      exact this
    | _ => cases hfv
  | _ => cases hfu

theorem real_signed_div (s₁ s₂ : Sign) (x y : ℝ) :
    signed (s₁ / s₂) (x / y) = signed s₁ x / signed s₂ y := by
  cases s₁ <;> cases s₂
  · show x / y = -x / -y
    rw [neg_div_neg_eq]
  · show -(x / y) = -x / y
    rw [neg_div]
  · show -(x / y) = x / -y
    rw [div_neg]
  · rfl

/-- Shifted left far enough, a mantissa divided by another keeps 53 bits. -/
theorem two_pow_le_shiftLeft_div {m₁ m₂ k : ℕ} (h₁ : 0 < m₁) (h₂ : 0 < m₂)
    (hk : Nat.log2 m₂ + 53 ≤ Nat.log2 m₁ + k) : 2 ^ 52 ≤ (m₁ <<< k) / m₂ := by
  rw [Nat.le_div_iff_mul_le h₂, Nat.shiftLeft_eq]
  calc 2 ^ 52 * m₂ ≤ 2 ^ 52 * 2 ^ (Nat.log2 m₂ + 1) := Nat.mul_le_mul_left _ Nat.lt_log2_self.le
    _ = 2 ^ (Nat.log2 m₂ + 53) := by rw [← Nat.pow_add, Nat.add_comm, Nat.add_assoc]
    _ ≤ 2 ^ (Nat.log2 m₁ + k) := Nat.pow_le_pow_right two_pos hk
    _ = 2 ^ Nat.log2 m₁ * 2 ^ k := Nat.pow_add 2 _ _
    _ ≤ m₁ * 2 ^ k := Nat.mul_le_mul_right _ (Nat.log2_self_le h₁.ne')

/-- The quotient of a float by a nonzero finite one is the exact quotient rounded. -/
theorem div_roundsTo (hfu : u.isFinite = true) (s₂ : Sign) {m₂ : ℕ} (e₂ : ℤ)
    (h₂ : 0 < m₂) :
    RoundsTo (real u / real (.finite s₂ m₂ e₂ h₂)) (div .binary64 u (.finite s₂ m₂ e₂ h₂)) := by
  cases u with
  | zero s₁ => show nearest _ = 0; simp [real, nearest_zero]
  | finite s₁ m₁ e₁ h₁ =>
    -- the quotient is taken at an exponent `t` that leaves it at least 53 bits, or at the least
    show RoundsTo _ (roundWithAccuracy .binary64 (s₁ / s₂)
      ((m₁ <<< (e₁ - e₂ - min (e₁ - e₂) (Format.binary64.targetExponent
        (totalExponent m₁ e₁ - totalExponent m₂ e₂))).toNat) / m₂)
      (min (e₁ - e₂) (Format.binary64.targetExponent (totalExponent m₁ e₁ - totalExponent m₂ e₂)))
      (accuracyOfFraction ((m₁ <<< (e₁ - e₂ - min (e₁ - e₂) (Format.binary64.targetExponent
        (totalExponent m₁ e₁ - totalExponent m₂ e₂))).toNat) % m₂) m₂))
    have ht : min (e₁ - e₂) (Format.binary64.targetExponent (totalExponent m₁ e₁ - totalExponent m₂ e₂))
        = min (e₁ - e₂) (max (Nat.log2 m₁ - Nat.log2 m₂ + e₁ - e₂ - 53) (-1074)) := by
      simp only [Format.targetExponent, Format.minExponent, Format.mantissaBits, totalExponent]
      omega
    rw [ht]
    generalize htdef : min (e₁ - e₂) (max (Nat.log2 m₁ - Nat.log2 m₂ + e₁ - e₂ - 53) (-1074)) = t
    have hk : ((e₁ - e₂ - t).toNat : ℤ) = e₁ - e₂ - t := Int.toNat_of_nonneg (by omega)
    generalize (e₁ - e₂ - t).toNat = k at hk ⊢
    -- scaled by `2^t`, the quotient is the integer quotient and the remainder's fraction
    have hsplit : ((m₁ <<< k : ℕ) : ℝ) = m₂ * ((m₁ <<< k) / m₂ : ℕ) + ((m₁ <<< k) % m₂ : ℕ) := by
      exact_mod_cast (Nat.div_add_mod _ _).symm
    have hshift : ((m₁ <<< k : ℕ) : ℝ) = m₁ * 2 ^ (e₁ - e₂ - t) := by
      rw [Nat.shiftLeft_eq, ← hk, zpow_natCast]
      push_cast
      rfl
    have hm₂ : (0 : ℝ) < m₂ := by exact_mod_cast h₂
    have hx : (m₁ : ℝ) * 2 ^ e₁ / (m₂ * 2 ^ e₂) / 2 ^ t =
        ((m₁ <<< k) / m₂ : ℕ) + ((m₁ <<< k) % m₂ : ℕ) / m₂ := by
      calc (m₁ : ℝ) * 2 ^ e₁ / (m₂ * 2 ^ e₂) / 2 ^ t = m₁ * 2 ^ (e₁ - e₂ - t) / m₂ := by
            rw [zpow_sub₀ two_ne_zero, zpow_sub₀ two_ne_zero]
            field_simp
        _ = ((m₁ <<< k : ℕ) : ℝ) / m₂ := by rw [hshift]
        _ = ((m₁ <<< k) / m₂ : ℕ) + ((m₁ <<< k) % m₂ : ℕ) / m₂ := by
            rw [hsplit]
            field_simp
    have hdesc := describes_fraction ((m₁ <<< k) / m₂) (Nat.mod_lt (m₁ <<< k) h₂)
    rw [← hx] at hdesc
    -- unless it is below the least exponent, `t` leaves the quotient 53 bits
    have he : t ≤ target ((m₁ <<< k) / m₂) t := by
      rw [target_eq]
      by_cases hsmall : t ≤ -1074
      · omega
      have hbits := two_pow_le_shiftLeft_div (k := k) h₁ h₂ (by omega)
      have := (Nat.le_log2 (by omega)).mpr hbits
      omega
    have := roundWithAccuracy_roundsTo (s₁ / s₂) hdesc he
    rwa [real_signed_div] at this
  | _ => cases hfu

end Operations

/-- `ofReal` rounds every real: the model's rounding from the least exponent. -/
theorem ofReal_roundsTo (x : ℝ) : RoundsTo x (ofReal x) := by
  have hscale : |x| / 2 ^ (-1074 : ℤ) = |x| * 2 ^ 1074 := by
    rw [zpow_neg, div_inv_eq_mul, zpow_ofNat]
  have hdesc : Describes (ExtendedMantissa.ofMantissaAndAccuracy ⌊|x| * 2 ^ 1074⌋₊
      (fractionAccuracy (|x| * 2 ^ 1074))) (|x| / 2 ^ (-1074 : ℤ)) := by
    rw [hscale]
    exact describes_floor (by positivity)
  have he : (-1074 : ℤ) ≤ target ⌊|x| * 2 ^ 1074⌋₊ (-1074) := by rw [target_eq]; omega
  unfold ofReal
  split
  · rename_i hneg
    have hval : signed .negative |x| = x := by rw [signed, abs_of_neg hneg, neg_neg]
    have := roundWithAccuracy_roundsTo .negative hdesc he
    rwa [hval] at this
  · rename_i hnonneg
    have hval : signed .positive |x| = x := abs_of_nonneg (not_lt.mp hnonneg)
    have := roundWithAccuracy_roundsTo .positive hdesc he
    rwa [hval] at this

end RangeAdvisor.Unpacked
