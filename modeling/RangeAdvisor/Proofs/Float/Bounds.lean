import RangeAdvisor.Proofs.Float.Exact

/-!
# Enclosures of rounded results

A finite float is enclosed by two reals when its value lies between them. Rounding is monotone and
keeps the reals a float can hold, so a result whose exact value lies between two such reals, the
upper one below the overflow, is enclosed by them: products, quotients and sums of enclosed
operands are enclosed by the products, quotients and sums of the bounds. With powers of two for
bounds this is interval arithmetic on exponents, which tracks sizes through a chain of operations
and shows that none of them overflows or underflows to zero. Facts about single floats go with
it: above `2^(t+52)` a float is a whole number of `2^t`s, so a float below one lies at least
`2^-53` below it, and a float compares equal to zero exactly when it is a finite zero of either
sign. Main statements: `bounded_of_value_eq`, `Bounded.foldl_add` and `one_sub_bounded`.
-/

set_option autoImplicit false

namespace RangeAdvisor.Binary64

open Unpacked Rounding

/-! ### Reals rounding keeps -/

/-- A natural below `2^53` times a power of two from `2^-1074` up is kept. -/
theorem nearest_natCast_mul_two_zpow {n : ℕ} {e : ℤ} (hn : n < 2 ^ 53) (he : -1074 ≤ e) :
    nearest (n * 2 ^ e) = n * 2 ^ e := by
  rcases Nat.eq_zero_or_pos n with rfl | hpos
  · simpa using nearest_zero
  have hlog := (Nat.log2_lt hpos.ne').mpr hn
  have h := nearest_intCast_mul_zpow (k := n) (e := e) (by
    rw [Int.cast_natCast, quantum_natCast_mul_zpow hpos]
    omega)
  simpa using h

theorem two_zpow_lt_overflow {k : ℤ} (hk : k < 1024) : (2 : ℝ) ^ k < overflow := by
  rw [overflow, ← zpow_natCast]
  exact zpow_lt_zpow_right₀ one_lt_two (by exact_mod_cast hk)

theorem natCast_mul_two_zpow_lt_overflow {n : ℕ} {e : ℤ} (hn : n < 2 ^ 53) (he : e ≤ 971) :
    (n : ℝ) * 2 ^ e < overflow :=
  calc (n : ℝ) * 2 ^ e ≤ n * 2 ^ (971 : ℤ) := by gcongr; exact one_le_two
    _ < 2 ^ 53 * 2 ^ (971 : ℤ) := mul_lt_mul_of_pos_right (by exact_mod_cast hn) (zpow_pos two_pos _)
    _ = overflow := by rw [overflow, ← zpow_natCast, ← zpow_add₀ two_ne_zero]; norm_num

/-! ### Enclosures -/

/-- A finite float whose value lies from `lo` to `hi`. -/
def Bounded (lo hi : ℝ) (x : Float) : Prop :=
  x.isFinite = true ∧ lo ≤ toReal x ∧ toReal x ≤ hi

section Bounded

variable {lo hi a b c d z : ℝ} {w x y : Float}

theorem Bounded.mono (h : Bounded a b x) (ha : lo ≤ a) (hb : b ≤ hi) : Bounded lo hi x :=
  ⟨h.1, ha.trans h.2.1, h.2.2.trans hb⟩

theorem Bounded.zero_le (h : Bounded a b x) (ha : 0 ≤ a) : (0 : Float) ≤ x :=
  le_iff.mpr ⟨rfl, isNaN_eq_false_of_isFinite h.1, by
    rw [value_of_isFinite h.1]
    exact EReal.coe_le_coe_iff.mpr (ha.trans h.2.1)⟩

theorem Bounded.pos (h : Bounded a b x) (ha : 0 < a) : (0 : Float) < x :=
  lt_of_toReal_lt rfl h.1 (ha.trans_le h.2.1)

/-- A result read back as the rounding of `z`, with `z` between two reals that rounding keeps, the
upper one below the overflow, is enclosed by them. -/
theorem bounded_of_value_eq (hw : w.isNaN = false) (h : value w = toBinary64 z) (h0 : 0 ≤ lo)
    (hlo : nearest lo = lo) (hhi : nearest hi = hi) (hov : hi < overflow) (hz : lo ≤ z)
    (hz' : z ≤ hi) : Bounded lo hi w := by
  have hle : lo ≤ nearest z := hlo.symm.le.trans (nearest_mono hz)
  have hge : nearest z ≤ hi := (nearest_mono hz').trans hhi.le
  have hsmall : |nearest z| < overflow := by
    rw [abs_of_nonneg (h0.trans hle)]
    exact hge.trans_lt hov
  obtain ⟨hfin, hreal⟩ := isFinite_of_value_eq hw h hsmall
  exact ⟨hfin, hreal ▸ hle, hreal ▸ hge⟩

theorem Bounded.mul (hx : Bounded a b x) (hy : Bounded c d y) (ha : 0 ≤ a) (hc : 0 ≤ c)
    (hac : nearest (a * c) = a * c) (hbd : nearest (b * d) = b * d) (hov : b * d < overflow) :
    Bounded (a * c) (b * d) (x * y) := by
  obtain ⟨hn, hv⟩ := mul_value hx.1 hy.1
  have hx0 : 0 ≤ toReal x := ha.trans hx.2.1
  exact bounded_of_value_eq hn hv (mul_nonneg ha hc) hac hbd hov
    (mul_le_mul hx.2.1 hy.2.1 hc hx0) (mul_le_mul hx.2.2 hy.2.2 (hc.trans hy.2.1) (hx0.trans hx.2.2))

theorem Bounded.div (hx : Bounded a b x) (hy : Bounded c d y) (ha : 0 ≤ a) (hc : 0 < c)
    (had : nearest (a / d) = a / d) (hbc : nearest (b / c) = b / c) (hov : b / c < overflow) :
    Bounded (a / d) (b / c) (x / y) := by
  have hy0 : 0 < toReal y := hc.trans_le hy.2.1
  have hx0 : 0 ≤ toReal x := ha.trans hx.2.1
  obtain ⟨hn, hv⟩ := div_value hx.1 hy.1 hy0.ne'
  exact bounded_of_value_eq hn hv (div_nonneg ha (hy0.le.trans hy.2.2)) had hbc hov
    (div_le_div₀ hx0 hx.2.1 hy0 hy.2.2) (div_le_div₀ (hx0.trans hx.2.2) hx.2.2 hc hy.2.1)

theorem Bounded.add (hx : Bounded a b x) (hy : Bounded c d y) (h0 : 0 ≤ a + c)
    (hac : nearest (a + c) = a + c) (hbd : nearest (b + d) = b + d) (hov : b + d < overflow) :
    Bounded (a + c) (b + d) (x + y) := by
  obtain ⟨hn, hv⟩ := add_value hx.1 hy.1
  exact bounded_of_value_eq hn hv h0 hac hbd hov (add_le_add hx.2.1 hy.2.1)
    (add_le_add hx.2.2 hy.2.2)

end Bounded

/-! ### Constants -/

/-- The literal `0.0` is the float zero. -/
theorem zeroLit_eq : (0.0 : Float) = 0 := by decide +kernel

/-- The literal `1.0` is the float one. -/
theorem oneLit_eq : (1.0 : Float) = 1 := by decide +kernel

theorem bounded_ofNat {n : ℕ} (hn : n < 2 ^ 53) : Bounded n n (Float.ofNat n) := by
  obtain ⟨hfin, hreal⟩ := ofNat_value hn
  exact ⟨hfin, hreal.ge, hreal.le⟩

theorem bounded_half : Bounded (2 ^ (-1 : ℤ)) (2 ^ (-1 : ℤ)) 0.5 := by
  have hu : (0.5 : Float).toModel.unpack = .finite .positive (2 ^ 52) (-53) (by decide) := by rfl
  have hreal : toReal 0.5 = 2 ^ (-1 : ℤ) := by
    rw [toReal, hu]
    show ((2 ^ 52 : ℕ) : ℝ) * 2 ^ (-53 : ℤ) = _
    rw [Nat.cast_pow, Nat.cast_ofNat, ← zpow_natCast, ← zpow_add₀ two_ne_zero]
    norm_num
  exact ⟨by decide +kernel, hreal.ge, hreal.le⟩

theorem bounded_one : Bounded (2 ^ (0 : ℤ)) (2 ^ (0 : ℤ)) 1.0 := by
  rw [oneLit_eq, zpow_zero]
  exact ⟨isFinite_one, toReal_one.ge, toReal_one.le⟩

/-! ### Powers of two for bounds -/

section TwoPow

variable {i j k l : ℤ} {x y : Float}

/-- Between powers of two the exponents of a product add. -/
theorem Bounded.mul_two_zpow (hx : Bounded (2 ^ i) (2 ^ j) x) (hy : Bounded (2 ^ k) (2 ^ l) y)
    (hlo : -1074 ≤ i + k) (hhi : j + l < 1024) : Bounded (2 ^ (i + k)) (2 ^ (j + l)) (x * y) := by
  have hij : i ≤ j := (zpow_le_zpow_iff_right₀ one_lt_two).mp (hx.2.1.trans hx.2.2)
  have hkl : k ≤ l := (zpow_le_zpow_iff_right₀ one_lt_two).mp (hy.2.1.trans hy.2.2)
  have h := hx.mul hy (zpow_pos two_pos i).le (zpow_pos two_pos k).le
    (by rw [← zpow_add₀ two_ne_zero]; exact nearest_two_zpow hlo)
    (by rw [← zpow_add₀ two_ne_zero]; exact nearest_two_zpow (by omega))
    (by rw [← zpow_add₀ two_ne_zero]; exact two_zpow_lt_overflow hhi)
  rwa [← zpow_add₀ two_ne_zero, ← zpow_add₀ two_ne_zero] at h

/-- Between powers of two the exponents of a quotient subtract. -/
theorem Bounded.div_two_zpow (hx : Bounded (2 ^ i) (2 ^ j) x) (hy : Bounded (2 ^ k) (2 ^ l) y)
    (hlo : -1074 ≤ i - l) (hhi : j - k < 1024) : Bounded (2 ^ (i - l)) (2 ^ (j - k)) (x / y) := by
  have hij : i ≤ j := (zpow_le_zpow_iff_right₀ one_lt_two).mp (hx.2.1.trans hx.2.2)
  have hkl : k ≤ l := (zpow_le_zpow_iff_right₀ one_lt_two).mp (hy.2.1.trans hy.2.2)
  have h := hx.div hy (zpow_pos two_pos i).le (zpow_pos two_pos k)
    (by rw [← zpow_sub₀ two_ne_zero]; exact nearest_two_zpow hlo)
    (by rw [← zpow_sub₀ two_ne_zero]; exact nearest_two_zpow (by omega))
    (by rw [← zpow_sub₀ two_ne_zero]; exact two_zpow_lt_overflow hhi)
  rwa [← zpow_sub₀ two_ne_zero, ← zpow_sub₀ two_ne_zero] at h

/-- Two floats of at most `2^j` add to at most `2^(j+1)`. -/
theorem Bounded.add_two_zpow (hx : Bounded (2 ^ i) (2 ^ j) x) (hy : Bounded 0 (2 ^ j) y)
    (hlo : -1074 ≤ i) (hhi : j + 1 < 1024) : Bounded (2 ^ i) (2 ^ (j + 1)) (x + y) := by
  have hij : i ≤ j := (zpow_le_zpow_iff_right₀ one_lt_two).mp (hx.2.1.trans hx.2.2)
  have hdouble : (2 : ℝ) ^ j + 2 ^ j = 2 ^ (j + 1) := by rw [zpow_add_one₀ two_ne_zero]; ring
  have h := hx.add hy (by positivity) (by rw [add_zero]; exact nearest_two_zpow hlo)
    (by rw [hdouble]; exact nearest_two_zpow (by omega))
    (by rw [hdouble]; exact two_zpow_lt_overflow hhi)
  rwa [add_zero, hdouble] at h

/-- From zero, the exponents of a product add. -/
theorem Bounded.mul_two_zpow_of_zero (hx : Bounded 0 (2 ^ j) x) (hy : Bounded 0 (2 ^ l) y)
    (hlo : -1074 ≤ j + l) (hhi : j + l < 1024) : Bounded 0 (2 ^ (j + l)) (x * y) := by
  have h := hx.mul hy le_rfl le_rfl (by simpa using nearest_zero)
    (by rw [← zpow_add₀ two_ne_zero]; exact nearest_two_zpow hlo)
    (by rw [← zpow_add₀ two_ne_zero]; exact two_zpow_lt_overflow hhi)
  rwa [mul_zero, ← zpow_add₀ two_ne_zero] at h

/-- From zero, the exponents of a quotient subtract. -/
theorem Bounded.div_two_zpow_of_zero (hx : Bounded 0 (2 ^ j) x) (hy : Bounded (2 ^ k) (2 ^ l) y)
    (hlo : -1074 ≤ j - k) (hhi : j - k < 1024) : Bounded 0 (2 ^ (j - k)) (x / y) := by
  have h := hx.div hy le_rfl (zpow_pos two_pos k) (by simpa using nearest_zero)
    (by rw [← zpow_sub₀ two_ne_zero]; exact nearest_two_zpow hlo)
    (by rw [← zpow_sub₀ two_ne_zero]; exact two_zpow_lt_overflow hhi)
  rwa [zero_div, ← zpow_sub₀ two_ne_zero] at h

end TwoPow

/-! ### Sums -/

/-- Adding terms from zero to `2^e` one at a time onto a total of at most `k` such terms gives a
total of at most `k` plus their number of them, while that count stays below `2^53`: every partial
sum is then a multiple of `2^e` that rounding keeps. -/
theorem Bounded.foldl_add {e : ℤ} (he : -1074 ≤ e) (he' : e ≤ 971) :
    ∀ {k : ℕ} {acc : Float} {ts : List Float}, Bounded 0 (k * 2 ^ e) acc →
      (∀ t ∈ ts, Bounded 0 (2 ^ e) t) → k + ts.length < 2 ^ 53 →
      Bounded 0 ((k + ts.length : ℕ) * 2 ^ e) (ts.foldl (· + ·) acc)
  | k, acc, [], hacc, _, _ => by simpa using hacc
  | k, acc, t :: ts, hacc, hts, hk => by
    have hlen : k + 1 + ts.length = k + (t :: ts).length := by simp; omega
    -- the partial sum after `t` holds at most `k + 1` terms
    have hstep : Bounded 0 ((k + 1 : ℕ) * 2 ^ e) (acc + t) := by
      have hsum := hacc.add (hts t List.mem_cons_self) (by norm_num) (by simpa using nearest_zero)
        (by rw [← add_one_mul]; exact_mod_cast nearest_natCast_mul_two_zpow (by simp at hk; omega) he)
        (by rw [← add_one_mul]; exact_mod_cast natCast_mul_two_zpow_lt_overflow (by simp at hk; omega) he')
      rw [zero_add, ← add_one_mul] at hsum
      exact_mod_cast hsum
    rw [List.foldl_cons, ← hlen]
    exact Bounded.foldl_add he he' hstep (fun u hu => hts u (List.mem_cons_of_mem t hu)) (by omega)

/-! ### Equal to zero -/

/-- A float compares equal to zero exactly when it is a finite zero, of either sign. -/
theorem beq_zero_iff {x : Float} : (x == 0) = true ↔ x.isFinite = true ∧ toReal x = 0 := by
  have hv0 : value 0 = ((0 : ℝ) : EReal) := rfl
  rw [beq_iff, hv0]
  constructor
  · rintro ⟨hn, -, hv⟩
    have hfin : x.isFinite = true :=
      isFinite_of_value_ne hn (by rw [hv]; exact EReal.coe_ne_top 0) (by rw [hv]; exact EReal.coe_ne_bot 0)
    rw [value_of_isFinite hfin] at hv
    exact ⟨hfin, EReal.coe_eq_coe_iff.mp hv⟩
  · rintro ⟨hfin, h0⟩
    exact ⟨isNaN_eq_false_of_isFinite hfin, rfl, by rw [value_of_isFinite hfin, h0]⟩

/-- A float compares equal to zero exactly when zero encloses it. -/
theorem beq_zero_iff_bounded {x : Float} : (x == 0) = true ↔ Bounded 0 0 x := by
  rw [beq_zero_iff]
  constructor
  · rintro ⟨hfin, h0⟩
    exact ⟨hfin, h0.ge, h0.le⟩
  · rintro ⟨hfin, h0, h0'⟩
    exact ⟨hfin, le_antisymm h0' h0⟩

theorem Bounded.beq_zero_eq_false {lo hi : ℝ} {x : Float} (h : Bounded lo hi x) (hlo : 0 < lo) :
    (x == 0) = false := by
  rw [Bool.eq_false_iff]
  intro h0
  have := (beq_zero_iff_bounded.mp h0).2.2
  linarith [h.2.1]

/-! ### Below one -/

section OneSub

variable {x : Float}

/-- Above `2^(t+52)` a finite float is a whole number of `2^t`s: a mantissa below `2^53` reaches
that far only from an exponent of at least `t`. -/
theorem exists_natCast_mul_of_two_zpow_lt {t : ℤ} (hx : x.isFinite = true)
    (h : (2 : ℝ) ^ (t + 52) < toReal x) : ∃ n : ℕ, toReal x = n * 2 ^ t := by
  obtain ⟨m, e, hm, hu, hm53, -, -⟩ := parts_of_pos hx (lt_trans (zpow_pos two_pos _) h)
  have hreal : toReal x = m * 2 ^ e := by rw [toReal, hu]; rfl
  have he : t ≤ e := by
    by_contra hlt
    have hbelow : (m : ℝ) * 2 ^ e < 2 ^ (t + 52) :=
      calc (m : ℝ) * 2 ^ e ≤ m * 2 ^ (t - 1) := by gcongr; exact one_le_two; omega
        _ < 2 ^ 53 * 2 ^ (t - 1) := mul_lt_mul_of_pos_right (by exact_mod_cast hm53) (zpow_pos two_pos _)
        _ = 2 ^ (t + 52) := by
          rw [← zpow_natCast, ← zpow_add₀ two_ne_zero]
          congr 1
          push_cast
          ring
    linarith
  obtain ⟨k, hk⟩ : ∃ k : ℕ, (k : ℤ) = e - t := ⟨(e - t).toNat, by omega⟩
  refine ⟨m * 2 ^ k, ?_⟩
  have htwo : (2 : ℝ) ^ e = 2 ^ k * 2 ^ t := by
    rw [← zpow_natCast, ← zpow_add₀ two_ne_zero, hk]
    congr 1
    ring
  rw [hreal, htwo]
  push_cast
  ring

/-- From one half up, a finite float is a whole number of `2^-53`s. -/
theorem exists_natCast_mul_of_half_lt (hx : x.isFinite = true) (hhalf : 1 / 2 < toReal x) :
    ∃ n : ℕ, toReal x = n * 2 ^ (-53 : ℤ) :=
  exists_natCast_mul_of_two_zpow_lt hx (by norm_num; exact hhalf)

/-- A finite float below one is at least `2^-53` below it. -/
theorem le_one_sub_of_lt_one (hx : x.isFinite = true) (h : toReal x < 1) :
    (2 : ℝ) ^ (-53 : ℤ) ≤ 1 - toReal x := by
  have hsmall : (2 : ℝ) ^ (-53 : ℤ) ≤ 1 / 2 := by norm_num
  by_cases hhalf : toReal x ≤ 1 / 2
  · exact hsmall.trans (by linarith)
  obtain ⟨n, hn⟩ := exists_natCast_mul_of_half_lt hx (not_le.mp hhalf)
  have hone : (1 : ℝ) = 2 ^ 53 * 2 ^ (-53 : ℤ) := by norm_num
  -- fewer than `2^53` of them, so at least one short of one
  have hlt : n < 2 ^ 53 := by
    rw [hn, hone] at h
    exact_mod_cast lt_of_mul_lt_mul_right h (zpow_pos two_pos _).le
  have hle : (n : ℝ) + 1 ≤ 2 ^ 53 := by exact_mod_cast hlt
  rw [hn]
  calc (2 : ℝ) ^ (-53 : ℤ) = ((n : ℝ) + 1 - n) * 2 ^ (-53 : ℤ) := by ring
    _ ≤ (2 ^ 53 - n) * 2 ^ (-53 : ℤ) := by gcongr
    _ = 1 - n * 2 ^ (-53 : ℤ) := by rw [hone]; ring

/-- One less a float from zero to one is `+0` when the float is one, and otherwise from `2^-53` to
one. -/
theorem one_sub_bounded (hx : Bounded 0 1 x) : (x = 1 ∧ 1 - x = 0) ∨ Bounded (2 ^ (-53 : ℤ)) 1 (1 - x) := by
  rcases hx.2.2.lt_or_eq with hlt | heq
  · right
    obtain ⟨hn, hv⟩ := sub_value isFinite_one hx.1
    rw [toReal_one] at hv
    have hov : (1 : ℝ) < overflow := by simpa using two_zpow_lt_overflow (k := 0) (by norm_num)
    exact bounded_of_value_eq hn hv (by positivity) (nearest_two_zpow (by norm_num)) nearest_one hov (le_one_sub_of_lt_one hx.1 hlt) (by linarith [hx.2.1])
  · left
    have hone : x = 1 := eq_of_toReal_eq hx.1 isFinite_one (heq.trans toReal_one.symm) (by rw [heq]; norm_num)
    subst hone
    exact ⟨rfl, by decide +kernel⟩

end OneSub

end RangeAdvisor.Binary64
