import RangeAdvisor.Proofs.DepositChecks
import RangeAdvisor.Proofs.Float.Bounds

/-!
# The capacities of a paired deposit

Summed over the range in ascending order, a bin below the active bin adds nothing to the X
capacity and one to the Y capacity, a bin above adds one over its price to the X capacity and
nothing to the Y capacity, and the active bin, when in the range, adds its X share over its price
and its Y share. So the Y capacity is the count of bins below the active bin plus the active bin's
Y share, and the X capacity is the sum of the X terms from the active bin up.

When the amount of X, the active reserves and the prices are of moderate size, zero or from
`2^-100` to `2^100`, no step overflows or underflows to zero: the X capacity is zero exactly when
the range lies wholly below the active bin, the deposit is then degenerate with no Y, and otherwise
the amount of Y is finite, not below zero, and zero exactly when the Y capacity or the amount of X
is. A bin whose price underflows to zero breaks this: its `0/0` makes the X capacity NaN, which is
not zero, so a range below the active bin is not reported degenerate. Main statement:
`solve_sums_capacities`; `solve_zero_price_not_degenerate` is such a bin.
-/

set_option autoImplicit false

namespace RangeAdvisor

open Binary64 Unpacked Rounding

/-! ### The bins of a range around a bin -/

namespace BinRange

variable (r : BinRange)

/-- The bins of a range are the bins from its lower edge to its upper edge. -/
theorem mem_bins {b : Int32} : b ∈ r.bins ↔ r.lower ≤ b ∧ b ≤ r.upper := by
  rw [List.mem_iff_getElem, Int32.le_iff_toInt_le, Int32.le_iff_toInt_le]
  constructor
  · rintro ⟨i, hi, rfl⟩
    have hb := r.toInt_getElem_bins hi
    rw [length_bins] at hi
    omega
  · rintro ⟨hlo, hhi⟩
    have hi : (b.toInt - r.lower.toInt).toNat < r.bins.length := by rw [length_bins]; omega
    refine ⟨_, hi, Int32.toInt_inj.mp ?_⟩
    rw [r.toInt_getElem_bins hi]
    omega

theorem pairwise_bins : r.bins.Pairwise (· < ·) := by
  rw [List.pairwise_iff_getElem]
  intro i j hi hj hij
  rw [Int32.lt_iff_toInt_lt, r.toInt_getElem_bins hi, r.toInt_getElem_bins hj]
  omega

theorem length_bins_le : r.bins.length ≤ 2 ^ 32 := by
  have hlo := Saturating.lo_le_toInt r.lower
  have hhi := Saturating.toInt_le_hi r.upper
  simp only [Saturating.lo, Saturating.hi] at hlo hhi
  rw [length_bins]
  omega

end BinRange

/-- A list of bins in ascending order is its bins below `a`, then `a` if it holds it, then its bins
above `a`. -/
theorem eq_below_append_above {l : List Int32} (h : l.Pairwise (· < ·)) (a : Int32) :
    l = l.filter (· < a) ++ (if a ∈ l then [a] else []) ++ l.filter (a < ·) := by
  induction l with
  | nil => simp
  | cons x xs ih =>
    rw [List.pairwise_cons] at h
    have hxs : ∀ y ∈ xs, x.toInt < y.toInt := fun y hy => Int32.lt_iff_toInt_lt.mp (h.1 y hy)
    rcases lt_trichotomy x.toInt a.toInt with hlt | heq | hgt
    · -- `x` leads the bins below `a`
      have hne : a ≠ x := fun hax => by rw [hax] at hlt; omega
      have hna : ¬ a < x := by rw [Int32.lt_iff_toInt_lt]; omega
      have hxa : x < a := Int32.lt_iff_toInt_lt.mpr hlt
      conv_lhs => rw [ih h.2]
      simp [hxa, hna, hne]
    · -- `x` is `a`, and every later bin lies above it
      obtain rfl : x = a := Int32.toInt_inj.mp heq
      have hbelow : xs.filter (· < x) = [] := List.filter_eq_nil_iff.mpr fun y hy => by
        have := hxs y hy
        simp [Int32.lt_iff_toInt_lt]
        omega
      have habove : xs.filter (x < ·) = xs := List.filter_eq_self.mpr fun y hy => by
        simpa [Int32.lt_iff_toInt_lt] using hxs y hy
      simp [hbelow, habove]
    · -- `x`, and every later bin, lies above `a`
      have hall : ∀ y ∈ x :: xs, a.toInt < y.toInt := fun y hy => by
        rcases List.mem_cons.mp hy with rfl | hy
        · exact hgt
        · have := hxs y hy
          omega
      have hbelow : (x :: xs).filter (· < a) = [] := List.filter_eq_nil_iff.mpr fun y hy => by
        have := hall y hy
        simp [Int32.lt_iff_toInt_lt]
        omega
      have habove : (x :: xs).filter (a < ·) = x :: xs := List.filter_eq_self.mpr fun y hy => by
        simpa [Int32.lt_iff_toInt_lt] using hall y hy
      have hnot : a ∉ x :: xs := fun ha => by
        have := hall a ha
        omega
      simp [hbelow, habove, hnot]

/-! ### The capacities, bin by bin -/

namespace DepositRequest

variable (q : DepositRequest)

/-- The active bin lies in the range. -/
def ActiveInRange : Prop := q.range.lower ≤ q.active ∧ q.active ≤ q.range.upper

instance : Decidable q.ActiveInRange := instDecidableAnd

/-- The bins of the range below the active bin, in ascending order. -/
def binsBelow : List Int32 := q.range.bins.filter (· < q.active)

/-- The bins of the range above the active bin, in ascending order. -/
def binsAbove : List Int32 := q.range.bins.filter (q.active < ·)

/-- The X per unit of value of the bins that hold X, in ascending order: the active bin's X share
over its price when it is in the range, then one over the price of each bin above. -/
def xShares : List Float :=
  (if q.ActiveInRange then [q.activeShareX / q.priceAt q.active] else []) ++
    q.binsAbove.map fun b => 1.0 / q.priceAt b

/-- The Y per unit of value over the range: one for each bin below the active bin, and the active
bin's Y share when it is in the range. -/
def yCapacity : Float :=
  if q.ActiveInRange then Float.ofNat q.binsBelow.length + (1.0 - q.activeShareX)
  else Float.ofNat q.binsBelow.length

theorem bins_around : q.range.bins =
    q.binsBelow ++ (if q.ActiveInRange then [q.active] else []) ++ q.binsAbove := by
  have h := eq_below_append_above q.range.pairwise_bins q.active
  simp only [BinRange.mem_bins] at h
  exact h

theorem length_binsBelow_le : q.binsBelow.length ≤ 2 ^ 32 :=
  (List.length_filter_le _ _).trans q.range.length_bins_le

/-- Summing the pairs bin by bin is summing the X and the Y apart. -/
theorem foldl_capacities (s : Float) (bins : List Int32) (c₁ c₂ : Float) :
    bins.foldl (fun acc b => (acc.1 + q.shareX s b / q.priceAt b, acc.2 + (1.0 - q.shareX s b)))
        (c₁, c₂) =
      ((bins.map fun b => q.shareX s b / q.priceAt b).foldl (· + ·) c₁,
        (bins.map fun b => 1.0 - q.shareX s b).foldl (· + ·) c₂) := by
  induction bins generalizing c₁ c₂ with
  | nil => rfl
  | cons b bins ih => exact ih _ _

variable {q}

theorem shareX_of_lt {s : Float} {b : Int32} (h : b < q.active) : q.shareX s b = 0.0 := by
  have hn : ¬ q.active < b := by rw [Int32.lt_iff_toInt_lt] at h ⊢; omega
  simp [shareX, h, hn]

theorem shareX_of_gt {s : Float} {b : Int32} (h : q.active < b) : q.shareX s b = 1.0 := by
  simp [shareX, h]

theorem shareX_active (s : Float) : q.shareX s q.active = s := by
  have hn : ¬ q.active < q.active := by rw [Int32.lt_iff_toInt_lt]; omega
  simp [shareX, hn]

theorem lt_active_of_mem_binsBelow {b : Int32} (hb : b ∈ q.binsBelow) : b < q.active := by
  simpa using (List.mem_filter.mp hb).2

theorem active_lt_of_mem_binsAbove {b : Int32} (hb : b ∈ q.binsAbove) : q.active < b := by
  simpa using (List.mem_filter.mp hb).2

/-- Below the active bin, a bin of price above zero adds `+0` to the X capacity and one to the Y
capacity. -/
theorem map_binsBelow (hp : ∀ b ∈ q.range.bins, (0 : Float) < q.priceAt b) (s : Float) :
    q.binsBelow.map (fun b => q.shareX s b / q.priceAt b) = List.replicate q.binsBelow.length 0 ∧
      q.binsBelow.map (fun b => 1.0 - q.shareX s b) = List.replicate q.binsBelow.length 1 := by
  constructor
  · refine List.map_eq_replicate_iff.mpr fun b hb => ?_
    rw [shareX_of_lt (lt_active_of_mem_binsBelow hb)]
    exact zero_div_of_pos (hp b (List.mem_of_mem_filter hb))
  · refine List.map_eq_replicate_iff.mpr fun b hb => ?_
    rw [shareX_of_lt (lt_active_of_mem_binsBelow hb)]
    decide +kernel

/-- Above the active bin, a bin adds one over its price to the X capacity and `+0` to the Y
capacity. -/
theorem map_binsAbove (s : Float) :
    q.binsAbove.map (fun b => q.shareX s b / q.priceAt b) =
        q.binsAbove.map (fun b => 1.0 / q.priceAt b) ∧
      q.binsAbove.map (fun b => 1.0 - q.shareX s b) = List.replicate q.binsAbove.length 0 := by
  constructor
  · refine List.map_congr_left fun b hb => ?_
    rw [shareX_of_gt (active_lt_of_mem_binsAbove hb)]
  · refine List.map_eq_replicate_iff.mpr fun b hb => ?_
    rw [shareX_of_gt (active_lt_of_mem_binsAbove hb)]
    decide +kernel

/-- Over bins with prices above zero, the X capacity sums the X shares, and with the active bin's
Y share of positive sign the Y capacity is `yCapacity`. -/
theorem capacities_eq (hp : ∀ b ∈ q.range.bins, (0 : Float) < q.priceAt b)
    (hs : q.ActiveInRange → NonNeg (1.0 - q.activeShareX).toModel.unpack) :
    q.capacities q.range.bins = (q.xShares.foldl (· + ·) 0.0, q.yCapacity) := by
  obtain ⟨hxBelow, hyBelow⟩ := map_binsBelow hp q.activeShareX
  obtain ⟨hxAbove, hyAbove⟩ := map_binsAbove (q := q) q.activeShareX
  have hlen : q.binsBelow.length < 2 ^ 53 := lt_of_le_of_lt q.length_binsBelow_le (by norm_num)
  have hones : (List.replicate q.binsBelow.length 1).foldl (· + ·) (0 : Float) =
      Float.ofNat q.binsBelow.length := by
    have h := foldl_add_ones (k := 0) q.binsBelow.length (by omega)
    rwa [Nat.zero_add, show Float.ofNat 0 = 0 by decide +kernel] at h
  have hnat : NonNeg (Float.ofNat q.binsBelow.length).toModel.unpack := nonNeg_ofNat (by omega)
  -- cut both sums at the active bin: zeros and ones below it, shares and zeros above it
  unfold capacities
  rw [foldl_capacities, bins_around, List.map_append, List.map_append, List.map_append,
    List.map_append, List.foldl_append, List.foldl_append, List.foldl_append, List.foldl_append,
    hxBelow, hyBelow, hxAbove, hyAbove, zeroLit_eq, foldl_add_zeros nonNeg_zero, hones]
  unfold xShares yCapacity
  split_ifs with ha
  · simp only [List.map_cons, List.map_nil, shareX_active, List.foldl_cons, List.foldl_nil,
      List.singleton_append]
    rw [foldl_add_zeros (nonNeg_float_add hnat (hs ha))]
  · simp only [List.map_nil, List.foldl_nil, List.nil_append]
    rw [foldl_add_zeros hnat]

end DepositRequest

/-! ### Moderate sizes -/

/-- A figure of moderate size: a zero of either sign, or from `2^-100` to `2^100`. -/
inductive Moderate (x : Float) : Prop
  | zero : (x == 0) = true → Moderate x
  | within : Bounded (2 ^ (-100 : ℤ)) (2 ^ (100 : ℤ)) x → Moderate x

/-- The sizes under which a deposit is solved without overflow or underflow to zero: a moderate
amount of X and active reserves, and bin prices from `2^-100` to `2^100` over the range. -/
structure DepositRequest.ModerateSizes (q : DepositRequest) : Prop where
  amountX : Moderate q.amountX
  reserves : ∀ r, q.reserves = some r → Moderate r.x ∧ Moderate r.y
  prices : ∀ b ∈ q.range.bins, Bounded (2 ^ (-100 : ℤ)) (2 ^ (100 : ℤ)) (q.priceAt b)

namespace Moderate

variable {x : Float}

theorem bounded (h : Moderate x) : Bounded 0 (2 ^ (100 : ℤ)) x := by
  cases h with
  | zero h0 => exact (beq_zero_iff_bounded.mp h0).mono le_rfl (zpow_pos two_pos _).le
  | within hb => exact hb.mono (zpow_pos two_pos _).le le_rfl

theorem of_ne (h : Moderate x) (hx : (x == 0) = false) :
    Bounded (2 ^ (-100 : ℤ)) (2 ^ (100 : ℤ)) x := by
  cases h with
  | zero h0 => rw [hx] at h0; cases h0
  | within hb => exact hb

theorem of_pos (h : Moderate x) (hx : (0 : Float) < x) :
    Bounded (2 ^ (-100 : ℤ)) (2 ^ (100 : ℤ)) x := by
  refine h.of_ne (Bool.eq_false_iff.mpr fun h0 => ?_)
  obtain ⟨hfin, h0⟩ := beq_zero_iff.mp h0
  exact absurd (toReal_pos_of_pos hx hfin) (by rw [h0]; exact lt_irrefl 0)

end Moderate

namespace DepositRequest

variable {q : DepositRequest}

/-- The active bin's X share, its reserves' X value over their whole value or a half, is from
`2^-401` to one. -/
theorem share_bounded (hq : q.ModerateSizes) (ha : q.ActiveInRange) :
    Bounded (2 ^ (-401 : ℤ)) 1 q.activeShareX := by
  have hp := hq.prices q.active (q.range.mem_bins.mpr ha)
  have hhalf : Bounded (2 ^ (-401 : ℤ)) 1 0.5 :=
    bounded_half.mono (zpow_le_zpow_right₀ one_le_two (by norm_num)) (by norm_num)
  unfold activeShareX
  rcases hr : q.reserves with _ | r
  · exact hhalf
  dsimp only
  split_ifs with hpos
  · simp only [Bool.and_eq_true, decide_eq_true_eq] at hpos
    obtain ⟨hx, hy⟩ := hq.reserves r hr
    have hxb := hx.of_pos hpos.1
    have hyb := hy.of_pos hpos.2
    -- the X value is from `2^-200` to `2^200`, and the whole value from `2^-200` to `2^201`
    have hxv : Bounded (2 ^ (-200 : ℤ)) (2 ^ (200 : ℤ)) (r.x * q.priceAt q.active) := by
      simpa using hxb.mul_two_zpow hp (by norm_num) (by norm_num)
    have hsum : Bounded (2 ^ (-200 : ℤ)) (2 ^ (201 : ℤ)) (r.x * q.priceAt q.active + r.y) := by
      have hy' : Bounded 0 (2 ^ (200 : ℤ)) r.y :=
        hyb.mono (zpow_pos two_pos _).le (zpow_le_zpow_right₀ one_le_two (by norm_num))
      simpa using hxv.add_two_zpow hy' (by norm_num) (by norm_num)
    have hshare := hxv.div_two_zpow hsum (by norm_num) (by norm_num)
    -- a part over the whole is at most one
    have hle : r.x * q.priceAt q.active / (r.x * q.priceAt q.active + r.y) ≤ 1 :=
      div_le_one_of_le hxv.1 (hsum.pos (zpow_pos two_pos _))
        (le_add_of_nonneg (hxv.zero_le (zpow_pos two_pos _).le) (hyb.zero_le (zpow_pos two_pos _).le))
    refine ⟨hshare.1, by simpa using hshare.2.1, ?_⟩
    simpa [toReal_one] using toReal_le_of_le hshare.1 isFinite_one hle
  · exact hhalf

/-- Every X share is from `2^-501` to `2^100`. -/
theorem xShares_bounded (hq : q.ModerateSizes) :
    ∀ t ∈ q.xShares, Bounded (2 ^ (-501 : ℤ)) (2 ^ (100 : ℤ)) t := by
  intro t ht
  simp only [xShares, List.mem_append, List.mem_map] at ht
  rcases ht with ht | ⟨b, hb, rfl⟩
  · split_ifs at ht with ha
    · rw [List.mem_singleton] at ht
      subst ht
      have hs : Bounded (2 ^ (-401 : ℤ)) (2 ^ (0 : ℤ)) q.activeShareX := by
        simpa using share_bounded hq ha
      simpa using hs.div_two_zpow (hq.prices _ (q.range.mem_bins.mpr ha)) (by norm_num)
        (by norm_num)
    · cases ht
  · have h := bounded_one.div_two_zpow (hq.prices b (List.mem_of_mem_filter hb)) (by norm_num)
      (by norm_num)
    exact (by simpa using h : Bounded (2 ^ (-100 : ℤ)) (2 ^ (100 : ℤ)) _).mono
      (zpow_le_zpow_right₀ one_le_two (by norm_num)) le_rfl

/-- The bins below the active bin and the bins holding X make up the range. -/
theorem length_binsBelow_add_xShares :
    q.binsBelow.length + q.xShares.length = q.range.bins.length := by
  have h := congrArg List.length q.bins_around
  unfold xShares
  split_ifs at h ⊢ <;> simp only [List.length_append, List.length_map, List.length_singleton,
    List.length_nil] at h ⊢ <;> omega

theorem length_xShares_le : q.xShares.length ≤ 2 ^ 32 := by
  have h := q.length_binsBelow_add_xShares
  have hle := q.range.length_bins_le
  omega

/-- A sum of at least one X share is from `2^-501` to `2^132`: at least its first share, and
at most `2^32` shares of at most `2^100`. -/
theorem capacityX_bounded (hq : q.ModerateSizes) (hne : q.xShares ≠ []) :
    Bounded (2 ^ (-501 : ℤ)) (2 ^ (132 : ℤ)) (q.xShares.foldl (· + ·) 0.0) := by
  have hterms : ∀ t ∈ q.xShares, Bounded 0 (2 ^ (100 : ℤ)) t := fun t ht =>
    (xShares_bounded hq t ht).mono (zpow_pos two_pos _).le le_rfl
  have hzero : Bounded 0 ((0 : ℕ) * 2 ^ (100 : ℤ)) (0.0 : Float) := by
    rw [zeroLit_eq, Nat.cast_zero, zero_mul]
    exact beq_zero_iff_bounded.mp (by decide +kernel)
  have hlen := length_xShares_le (q := q)
  have hsum := Bounded.foldl_add (by norm_num) (by norm_num) hzero hterms (by omega)
  -- at most `2^32` shares of at most `2^100`
  have hhi : ((0 + q.xShares.length : ℕ) : ℝ) * 2 ^ (100 : ℤ) ≤ 2 ^ (132 : ℤ) :=
    calc ((0 + q.xShares.length : ℕ) : ℝ) * 2 ^ (100 : ℤ) ≤ (2 ^ 32 : ℕ) * 2 ^ (100 : ℤ) := by
          gcongr
          omega
      _ = 2 ^ (132 : ℤ) := by rw [Nat.cast_pow, Nat.cast_ofNat, ← zpow_natCast, ← zpow_add₀ two_ne_zero]; norm_num
  -- at least the first share
  obtain ⟨t, ht⟩ := List.exists_mem_of_ne_nil _ hne
  have hle := (le_foldl_add (c := 0.0) (by decide +kernel)
    (fun u hu => (hterms u hu).zero_le le_rfl)).2 t ht
  exact ⟨hsum.1, (xShares_bounded hq t ht).2.1.trans (toReal_le_of_le (hterms t ht).1 hsum.1 hle),
    hsum.2.2.trans hhi⟩

/-- No bin holds X exactly when the range lies wholly below the active bin. -/
theorem xShares_eq_nil_iff (hr : q.range.lower ≤ q.range.upper) :
    q.xShares = [] ↔ q.range.upper < q.active := by
  have hr' := Int32.le_iff_toInt_le.mp hr
  simp only [xShares, List.append_eq_nil_iff, List.map_eq_nil_iff, binsAbove,
    List.filter_eq_nil_iff, BinRange.mem_bins, decide_eq_true_eq, ActiveInRange,
    Int32.lt_iff_toInt_lt, Int32.le_iff_toInt_le]
  constructor
  · rintro ⟨hmid, habove⟩
    have hup := habove q.range.upper ⟨hr', le_refl _⟩
    -- the active bin is not in the range, and no bin lies above it
    split_ifs at hmid with ha
    omega
  · intro hlt
    refine ⟨by rw [if_neg (by omega)], ?_⟩
    rintro b ⟨-, hb⟩
    omega

/-- A count of at most `2^32` is at most `2^33`, and zero or at least `2^-53`. -/
theorem ofNat_count {n : ℕ} (hn : n ≤ 2 ^ 32) :
    Bounded 0 (2 ^ (33 : ℤ)) (Float.ofNat n) ∧
      ((Float.ofNat n == 0) = true ∨ Bounded (2 ^ (-53 : ℤ)) (2 ^ (33 : ℤ)) (Float.ofNat n)) := by
  have h := bounded_ofNat (n := n) (by omega)
  have hhi : (n : ℝ) ≤ 2 ^ (33 : ℤ) :=
    calc (n : ℝ) ≤ ((2 ^ 32 : ℕ) : ℝ) := by exact_mod_cast hn
      _ ≤ 2 ^ (33 : ℤ) := by norm_num
  refine ⟨h.mono (Nat.cast_nonneg n) hhi, ?_⟩
  rcases Nat.eq_zero_or_pos n with rfl | hpos
  · exact .inl (beq_zero_iff_bounded.mpr (by simpa using h))
  · refine .inr (h.mono ?_ hhi)
    calc (2 : ℝ) ^ (-53 : ℤ) ≤ 1 := zpow_le_one_of_nonpos₀ one_le_two (by norm_num)
      _ ≤ n := by exact_mod_cast hpos

/-- The active bin's Y share, one less its X share, is zero or from `2^-53` to one. -/
theorem yShare_cases (hq : q.ModerateSizes) (ha : q.ActiveInRange) :
    1.0 - q.activeShareX = 0 ∨ Bounded (2 ^ (-53 : ℤ)) 1 (1.0 - q.activeShareX) := by
  have hs : Bounded 0 1 q.activeShareX := (share_bounded hq ha).mono (zpow_pos two_pos _).le le_rfl
  rw [oneLit_eq]
  exact (one_sub_bounded hs).imp And.right id

/-- The Y capacity is at most `2^33`, and zero or at least `2^-53`. -/
theorem yCapacity_bounded (hq : q.ModerateSizes) :
    Bounded 0 (2 ^ (33 : ℤ)) q.yCapacity ∧
      ((q.yCapacity == 0) = true ∨ Bounded (2 ^ (-53 : ℤ)) (2 ^ (33 : ℤ)) q.yCapacity) := by
  have hlen := q.length_binsBelow_le
  unfold yCapacity
  split_ifs with ha
  · rcases yShare_cases hq ha with h0 | hsub
    · rw [h0, add_zero_of_nonNeg (nonNeg_ofNat (by omega))]
      exact ofNat_count hlen
    · -- the count and the active bin's Y share, from `2^-53` to the count plus one
      have hbelow := q.range.length_bins_le
      have hlen' : q.binsBelow.length + 1 ≤ 2 ^ 32 := by
        have h := congrArg List.length q.bins_around
        simp only [List.length_append, if_pos ha, List.length_singleton] at h
        omega
      have hhi : (q.binsBelow.length : ℝ) + 1 ≤ 2 ^ (33 : ℤ) :=
        calc (q.binsBelow.length : ℝ) + 1 ≤ ((2 ^ 32 : ℕ) : ℝ) := by exact_mod_cast hlen'
          _ ≤ 2 ^ (33 : ℤ) := by norm_num
      have hn := (bounded_ofNat (n := q.binsBelow.length) (by omega)).mono le_rfl le_rfl
      have hsum := (hn.mono (Nat.cast_nonneg _) le_rfl).add hsub (by positivity)
        (by rw [zero_add]; exact nearest_two_zpow (by norm_num))
        (by exact_mod_cast nearest_natCast (n := q.binsBelow.length + 1) (by omega))
        (hhi.trans_lt (two_zpow_lt_overflow (by norm_num)))
      rw [zero_add] at hsum
      exact ⟨hsum.mono (by positivity) hhi, .inr (hsum.mono le_rfl hhi)⟩
  · exact ofNat_count hlen

/-- The amount of Y for a moderate amount of X over an X capacity from `2^-501` to `2^132` and a Y
capacity of at most `2^33`, zero or at least `2^-53`, is finite, not below zero, and zero exactly
when the Y capacity or the amount of X is. -/
theorem amount_bounded {ax cx cy : Float} (hax : Moderate ax)
    (hcx : Bounded (2 ^ (-501 : ℤ)) (2 ^ (132 : ℤ)) cx) (hcy : Bounded 0 (2 ^ (33 : ℤ)) cy)
    (hcy' : (cy == 0) = true ∨ Bounded (2 ^ (-53 : ℤ)) (2 ^ (33 : ℤ)) cy) :
    (ax / cx * cy).isFinite = true ∧ 0 ≤ ax / cx * cy ∧
      ((ax / cx * cy == 0) = true ↔ (cy == 0) = true ∨ (ax == 0) = true) := by
  have hdiv := hax.bounded.div_two_zpow_of_zero hcx (by norm_num) (by norm_num)
  have hprod := hdiv.mul_two_zpow_of_zero hcy (by norm_num) (by norm_num)
  refine ⟨hprod.1, hprod.zero_le le_rfl, fun h0 => ?_, ?_⟩
  · -- with both nonzero the amount is at least `2^-285`
    by_contra hne
    simp only [not_or, Bool.not_eq_true] at hne
    have hcy2 := hcy'.resolve_left (by rw [hne.1]; exact Bool.false_ne_true)
    have hprod2 := ((hax.of_ne hne.2).div_two_zpow hcx (by norm_num) (by norm_num)).mul_two_zpow
      hcy2 (by norm_num) (by norm_num)
    rw [hprod2.beq_zero_eq_false (zpow_pos two_pos _)] at h0
    exact Bool.false_ne_true h0
  · have hz : nearest 0 = 0 := nearest_zero
    rintro (h0 | h0)
    · have h := hdiv.mul (beq_zero_iff_bounded.mp h0) le_rfl le_rfl (by simpa using hz)
        (by simpa using hz) (by simpa using overflow_pos)
      exact beq_zero_iff_bounded.mpr (by simpa using h)
    · have hdiv0 : Bounded 0 0 (ax / cx) := by
        simpa using (beq_zero_iff_bounded.mp h0).div hcx le_rfl (zpow_pos two_pos _)
          (by simpa using hz) (by simpa using hz) (by simpa using overflow_pos)
      have h := hdiv0.mul hcy le_rfl le_rfl (by simpa using hz) (by simpa using hz)
        (by simpa using overflow_pos)
      exact beq_zero_iff_bounded.mpr (by simpa using h)

/-- A solved request passed the checks, its capacities are the sums over its range, and it is
degenerate, with no Y, exactly when the X capacity compares equal to zero. -/
theorem solve_eq_ok {d : Deposit} (h : q.solve = .ok d) :
    q.Passes ∧ (d.capacityX, d.capacityY) = q.capacities q.range.bins ∧
      d.degenerate = (d.capacityX == 0) ∧
      d.amountY = if d.capacityX == 0 then 0 else q.amountX / d.capacityX * d.capacityY := by
  have hpass : q.Passes := by
    by_contra hfail
    obtain ⟨e, he⟩ := (errs_iff q).mpr hfail
    rw [he] at h
    cases h
  obtain ⟨hs, hr, hw, hfin, hnonneg⟩ := hpass
  have hok : ¬ (!q.amountX.isFinite || decide (q.amountX < 0)) = true :=
    fun h' => (refuses_amount_iff q).mp h' ⟨hfin, hnonneg⟩
  simp only [solve, checkStep_of_ne hs, q.range.validate_of_fits hr hw] at h
  rw [if_neg hok] at h
  refine ⟨⟨hs, hr, hw, hfin, hnonneg⟩, ?_⟩
  split at h <;> cases h <;> simp_all

/-- The active bin's Y share, one less its X share, has positive sign. -/
theorem nonNeg_yShare (hq : q.ModerateSizes) (ha : q.ActiveInRange) :
    NonNeg (1.0 - q.activeShareX).toModel.unpack := by
  rcases yShare_cases hq ha with h0 | hsub
  · rw [h0]
    exact nonNeg_zero
  · exact nonNeg_of_pos (hsub.pos (zpow_pos two_pos _))

/-- Under moderate sizes the X capacity compares equal to zero exactly when the range lies wholly
below the active bin. -/
theorem capacityX_beq_zero_iff (hq : q.ModerateSizes) (hr : q.range.lower ≤ q.range.upper) :
    (q.xShares.foldl (· + ·) 0.0 == 0) = true ↔ q.range.upper < q.active := by
  rw [← xShares_eq_nil_iff hr]
  constructor
  · intro h0
    by_contra hne
    rw [(capacityX_bounded hq hne).beq_zero_eq_false (zpow_pos two_pos _)] at h0
    exact Bool.false_ne_true h0
  · intro hnil
    rw [hnil]
    decide +kernel

/-- With the range wholly above the active bin no bin holds Y. -/
theorem yCapacity_beq_zero_of_lt (hlow : q.active < q.range.lower) : (q.yCapacity == 0) = true := by
  have hlow' := Int32.lt_iff_toInt_lt.mp hlow
  have hnone : q.binsBelow = [] := List.filter_eq_nil_iff.mpr fun b hb => by
    have hb' := Int32.le_iff_toInt_le.mp (q.range.mem_bins.mp hb).1
    simp only [decide_eq_true_eq, Int32.lt_iff_toInt_lt]
    omega
  have hout : ¬ q.ActiveInRange := fun ha => by
    have := Int32.le_iff_toInt_le.mp ha.1
    omega
  rw [yCapacity, if_neg hout, hnone]
  decide +kernel

end DepositRequest

/-- How a solved deposit is made of its range: the Y capacity is `yCapacity` and the X capacity the
sum of the X shares in ascending order; the deposit is degenerate exactly when the X capacity
compares equal to zero, which is exactly when the range lies wholly below the active bin, and then
pairs no Y; otherwise the amount of Y is the amount of X over the X capacity times the Y capacity,
finite, not below zero, and zero exactly when the Y capacity or the amount of X is, so zero for a
range wholly above the active bin. -/
structure DepositRequest.SumsCapacities (q : DepositRequest) (d : Deposit) : Prop where
  capacityY : d.capacityY = q.yCapacity
  capacityX : d.capacityX = q.xShares.foldl (· + ·) 0.0
  degenerate_iff_zero : d.degenerate = true ↔ (d.capacityX == 0) = true
  degenerate_iff_below : d.degenerate = true ↔ q.range.upper < q.active
  degenerate_amount : d.degenerate = true → d.amountY = 0
  amount : d.degenerate = false →
    d.amountY = q.amountX / d.capacityX * d.capacityY ∧ d.amountY.isFinite = true ∧
      0 ≤ d.amountY ∧
      ((d.amountY == 0) = true ↔ (d.capacityY == 0) = true ∨ (q.amountX == 0) = true)
  above_active : q.active < q.range.lower → (d.amountY == 0) = true

/-- Every request solved under moderate sizes sums its capacities over its range as
`SumsCapacities` says. -/
theorem solve_sums_capacities {q : DepositRequest} {d : Deposit} (hq : q.ModerateSizes)
    (h : q.solve = .ok d) : q.SumsCapacities d := by
  obtain ⟨⟨-, hr, -, -, -⟩, hcap, hdeg, hamt⟩ := DepositRequest.solve_eq_ok h
  have hpos : ∀ b ∈ q.range.bins, (0 : Float) < q.priceAt b := fun b hb =>
    (hq.prices b hb).pos (zpow_pos two_pos _)
  rw [DepositRequest.capacities_eq hpos (DepositRequest.nonNeg_yShare hq), Prod.mk.injEq] at hcap
  obtain ⟨hcx, hcy⟩ := hcap
  have hdeg_iff : d.degenerate = true ↔ (d.capacityX == 0) = true := by rw [hdeg]
  have hzero_iff : (d.capacityX == 0) = true ↔ q.range.upper < q.active := by
    rw [hcx]
    exact DepositRequest.capacityX_beq_zero_iff hq hr
  -- off the degenerate case the amount of Y is the quotient times the Y capacity
  have hamount : d.degenerate = false →
      d.amountY = q.amountX / d.capacityX * d.capacityY ∧ d.amountY.isFinite = true ∧
        0 ≤ d.amountY ∧
        ((d.amountY == 0) = true ↔ (d.capacityY == 0) = true ∨ (q.amountX == 0) = true) := by
    intro hd
    have hne : ¬ (d.capacityX == 0) = true := by rw [← hdeg, hd]; exact Bool.false_ne_true
    have hxs : q.xShares ≠ [] := fun hnil =>
      hne (hzero_iff.mpr ((DepositRequest.xShares_eq_nil_iff hr).mp hnil))
    have hcxb := DepositRequest.capacityX_bounded hq hxs
    obtain ⟨hcyb, hcyb'⟩ := DepositRequest.yCapacity_bounded hq
    rw [← hcx] at hcxb
    rw [← hcy] at hcyb hcyb'
    rw [hamt, if_neg hne]
    exact ⟨rfl, DepositRequest.amount_bounded hq.amountX hcxb hcyb hcyb'⟩
  refine ⟨hcy, hcx, hdeg_iff, hdeg_iff.trans hzero_iff,
    fun hd => by rw [hamt, if_pos (hdeg_iff.mp hd)], hamount, fun hlow => ?_⟩
  -- a range wholly above the active bin is not degenerate, and holds no Y
  have hd : d.degenerate = false := by
    have hr' := Int32.le_iff_toInt_le.mp hr
    have hlow' := Int32.lt_iff_toInt_lt.mp hlow
    rw [Bool.eq_false_iff, ne_eq, hdeg_iff, hzero_iff, Int32.lt_iff_toInt_lt]
    omega
  have hcy0 : (d.capacityY == 0) = true := by
    rw [hcy]
    exact DepositRequest.yCapacity_beq_zero_of_lt hlow
  exact ((hamount hd).2.2.2).mpr (.inl hcy0)

/-- A deposit of one unit of X into the active bin alone, bin `0` at the default step and
decimals. -/
def oneBinRequest : DepositRequest := ⟨1.0, ⟨0, 0⟩, 0, 20, 6, 6, none, 70⟩

theorem solve_sums_one_bin :
    oneBinRequest.ModerateSizes ∧
      ∃ d, oneBinRequest.solve = .ok d ∧ oneBinRequest.SumsCapacities d := by
  have hone : Bounded (2 ^ (-100 : ℤ)) (2 ^ (100 : ℤ)) (1.0 : Float) :=
    bounded_one.mono (zpow_le_zpow_right₀ one_le_two (by norm_num))
      (zpow_le_zpow_right₀ one_le_two (by norm_num))
  have hq : oneBinRequest.ModerateSizes := by
    refine ⟨.within hone, fun r hr => by simp [oneBinRequest] at hr, fun b hb => ?_⟩
    rw [show oneBinRequest.range.bins = [0] by decide +kernel, List.mem_singleton] at hb
    rw [hb, show oneBinRequest.priceAt 0 = 1.0 by decide +kernel]
    exact hone
  obtain ⟨d, hd, -⟩ := (DepositRequest.solve_answersInOrder oneBinRequest).solved (by decide)
    (by decide) (by decide) (by decide +kernel) (by decide +kernel)
  exact ⟨hq, d, hd, solve_sums_capacities hq hd⟩

/-- A deposit of ten units of X into bin `-400000` alone, below the active bin `100`, at the
default step and decimals. -/
def zeroPriceRequest : DepositRequest := ⟨10.0, ⟨-400000, -400000⟩, 100, 20, 6, 6, none, 70⟩

/-- The price of bin `-400000` underflows to zero, and the range, wholly below the active bin, is
not reported degenerate: its X capacity is `0/0`, NaN, and so is the amount of Y. -/
theorem solve_zero_price_not_degenerate :
    zeroPriceRequest.priceAt (-400000) = 0 ∧ zeroPriceRequest.range.upper < zeroPriceRequest.active ∧
      ∃ d, zeroPriceRequest.solve = .ok d ∧ d.degenerate = false ∧ d.capacityX.isNaN = true ∧
        d.amountY.isNaN = true := by
  refine ⟨by decide +kernel, by decide, ?_⟩
  have h : (zeroPriceRequest.solve.toOption.map fun d =>
      (d.degenerate, d.capacityX.isNaN, d.amountY.isNaN)) = some (false, true, true) := by
    decide +kernel
  rcases hs : zeroPriceRequest.solve with e | d
  · rw [hs] at h
    cases h
  · rw [hs] at h
    simp only [Except.toOption, Option.map_some, Option.some.injEq, Prod.mk.injEq] at h
    exact ⟨d, rfl, h.1, h.2.1, h.2.2⟩

end RangeAdvisor
