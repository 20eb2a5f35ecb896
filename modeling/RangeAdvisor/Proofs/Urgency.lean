import RangeAdvisor.Rebalance.Analysis
import RangeAdvisor.Proofs.Float.Halves
import RangeAdvisor.Proofs.Saturating

/-!
# The urgency of a rebalance, read on integers

A position's urgency depends on floats only through two comparisons, and both are exact. The
funded share of a span below `2^32` bins is below the float `0.4` exactly when five times the
funded entries are fewer than twice the span: `0.4` is two fifths rounded, and a share below two
fifths falls short of it by at least `1/(5 span)`, far more than either rounding moves. The middle
of a range of 32-bit bins is a half-integer, and the distance of the active bin from it is half the
drift `|2 active - lower - upper|`, both exact. So the priority is a function of integers, and the
analysis reports it with the distance halved. Funded entries are counted as recorded: a bin recorded
twice counts twice, so the share can exceed the funded bins of the range.
Main statement: `Position.analyze_urgency`.
-/

set_option autoImplicit false

namespace RangeAdvisor

open Binary64 Rounding

/-! ### Two fifths of a span -/

section Share

variable {f s : ℕ}

theorem abs_nearest_sub_le_of_abs_le_one {z : ℝ} (hz : |z| ≤ 1) :
    |nearest z - z| ≤ 2 ^ (-53 : ℤ) := by
  refine (abs_nearest_sub_le_max z).trans (max_le ?_ (zpow_le_zpow_right₀ one_le_two (by norm_num)))
  rw [zpow_neg, zpow_ofNat, ← one_div]
  gcongr

theorem share_value (hf : f < 2 ^ 53) (hs0 : 0 < s) (hs : s < 2 ^ 53) :
    (Float.ofNat f / Float.ofNat s).isFinite = true ∧
      toReal (Float.ofNat f / Float.ofNat s) = nearest ((f : ℝ) / s) := by
  obtain ⟨hff, hfr⟩ := ofNat_value hf
  obtain ⟨hsf, hsr⟩ := ofNat_value hs
  have hspos : (0 : ℝ) < s := by exact_mod_cast hs0
  obtain ⟨hn, hv⟩ := div_value hff hsf (by rw [hsr]; exact hspos.ne')
  rw [hfr, hsr] at hv
  refine isFinite_of_value_small hn hv ?_
  rw [abs_of_nonneg (by positivity), div_le_iff₀ hspos]
  calc (f : ℝ) ≤ 2 ^ 53 := by exact_mod_cast hf.le
    _ ≤ 2 ^ 53 * s := le_mul_of_one_le_right (by positivity) (by exact_mod_cast hs0)

theorem fourTenths_value : (0.4 : Float).isFinite = true ∧ toReal 0.4 = nearest (2 / 5) := by
  rw [show (0.4 : Float) = Float.ofNat 2 / Float.ofNat 5 by decide +kernel]
  exact_mod_cast share_value (by norm_num) (by norm_num) (by norm_num)

theorem share_lt_fourTenths_iff_of_lt (hf : f < 2 ^ 53) (hs0 : 0 < s) (hs : s < 2 ^ 32) :
    Float.ofNat f / Float.ofNat s < 0.4 ↔ 5 * f < 2 * s := by
  obtain ⟨hLf, hLr⟩ := fourTenths_value
  obtain ⟨hqf, hqr⟩ := share_value hf hs0 (by omega)
  have hspos : (0 : ℝ) < s := by exact_mod_cast hs0
  rw [lt_iff_toReal_lt hqf hLf, hqr, hLr]
  constructor
  · -- a share of at least two fifths rounds to at least two fifths rounded
    intro h
    by_contra hge
    have hle : (2 : ℝ) / 5 ≤ f / s := by
      rw [div_le_div_iff₀ (by norm_num) hspos]
      exact_mod_cast (by omega : 2 * s ≤ f * 5)
    exact absurd (nearest_mono hle) (not_le.mpr h)
  · -- below two fifths the share falls short by `1/(5s)`, more than both roundings move
    intro h
    have hint : (5 * f + 1 : ℝ) ≤ 2 * s := by exact_mod_cast (by omega : 5 * f + 1 ≤ 2 * s)
    have hgap : (f : ℝ) / s ≤ 2 / 5 - 1 / (5 * s) := by
      rw [show (2 : ℝ) / 5 - 1 / (5 * s) = (2 * s - 1) / (5 * s) by field_simp,
        div_le_div_iff₀ hspos (by positivity)]
      nlinarith
    have hroom : 2 * (2 : ℝ) ^ (-53 : ℤ) < 1 / (5 * s) := by
      rw [lt_one_div (by positivity) (by positivity)]
      have : (s : ℝ) < 2 ^ 32 := by exact_mod_cast hs
      norm_num
      linarith
    have hq : |(f : ℝ) / s| ≤ 1 := by
      rw [abs_of_nonneg (by positivity)]
      linarith [show (0 : ℝ) < 1 / (5 * s) by positivity]
    have eq := abs_sub_le_iff.mp (abs_nearest_sub_le_of_abs_le_one hq)
    have eL := abs_sub_le_iff.mp (abs_nearest_sub_le_of_abs_le_one (z := 2 / 5) (by norm_num))
    linarith [eq.1, eL.2]

/-- A share of a span below `2^32` bins is below the float `0.4` exactly when five times the count
is below twice the span. -/
theorem share_lt_fourTenths_iff (hs0 : 0 < s) (hs : s < 2 ^ 32) :
    Float.ofNat f / Float.ofNat s < 0.4 ↔ 5 * f < 2 * s := by
  by_cases hf : f < 2 ^ 53
  · exact share_lt_fourTenths_iff_of_lt hf hs0 hs
  -- from `2^53` counted entries on the share is at least the span over itself
  refine ⟨fun h => absurd h ?_, fun h => by omega⟩
  obtain ⟨hsf, hsr⟩ := ofNat_value (n := s) (by omega)
  obtain ⟨hwf, -⟩ := share_value (f := s) (by omega) hs0 (by omega)
  have hspos : (0 : Float) < Float.ofNat s :=
    lt_of_toReal_lt rfl hsf (by rw [hsr, show toReal (0 : Float) = 0 from rfl]; exact_mod_cast hs0)
  have hself : (0.4 : Float) ≤ Float.ofNat s / Float.ofNat s :=
    Binary64.le_of_not_lt (isNaN_eq_false_of_isFinite hwf)
      (isNaN_eq_false_of_isFinite fourTenths_value.1)
      (mt (share_lt_fourTenths_iff_of_lt (by omega) hs0 hs).mp (by omega))
  exact fun h => Binary64.not_le_of_lt h
    (Binary64.le_trans hself (div_le_div_of_pos hspos hsf (ofNat_mono (by omega))))

end Share

/-! ### The middle of a range -/

theorem natAbs_toInt_lt (b : Int32) : b.toInt.natAbs < 2 ^ 31 + 1 := by
  have := Saturating.lo_le_toInt b
  have := Saturating.toInt_le_hi b
  simp only [Saturating.lo, Saturating.hi] at *
  omega

theorem ofInt_toInt_value (b : Int32) :
    (Float.ofInt b.toInt).isFinite = true ∧ toReal (Float.ofInt b.toInt) = b.toInt :=
  ofInt_value (by have := natAbs_toInt_lt b; omega)

namespace BinRange

/-- The middle of a range is the mean of its edges, exactly. -/
theorem center_value (r : BinRange) :
    r.center.isFinite = true ∧ toReal r.center = ((r.lower.toInt + r.upper.toInt : ℤ) : ℝ) / 2 := by
  obtain ⟨hlf, hlr⟩ := ofInt_toInt_value r.lower
  obtain ⟨huf, hur⟩ := ofInt_toInt_value r.upper
  have hsum : (r.lower.toInt + r.upper.toInt).natAbs < 2 ^ 53 := by
    have := natAbs_toInt_lt r.lower
    have := natAbs_toInt_lt r.upper
    omega
  have habs : |((r.lower.toInt + r.upper.toInt : ℤ) : ℝ)| ≤ 2 ^ 53 := by
    rw [← Int.cast_abs, Int.abs_eq_natAbs]
    exact_mod_cast hsum.le
  -- the sum of the edges is an integer below `2^33` in size, so it is exact
  obtain ⟨hn, hv⟩ := add_value hlf huf
  rw [hlr, hur, ← Int.cast_add] at hv
  obtain ⟨hsf, hsr⟩ := of_value_exact hn hv (nearest_intCast hsum) habs
  -- and so is its half
  obtain ⟨h2f, h2r⟩ := twoLit_value
  obtain ⟨hn', hv'⟩ := div_value hsf h2f (by rw [h2r]; norm_num)
  rw [hsr, h2r, div_eq_mul_inv, ← zpow_neg_one] at hv'
  obtain ⟨hcf, hcr⟩ := of_value_half_int hn' hv' hsum
  exact ⟨hcf, hcr.trans (by rw [zpow_neg_one, div_eq_mul_inv])⟩

end BinRange

namespace Position

/-- Whether a recorded bin lies in the range and holds liquidity. -/
def funds (r : BinRange) (b : PositionBin) : Bool :=
  r.contains b.binId && (decide (b.x > 0) || decide (b.y > 0))

/-- The recorded bins of the range that hold liquidity, an entry counted each time it is recorded. -/
def fundedCount (p : Position) : ℕ := (p.bins.filter (funds p.range)).length

/-- The bins of the range that hold liquidity, each counted once. -/
def fundedBins (p : Position) : List Int32 := ((p.bins.filter (funds p.range)).map (·.binId)).dedup

/-- Twice the distance of the active bin from the middle of the range. -/
def drift (p : Position) : ℕ := (2 * p.active.toInt - p.lower.toInt - p.upper.toInt).natAbs

/-- The urgency of a rebalance on integers: out of range, then funded entries below two fifths of
the span, then a drift beyond 20 or 10 half-bins. -/
def urgency (p : Position) : Priority :=
  if ¬ (p.lower ≤ p.active ∧ p.active ≤ p.upper) then .critical
  else if p.bins.isEmpty = false ∧ 5 * p.fundedCount < 2 * p.range.span.toNat then .high
  else if 20 < p.drift then .medium
  else if 10 < p.drift then .low
  else .none

/-- Without a bin recorded twice among the funded entries, they count the funded bins. -/
theorem fundedBins_length (p : Position)
    (h : ((p.bins.filter (funds p.range)).map (·.binId)).Nodup) :
    p.fundedBins.length = p.fundedCount := by
  rw [fundedBins, List.dedup_eq_self.mpr h, List.length_map, fundedCount]

theorem inRange_iff (p : Position) : p.inRange = true ↔ p.lower ≤ p.active ∧ p.active ≤ p.upper := by
  simp only [inRange, BinRange.contains, range, Bool.and_eq_true]
  exact ⟨fun h => ⟨of_decide_eq_true h.1, of_decide_eq_true h.2⟩,
    fun h => ⟨decide_eq_true h.1, decide_eq_true h.2⟩⟩

/-- The funded share is below `0.4` exactly when bins are recorded and five times the funded
entries are fewer than twice the span. -/
theorem fundedShare_low_iff (p : Position) :
    (p.fundedShare.filter (· < 0.4)).isSome = true ↔
      p.bins.isEmpty = false ∧ 5 * p.fundedCount < 2 * p.range.span.toNat := by
  show (Option.filter _ (if p.bins.isEmpty || p.range.span == 0 then none
    else some (Float.ofNat p.fundedCount / Float.ofNat p.range.span.toNat))).isSome = true ↔ _
  cases he : p.bins.isEmpty
  case true => simp
  case false =>
    by_cases hs : p.range.span = 0
    · simp [hs]
    have hs0 : 0 < p.range.span.toNat := by
      have : p.range.span.toNat ≠ 0 := fun h => hs (UInt32.toNat_inj.mp h)
      omega
    have hne : (p.range.span == 0) = false := by simpa using hs
    rw [Bool.false_or, hne, if_neg Bool.false_ne_true, Option.filter_some,
      ← share_lt_fourTenths_iff hs0 p.range.span.toNat_lt]
    by_cases hlt : Float.ofNat p.fundedCount / Float.ofNat p.range.span.toNat < 0.4 <;> simp [hlt]

/-- The distance of the active bin from the middle of the range is half the drift, exactly. -/
theorem distanceFromCenter_value (p : Position) :
    p.distanceFromCenter.isFinite = true ∧ toReal p.distanceFromCenter = p.drift / 2 := by
  obtain ⟨haf, har⟩ := ofInt_toInt_value p.active
  obtain ⟨hcf, hcr⟩ := p.range.center_value
  have hsmall : (2 * p.active.toInt - p.lower.toInt - p.upper.toInt).natAbs < 2 ^ 53 := by
    have := natAbs_toInt_lt p.active
    have := natAbs_toInt_lt p.lower
    have := natAbs_toInt_lt p.upper
    omega
  -- the active bin less the middle is half an integer below `2^34` in size
  have hdiff : toReal (Float.ofInt p.active.toInt) - toReal p.range.center =
      ((2 * p.active.toInt - p.lower.toInt - p.upper.toInt : ℤ) : ℝ) * 2 ^ (-1 : ℤ) := by
    rw [har, hcr, zpow_neg_one]
    simp only [range]
    push_cast
    ring
  obtain ⟨hn, hv⟩ := sub_value haf hcf
  rw [hdiff] at hv
  obtain ⟨hsf, hsr⟩ := of_value_half_int hn hv hsmall
  obtain ⟨hdf, hdr⟩ := abs_value hsf
  refine ⟨hdf, ?_⟩
  rw [distanceFromCenter, hdr, hsr, abs_mul, abs_of_pos (a := (2 : ℝ) ^ (-1 : ℤ)) (by positivity),
    zpow_neg_one, drift,
    Nat.cast_natAbs, Int.cast_abs, div_eq_mul_inv]

/-- A whole number of bins below `2^53` is closer than the active bin exactly when twice it is
below the drift. -/
theorem lt_distanceFromCenter_iff (p : Position) {k : ℕ} (hk : k < 2 ^ 53) :
    Float.ofNat k < p.distanceFromCenter ↔ 2 * k < p.drift := by
  obtain ⟨hkf, hkr⟩ := ofNat_value hk
  obtain ⟨hdf, hdr⟩ := p.distanceFromCenter_value
  rw [lt_iff_toReal_lt hkf hdf, hkr, hdr, lt_div_iff₀ two_pos]
  exact_mod_cast (by omega : k * 2 < p.drift ↔ 2 * k < p.drift)

/-- The priority a position is classified at is its urgency. -/
theorem classify_fst (p : Position) : p.classify.1 = p.urgency := by
  have hten : (10.0 : Float) = Float.ofNat 10 := rfl
  have hfive : (5.0 : Float) = Float.ofNat 5 := rfl
  unfold classify urgency
  by_cases hin : p.lower ≤ p.active ∧ p.active ≤ p.upper
  case neg =>
    have hc : p.range.contains p.active = false := Bool.eq_false_iff.mpr (mt p.inRange_iff.mp hin)
    rw [if_pos (by simp [hc]), if_pos hin]
  case pos =>
    have hc : p.range.contains p.active = true := p.inRange_iff.mpr hin
    rw [if_neg (by simp [hc]), if_neg (not_not.mpr hin)]
    split
    case h_1 q hq =>
      rw [if_pos (p.fundedShare_low_iff.mp (by rw [hq]; rfl))]
    case h_2 hq =>
      have hlow := mt p.fundedShare_low_iff.mpr (by rw [hq]; exact Bool.false_ne_true)
      rw [if_neg hlow]
      simp only [gt_iff_lt, hten, hfive, p.lt_distanceFromCenter_iff (by norm_num : 10 < 2 ^ 53),
        p.lt_distanceFromCenter_iff (by norm_num : 5 < 2 ^ 53)]
      split_ifs <;> rfl

theorem shouldRebalance_iff (q : Priority) : q.shouldRebalance = true ↔ q = .high ∨ q = .critical := by
  cases q <;> decide

/-- Analysing a position reports its classified priority, which is its urgency on integers, advises
a rebalance from high up, and reports whether the range holds the active bin and half the drift as
the distance from the middle. -/
theorem analyze_urgency (p : Position) (apr : Option Float) (inputs : FeeInputs) :
    let a := p.analyze apr inputs
    a.priority = p.classify.1 ∧ a.priority = p.urgency ∧
      (a.priority.shouldRebalance = true ↔ a.priority = .high ∨ a.priority = .critical) ∧
      (a.inRange = true ↔ p.lower ≤ p.active ∧ p.active ≤ p.upper) ∧
      a.distanceFromCenter.isFinite = true ∧ toReal a.distanceFromCenter = p.drift / 2 :=
  ⟨rfl, p.classify_fst, shouldRebalance_iff _, p.inRange_iff, p.distanceFromCenter_value⟩

/-- One funded bin of a ten-bin range, recorded four times. -/
def repeatedEntries : Position :=
  ⟨"pos", "pool", 0, 9, 5, 0, 0, 0, 0, List.replicate 4 ⟨0, 1.0, 0.0⟩⟩

/-- Four entries for one funded bin count as four tenths of the span, not one tenth, so the position
is not high even though one bin of ten holds liquidity. -/
theorem classify_counts_repeated_entries :
    repeatedEntries.bins.isEmpty = false ∧ repeatedEntries.fundedBins.length = 1 ∧
      repeatedEntries.range.span.toNat = 10 ∧ repeatedEntries.classify.1 = .none := by
  refine ⟨rfl, rfl, rfl, ?_⟩
  rw [classify_fst]
  rfl

end Position

end RangeAdvisor
