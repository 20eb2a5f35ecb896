import RangeAdvisor.Proofs.DepositCapacity
import RangeAdvisor.Proofs.Urgency

/-!
# What a range counts

A range holds the 32-bit bins from its lower edge to its upper edge. Its span is the number of
those bins, zero when the range is inverted, with the count stopped at `2^32 - 1`; only the range
from the lowest to the highest 32-bit bin holds more, its `2^32` bins. Its center is the mean of its
edges, exactly, as a float. A range passes the check against a limit exactly when it is ordered
and its span is within the limit; an inverted range is refused as invalid, naming its edges, and an
ordered range over the limit as too wide, naming its span and the limit. Main statement:
`BinRange.measured`.
-/

set_option autoImplicit false

namespace RangeAdvisor

open Binary64

namespace BinRange

variable (r : BinRange)

/-- The number of 32-bit bins the range holds. -/
noncomputable def count : ℕ := {b : Int32 | r.contains b = true}.ncard

theorem contains_iff {b : Int32} : r.contains b = true ↔ r.lower ≤ b ∧ b ≤ r.upper := by
  simp [contains]

/-- The bins the range holds are those its enumeration lists, each once. -/
theorem count_eq_length_bins : r.count = r.bins.length := by
  have hset : {b : Int32 | r.contains b = true} = ↑r.bins.toFinset := by
    ext b
    simp only [Set.mem_ofPred_eq, List.coe_toFinset, contains_iff, mem_bins]
  have hnodup : r.bins.Nodup := r.pairwise_bins.imp fun h => Int32.ne_of_lt h
  rw [count, hset, Set.ncard_coe_finset, List.toFinset_card_of_nodup hnodup]

theorem count_eq : r.count = (r.upper.toInt - r.lower.toInt + 1).toNat := by
  rw [count_eq_length_bins, length_bins]

/-- The span is the count stopped at `2^32 - 1`, for an inverted range too. -/
theorem span_toNat_eq_min_count : r.span.toNat = min r.count countMax := by
  rw [count_eq]
  by_cases h : r.lower ≤ r.upper
  · exact span_toNat_of_le r h
  · -- an inverted range holds no bin and spans none
    have hlt : r.upper.toInt < r.lower.toInt := by
      rw [Int32.le_iff_toInt_le] at h
      omega
    have hspan : r.span = 0 := by simp [span, Int32.lt_iff_toInt_lt, hlt]
    rw [hspan, show (r.upper.toInt - r.lower.toInt + 1).toNat = 0 by omega]
    simp

theorem span_eq_zero_iff : r.span = 0 ↔ r.upper < r.lower := by
  have h := r.span_toNat_eq_min_count
  rw [count_eq, show countMax = 4294967295 from rfl] at h
  rw [Int32.lt_iff_toInt_lt, ← UInt32.toNat_inj, UInt32.toNat_zero, h]
  omega

/-- Only the range of every 32-bit bin holds more bins than a span can count. -/
theorem countMax_lt_count_iff :
    countMax < r.count ↔ r.lower = Int32.minValue ∧ r.upper = Int32.maxValue := by
  have hlo := Saturating.lo_le_toInt r.lower
  have hhi := Saturating.toInt_le_hi r.upper
  have hlo' := Saturating.lo_le_toInt r.upper
  have hhi' := Saturating.toInt_le_hi r.lower
  simp only [Saturating.lo, Saturating.hi] at hlo hhi hlo' hhi'
  rw [count_eq, show countMax = 4294967295 from rfl, ← Int32.toInt_inj, ← Int32.toInt_inj,
    Int32.toInt_minValue, Int32.toInt_maxValue]
  omega

/-- The check accepts exactly the ordered ranges within the limit. -/
theorem validate_eq_ok_iff (limit : UInt32) :
    r.validate limit = .ok () ↔ r.lower ≤ r.upper ∧ r.span ≤ limit := by
  constructor
  · intro h
    by_cases hord : r.lower ≤ r.upper
    · refine ⟨hord, UInt32.not_lt.mp fun hw => ?_⟩
      rw [validate_of_tooWide r hord hw] at h
      cases h
    · rw [validate_of_inverted r limit (Int32.not_le.mp hord)] at h
      cases h
  · rintro ⟨hord, hw⟩
    exact validate_of_fits r hord hw

theorem validate_eq_inverted_iff (limit : UInt32) :
    r.validate limit = .error (.invertedRange r.lower r.upper) ↔ r.upper < r.lower := by
  refine ⟨fun h => Int32.not_le.mp fun hord => ?_, validate_of_inverted r limit⟩
  by_cases hw : limit < r.span
  · rw [validate_of_tooWide r hord hw] at h
    cases h
  · rw [validate_of_fits r hord (UInt32.not_lt.mp hw)] at h
    cases h

theorem validate_eq_tooWide_iff (limit : UInt32) :
    r.validate limit = .error (.rangeTooWide r.span limit) ↔ r.lower ≤ r.upper ∧ limit < r.span := by
  refine ⟨fun h => ?_, fun ⟨hord, hw⟩ => validate_of_tooWide r hord hw⟩
  by_cases hord : r.lower ≤ r.upper
  · refine ⟨hord, UInt32.not_le.mp fun hw => ?_⟩
    rw [validate_of_fits r hord hw] at h
    cases h
  · rw [validate_of_inverted r limit (Int32.not_le.mp hord)] at h
    cases h

/-- The span, the center and the check of a range against a limit, read off the bins it holds. -/
structure Measured (limit : UInt32) : Prop where
  span_eq : r.span.toNat = min r.count countMax
  span_eq_zero : r.span = 0 ↔ r.upper < r.lower
  count_gt : countMax < r.count ↔ r.lower = Int32.minValue ∧ r.upper = Int32.maxValue
  center : r.center.isFinite = true ∧
    toReal r.center = ((r.lower.toInt + r.upper.toInt : ℤ) : ℝ) / 2
  accepts : r.validate limit = .ok () ↔ r.lower ≤ r.upper ∧ r.span ≤ limit
  inverted : r.validate limit = .error (.invertedRange r.lower r.upper) ↔ r.upper < r.lower
  tooWide : r.validate limit = .error (.rangeTooWide r.span limit) ↔
    r.lower ≤ r.upper ∧ limit < r.span

/-- Every range, against every limit, spans its bins up to `2^32 - 1`, is centered exactly between
its edges, and is checked as ordered and within the limit. -/
theorem measured (limit : UInt32) : r.Measured limit where
  span_eq := r.span_toNat_eq_min_count
  span_eq_zero := r.span_eq_zero_iff
  count_gt := r.countMax_lt_count_iff
  center := r.center_value
  accepts := r.validate_eq_ok_iff limit
  inverted := r.validate_eq_inverted_iff limit
  tooWide := r.validate_eq_tooWide_iff limit

end BinRange

end RangeAdvisor
