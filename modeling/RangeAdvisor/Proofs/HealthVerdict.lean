import RangeAdvisor.Proofs.ShiftReport
import RangeAdvisor.Proofs.Float.Gain
import RangeAdvisor.Proofs.Float.Bounds
import RangeAdvisor.Advisor

/-!
# The verdict of a price check

The pool's model price at its active bin is compared with an oracle quote that is finite and above
zero: the deviation is their relative distance, zero without such a quote, and the pool is healthy
when the deviation is at most the limit. A bin price is never NaN, so the deviation is a number and
the pool is unhealthy exactly when the limit is NaN or below the deviation. Without a quote the
deviation is zero: a limit that is NaN or below zero, both of which the settings read from their
text, finds unhealthy a pool that no quote shows to deviate. Main statement:
`Health.check_verdict`; `Health.check_unhealthy_without_quote` is such a pool.
-/

set_option autoImplicit false

namespace RangeAdvisor

open Binary64

namespace Bins

/-- The growth factor per bin is finite and at least one; for a zero step it is one. -/
theorem stepRatio_finite (step : UInt16) :
    (stepRatio step).isFinite = true ∧ 1 ≤ toReal (stepRatio step) := by
  by_cases hs : step = 0
  · subst hs
    rw [show stepRatio 0 = 1.0 from rfl]
    exact ⟨oneLit_value.1, oneLit_value.2.ge⟩
  · exact ⟨(stepRatio_bounds hs).1, one_le_stepRatio hs⟩

/-- A bin price is never NaN: a power of at least zero times a finite factor above zero. -/
theorem priceAt_isNaN (b : Int32) (step : UInt16) (dx dy : UInt8) :
    (priceAt b step dx dy).isNaN = false := by
  obtain ⟨hf, h1⟩ := stepRatio_finite step
  obtain ⟨hRn, hR0⟩ := (powInt_approx hf h1 b).zero_le
  obtain ⟨hDf, hD0⟩ := decimalsFactor_pos dx dy
  have hR : (0 : Float) ≤ powInt (stepRatio step) b := le_iff.mpr ⟨rfl, hRn, hR0⟩
  exact isNaN_eq_false_of_le_right (zero_le_mul_of_pos hR ((zero_lt_iff hDf).mpr hD0) hDf)

end Bins

namespace Health

/-- The quote a check compares with: one that is finite and above zero. -/
def usableQuote (oracle : Option Float) : Option Float :=
  oracle.filter fun p => p.isFinite && decide (p > 0)

theorem deviation_isNaN (pool : Pool) (oracle : Option Float) (limit : Float) :
    (check pool oracle limit).deviation.isNaN = false :=
  priceDeviation_isNaN _ (Bins.priceAt_isNaN _ _ _ _)

/-- The pool is unhealthy exactly when the limit is NaN or below the deviation. -/
theorem healthy_eq_false_iff (pool : Pool) (oracle : Option Float) (limit : Float) :
    (check pool oracle limit).healthy = false ↔
      limit.isNaN = true ∨ limit < (check pool oracle limit).deviation := by
  show decide (_ ≤ limit) = false ↔ _
  rw [decide_eq_false_iff_not]
  exact not_le_iff (deviation_isNaN pool oracle limit)

/-- The pool is unhealthy exactly when the limit is NaN or below the deviation, read off the
active bin's model price and the usable quote: without one the deviation is zero and no oracle bin
is named; with one the deviation is the relative distance from it and the oracle bin is its bin. -/
theorem check_verdict (pool : Pool) (oracle : Option Float) (limit : Float) :
    let h := check pool oracle limit
    h.poolPrice = pool.priceAt pool.activeBin ∧
      (h.healthy = false ↔ limit.isNaN = true ∨ limit < h.deviation) ∧
      match usableQuote oracle with
      | none => h.oraclePrice = none ∧ h.deviation = 0 ∧ h.oracleBin = none
      | some o => h.oraclePrice = some o ∧
          h.deviation = (pool.priceAt pool.activeBin - o).abs / o ∧
          h.oracleBin = Bins.binFor? o pool.binStep pool.tokenX.decimals pool.tokenY.decimals := by
  refine ⟨rfl, healthy_eq_false_iff pool oracle limit, ?_⟩
  cases hq : usableQuote oracle with
  | none =>
    have hq' : (oracle.filter fun p => p.isFinite && decide (p > 0)) = none := hq
    simp only [check, hq', priceDeviation, zeroLit_eq]
    exact ⟨trivial, trivial, rfl⟩
  | some o =>
    have hq' : (oracle.filter fun p => p.isFinite && decide (p > 0)) = some o := hq
    have hok : (o.isFinite && decide (o > 0)) = true := (Option.filter_eq_some_iff.mp hq').2
    simp only [check, hq', priceDeviation, hok, if_true]
    exact ⟨trivial, trivial, rfl⟩

/-- A pool of step 20 and six decimals a side, at bin zero. -/
def plainPool : Pool := ⟨"pool", ⟨"MX", "X", 6⟩, ⟨"MY", "Y", 6⟩, 20, 0, none, none, none, none⟩

/-- The settings read the limit `NaN` from its text, and under that limit a pool with no oracle
quote, whose deviation is zero, is reported unhealthy. -/
theorem check_unhealthy_without_quote :
    (Settings.ofLookup fun _ => some "NaN").healthDeviationLimit.isNaN = true ∧
      (check plainPool none (Settings.ofLookup fun _ => some "NaN").healthDeviationLimit).deviation = 0 ∧
      (check plainPool none (Settings.ofLookup fun _ => some "NaN").healthDeviationLimit).healthy = false := by
  refine ⟨rfl, rfl, rfl⟩

end Health

end RangeAdvisor
