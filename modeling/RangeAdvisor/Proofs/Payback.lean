import RangeAdvisor.Rebalance.Analysis
import RangeAdvisor.Proofs.Float.Gain
import RangeAdvisor.Proofs.Float.Bounds

/-!
# When a rebalance pays back

An analysis values a position's fees per day at its APR over a share of time in range between
zero and one, projects them by the uplift, and the cost-benefit view recomputes the same break-even
time from the analysis. A rebalance pays back exactly when that time is finite, which is exactly
when its label is not `N/A`, and then the daily gain is above zero. For a position of value at least
zero the current fees are at least zero or NaN, so an uplift of at most one, a NaN uplift, or an
APR that is not finite and above zero leaves no gain: such a rebalance never pays back.
Main statement: `Position.analyze_payback`.
-/

set_option autoImplicit false

namespace RangeAdvisor

open Binary64

/-! ### Break-even times -/

theorem infinity_isFinite : (1.0 / 0.0 : Float).isFinite = false := rfl

theorem breakEvenHours_of_not_pos {current projected : Float} (cost : Float)
    (h : ¬ (0 : Float) < projected - current) :
    breakEvenHours current projected cost = 1.0 / 0.0 := by
  rw [breakEvenHours, zeroLit_eq] at *
  exact if_neg h

/-- A finite break-even time comes from a gain above zero. -/
theorem pos_of_breakEvenHours_isFinite {current projected cost : Float}
    (h : (breakEvenHours current projected cost).isFinite = true) :
    (0 : Float) < projected - current := by
  by_contra hpos
  rw [breakEvenHours_of_not_pos cost hpos, infinity_isFinite] at h
  cases h

theorem append_h_ne (s : String) : s ++ "h" ≠ "N/A" := by
  intro h
  -- the two texts end in different characters
  have hlast := congrArg (fun t => t.toList.getLast?) h
  rw [String.toList_append, show "h".toList = ['h'] by decide,
    show "N/A".toList = ['N', '/', 'A'] by decide] at hlast
  simp at hlast

theorem formatHours_ne_iff (h : Float) : formatHours h ≠ "N/A" ↔ h.isFinite = true := by
  unfold formatHours
  cases hf : h.isFinite
  · simp
  · simpa using append_h_ne _

namespace CostBenefit

/-- A rebalance pays back exactly when its label shows a time, and then it gains every day. -/
theorem paysBack_iff (current projected cost : Float) :
    ((evaluate current projected cost).paysBack = true ↔
      (evaluate current projected cost).label ≠ "N/A") ∧
    ((evaluate current projected cost).paysBack = true →
      (0 : Float) < (evaluate current projected cost).netDailyGain) :=
  ⟨(formatHours_ne_iff _).symm, pos_of_breakEvenHours_isFinite⟩

end CostBenefit

/-! ### Fees of a position -/

section Fees

variable {x : Float}

theorem isFinite_of_le_of_le {a b : Float} (ha : a.isFinite = true) (hb : b.isFinite = true)
    (h0 : a ≤ x) (h1 : x ≤ b) : x.isFinite = true := by
  obtain ⟨-, hx, hax⟩ := le_iff.mp h0
  obtain ⟨-, -, hxb⟩ := le_iff.mp h1
  rw [value_of_isFinite ha] at hax
  rw [value_of_isFinite hb] at hxb
  exact isFinite_of_value_ne hx (ne_top_of_le_ne_top (EReal.coe_ne_top _) hxb)
    (ne_bot_of_le_ne_bot (EReal.coe_ne_bot _) hax)

/-- The share of time in range lies in `[0, 1]`. -/
theorem expectedTimeInRange_mem (p : Position) (measured : Option Float) :
    0.0 ≤ p.expectedTimeInRange measured ∧ p.expectedTimeInRange measured ≤ 1.0 := by
  unfold Position.expectedTimeInRange
  split
  case h_1 t ht =>
    have hfin : t.isFinite = true := (Option.filter_eq_some_iff.mp ht).2
    exact clamp_mem (isNaN_eq_false_of_isFinite hfin) (of_decide_eq_true rfl)
  case h_2 =>
    split
    · exact ⟨of_decide_eq_true rfl, of_decide_eq_true rfl⟩
    · exact ⟨of_decide_eq_true rfl, of_decide_eq_true rfl⟩

theorem expectedTimeInRange_isFinite (p : Position) (measured : Option Float) :
    (p.expectedTimeInRange measured).isFinite = true :=
  isFinite_of_le_of_le rfl rfl
    (expectedTimeInRange_mem p measured).1 (expectedTimeInRange_mem p measured).2

/-- Fees of a value of at least zero at a usable APR over a share of at least zero are at least zero
or NaN. -/
theorem dailyFees_nonneg_or_isNaN {value apr t : Float} (hv : (0 : Float) ≤ value)
    (ha : (apr.isFinite && decide (apr > 0)) = true) (ht : (0 : Float) ≤ t)
    (htf : t.isFinite = true) :
    (value * apr / 100.0 / 365.0 * t).isNaN = true ∨
      (0 : Float) ≤ value * apr / 100.0 / 365.0 * t := by
  obtain ⟨haf, hapos⟩ := Bool.and_eq_true_iff.mp ha
  have h100 : (0 : Float) < 100.0 ∧ (100.0 : Float).isFinite = true :=
    ⟨of_decide_eq_true rfl, rfl⟩
  have h365 : (0 : Float) < 365.0 ∧ (365.0 : Float).isFinite = true :=
    ⟨of_decide_eq_true rfl, rfl⟩
  have hva := zero_le_mul_of_pos hv (of_decide_eq_true hapos) haf
  have hd1 := zero_le_div_of_pos hva h100.1 h100.2
  exact zero_le_mul_or_isNaN (zero_le_div_of_pos hd1 h365.1 h365.2) ht htf

end Fees

namespace Position

/-- An uplift of at most one, a NaN uplift, or an APR that is not finite and above zero leaves a
position of value at least zero without a gain. -/
theorem not_pos_gain (p : Position) (apr : Option Float) (inputs : FeeInputs)
    (hv : (0 : Float) ≤ p.valueUsd inputs.xUsd inputs.yUsd)
    (h : inputs.feeUplift ≤ 1.0 ∨ inputs.feeUplift.isNaN = true ∨
      apr.filter (fun a => a.isFinite && decide (a > 0)) = none) :
    ¬ (0 : Float) <
      (p.analyze apr inputs).projectedDailyFees - (p.analyze apr inputs).currentDailyFees := by
  show ¬ (0 : Float) < dailyFees _ apr _ * inputs.feeUplift - dailyFees _ apr _
  unfold dailyFees
  split
  case h_1 a ha =>
    -- a usable APR: the fees are at least zero or NaN, and the uplift does not raise them
    have hu : inputs.feeUplift.isNaN = true ∨ inputs.feeUplift ≤ 1 := by
      rcases h with h | h | h
      · exact .inr (oneLit_eq ▸ h)
      · exact .inl h
      · rw [ha] at h
        cases h
    obtain ⟨-, hok⟩ := Option.filter_eq_some_iff.mp ha
    have ht := expectedTimeInRange_mem p inputs.timeInRange
    exact not_pos_mul_sub_self (dailyFees_nonneg_or_isNaN hv hok (zeroLit_eq ▸ ht.1)
      (expectedTimeInRange_isFinite p inputs.timeInRange)) hu
  case h_2 =>
    rw [zeroLit_eq]
    exact not_pos_zero_mul_sub inputs.feeUplift

/-- Analysing a position values its fees over a share of time in `[0, 1]` and projects them by the
uplift; the cost-benefit view keeps its break-even time, pays back exactly when that time is finite
and its label is not `N/A`, and then gains every day. A position of value at least zero never pays
back without an uplift above one and an APR that is finite and above zero. -/
theorem analyze_payback (p : Position) (apr : Option Float) (inputs : FeeInputs) :
    let a := p.analyze apr inputs
    let c := CostBenefit.ofAnalysis a
    let t := p.expectedTimeInRange inputs.timeInRange
    (0.0 ≤ t ∧ t ≤ 1.0) ∧
      a.currentDailyFees = dailyFees (p.valueUsd inputs.xUsd inputs.yUsd) apr t ∧
      a.projectedDailyFees = a.currentDailyFees * inputs.feeUplift ∧
      c.breakEvenHours = a.breakEvenHours ∧
      (c.paysBack = true ↔ c.breakEvenHours.isFinite = true) ∧
      (c.paysBack = true ↔ c.label ≠ "N/A") ∧
      (c.paysBack = true → (0 : Float) < c.netDailyGain) ∧
      ((0 : Float) ≤ p.valueUsd inputs.xUsd inputs.yUsd →
        inputs.feeUplift ≤ 1.0 ∨ inputs.feeUplift.isNaN = true ∨
          apr.filter (fun a => a.isFinite && decide (a > 0)) = none →
        c.paysBack = false) := by
  obtain ⟨hlabel, hgain⟩ := CostBenefit.paysBack_iff (p.analyze apr inputs).currentDailyFees
    (p.analyze apr inputs).projectedDailyFees (p.analyze apr inputs).rebalanceCost
  refine ⟨expectedTimeInRange_mem p _, rfl, rfl, rfl, Iff.rfl, hlabel, hgain, fun hv h => ?_⟩
  -- without a gain the break-even time is infinite
  show (breakEvenHours _ _ _).isFinite = false
  rw [breakEvenHours_of_not_pos _ (p.not_pos_gain apr inputs hv h), infinity_isFinite]

/-- A position worth 100 in a ten-bin range holding its active bin. -/
def steady : Position := ⟨"pos", "pool", 0, 9, 5, 100.0, 0.0, 0.0, 0.0, []⟩

theorem analyze_payback_without_uplift :
    (0 : Float) ≤ steady.valueUsd 1.0 1.0 ∧ (1.0 : Float) ≤ 1.0 ∧
      (CostBenefit.ofAnalysis (steady.analyze (some 20.0) ⟨1.0, 1.0, none, 1.0, 5.0⟩)).paysBack =
        false := by
  have hv : (0 : Float) ≤ steady.valueUsd 1.0 1.0 := of_decide_eq_true rfl
  have hu : (1.0 : Float) ≤ 1.0 := of_decide_eq_true rfl
  exact ⟨hv, hu, (analyze_payback steady (some 20.0) ⟨1.0, 1.0, none, 1.0, 5.0⟩).2.2.2.2.2.2.2 hv
    (.inl hu)⟩

end Position

end RangeAdvisor
