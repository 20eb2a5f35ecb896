import RangeAdvisor.Advisor
import RangeAdvisor.Proofs.RangeShape
import RangeAdvisor.Proofs.Float.Share

/-!
# The checks before a paired deposit

Solving a deposit refuses, in this order, a zero bin step, an inverted range, a range of more bins
than the limit, and an amount of X that is negative or not finite; otherwise it sums the
capacities over every bin of the range, lower edge first. The range's span, the count the limit is
checked against, is that number of bins except for the one range too large for a 32-bit count, from
the lowest to the highest 32-bit bin: its span stops at `2^32 - 1`, so a limit of `2^32 - 1` lets
its `2^32` bins through. The advisor checks the range before anything else and then solves, with
the reserves of the active bin only when the snapshot's active bin is the pool's. Main statement:
`pairedAmount_checks`; `solve_visits_past_span` is the range whose bins outnumber its span.
-/

set_option autoImplicit false

namespace RangeAdvisor

/-! ### The bins of a range -/

namespace BinRange

variable (r : BinRange)

theorem length_bins : r.bins.length = (r.upper.toInt - r.lower.toInt + 1).toNat := by
  simp [bins]

/-- The bins run from the lower edge up, one at a time. -/
theorem toInt_getElem_bins {i : ℕ} (h : i < r.bins.length) :
    r.bins[i].toInt = r.lower.toInt + i := by
  have hi : (i : Int) < r.upper.toInt - r.lower.toInt + 1 := by
    rw [length_bins] at h
    omega
  have hlo := Saturating.lo_le_toInt r.lower
  have hhi := Saturating.toInt_le_hi r.upper
  simp only [Saturating.lo, Saturating.hi] at hlo hhi
  simp only [bins, List.getElem_map, List.getElem_range]
  exact Int32.toInt_ofInt_of_le (by omega) (by omega)

/-- An ordered range has its span of bins, but for the range of every 32-bit bin, whose span
stops one short of its `2^32` bins. -/
theorem length_bins_eq_span (h : r.lower ≤ r.upper) :
    r.bins.length = r.span.toNat ∨
      (r.lower = Int32.minValue ∧ r.upper = Int32.maxValue ∧ r.bins.length = r.span.toNat + 1) := by
  rw [length_bins, span_toNat_of_le r h, show countMax = 4294967295 from rfl]
  have hlo := Saturating.lo_le_toInt r.lower
  have hhi := Saturating.toInt_le_hi r.upper
  simp only [Saturating.lo, Saturating.hi] at hlo hhi
  by_cases hfull : r.upper.toInt - r.lower.toInt + 1 = 4294967296
  · -- only the lowest and highest bins are `2^32 - 1` apart
    right
    refine ⟨Int32.toInt_inj.mp ?_, Int32.toInt_inj.mp ?_, by omega⟩ <;>
      simp only [Int32.toInt_minValue, Int32.toInt_maxValue] <;> omega
  · left
    omega

theorem validate_of_inverted (limit : UInt32) (h : r.upper < r.lower) :
    r.validate limit = .error (.invertedRange r.lower r.upper) := by
  simp [validate, h]

theorem validate_of_tooWide {limit : UInt32} (h : r.lower ≤ r.upper) (hw : limit < r.span) :
    r.validate limit = .error (.rangeTooWide r.span limit) := by
  simp [validate, Int32.not_lt.mpr h, hw]

theorem validate_of_fits {limit : UInt32} (h : r.lower ≤ r.upper) (hw : r.span ≤ limit) :
    r.validate limit = .ok () := by
  simp [validate, Int32.not_lt.mpr h, UInt32.not_lt.mpr hw]

end BinRange

/-! ### Solving a request -/

/-- How solving answers a request, check by check in the order the checks are made: a zero bin
step, an inverted range, a range of more bins than the limit, and an amount of X that is not
finite or is below zero are refused, each once the checks before it pass; a request that passes
them all is solved from the capacities summed over the bins of its range. -/
structure DepositRequest.AnswersInOrder (q : DepositRequest) : Prop where
  zeroStep : q.step = 0 → q.solve = .error .zeroBinStep
  inverted : q.step ≠ 0 → q.range.upper < q.range.lower →
    q.solve = .error (.invertedRange q.range.lower q.range.upper)
  tooWide : q.step ≠ 0 → q.range.lower ≤ q.range.upper → q.maxBins < q.range.span →
    q.solve = .error (.rangeTooWide q.range.span q.maxBins)
  badAmount : q.step ≠ 0 → q.range.lower ≤ q.range.upper → q.range.span ≤ q.maxBins →
    ¬ (q.amountX.isFinite ∧ 0 ≤ q.amountX) → q.solve = .error (.badAmountX q.amountX)
  solved : q.step ≠ 0 → q.range.lower ≤ q.range.upper → q.range.span ≤ q.maxBins →
    q.amountX.isFinite → 0 ≤ q.amountX →
    ∃ d, q.solve = .ok d ∧ (d.capacityX, d.capacityY) = q.capacities q.range.bins

namespace DepositRequest

variable (q : DepositRequest)

theorem checkStep_of_ne {step : UInt16} (h : step ≠ 0) : Bins.checkStep step = .ok () := by
  simp [Bins.checkStep, h]

/-- The amount of X is refused exactly when it is not finite or is below zero; `-0` passes. -/
theorem refuses_amount_iff :
    (!q.amountX.isFinite || decide (q.amountX < 0)) = true ↔
      ¬ (q.amountX.isFinite ∧ 0 ≤ q.amountX) := by
  constructor
  · rintro h ⟨hfin, hnonneg⟩
    simp only [hfin, Bool.not_true, Bool.false_or, decide_eq_true_eq] at h
    exact Binary64.not_le_of_lt h hnonneg
  · intro h
    cases hfin : q.amountX.isFinite
    · rfl
    · have hlt : q.amountX < 0 := by
        by_contra hnot
        exact h ⟨hfin, Binary64.le_of_not_lt (Binary64.isNaN_eq_false_of_isFinite hfin)
          (by decide) hnot⟩
      simp [hlt]

theorem solve_answersInOrder : q.AnswersInOrder where
  zeroStep h := by
    simp only [solve, Bins.checkStep, h, beq_self_eq_true, if_true]
    rfl
  inverted hs hr := by
    simp only [solve, checkStep_of_ne hs, q.range.validate_of_inverted q.maxBins hr]
    rfl
  tooWide hs hr hw := by
    simp only [solve, checkStep_of_ne hs, q.range.validate_of_tooWide hr hw]
    rfl
  badAmount hs hr hw ha := by
    simp only [solve, checkStep_of_ne hs, q.range.validate_of_fits hr hw]
    rw [if_pos ((refuses_amount_iff q).mpr ha)]
    rfl
  solved hs hr hw hfin hnonneg := by
    have hpass : ¬ (!q.amountX.isFinite || decide (q.amountX < 0)) = true :=
      fun h => (refuses_amount_iff q).mp h ⟨hfin, hnonneg⟩
    simp only [solve, checkStep_of_ne hs, q.range.validate_of_fits hr hw]
    rw [if_neg hpass]
    split <;> exact ⟨_, rfl, rfl⟩

/-- A request passes every check: a bin step, an ordered range within the limit, and an amount of
X that is finite and not below zero. -/
def Passes : Prop :=
  q.step ≠ 0 ∧ q.range.lower ≤ q.range.upper ∧ q.range.span ≤ q.maxBins ∧ q.amountX.isFinite ∧
    0 ≤ q.amountX

/-- Solving errs exactly when a check fails. -/
theorem errs_iff : (∃ e, q.solve = .error e) ↔ ¬ q.Passes := by
  have h := q.solve_answersInOrder
  constructor
  · rintro ⟨e, he⟩ ⟨hs, hr, hw, hfin, hnonneg⟩
    obtain ⟨d, hd, -⟩ := h.solved hs hr hw hfin hnonneg
    rw [hd] at he
    cases he
  · intro hfail
    by_cases hs : q.step = 0
    · exact ⟨_, h.zeroStep hs⟩
    by_cases hr : q.range.upper < q.range.lower
    · exact ⟨_, h.inverted hs hr⟩
    have hr' := Int32.not_lt.mp hr
    by_cases hw : q.maxBins < q.range.span
    · exact ⟨_, h.tooWide hs hr' hw⟩
    have hw' := UInt32.not_lt.mp hw
    exact ⟨_, h.badAmount hs hr' hw' fun ha => hfail ⟨hs, hr', hw', ha⟩⟩

end DepositRequest

/-! ### The advisor -/

namespace Advisor

variable (a : Advisor) (pool : Pool) (range : BinRange) (amountX : Float) (reference : Option Float)

/-- The request the advisor solves for a paired deposit, with the reserves it pairs with. -/
def depositRequest (reserves : Option Reserves) : DepositRequest :=
  ⟨amountX, range, pool.activeBin, pool.binStep, pool.tokenX.decimals, pool.tokenY.decimals,
    reserves, a.settings.maxBins⟩

/-- A solved deposit with its cross check against the reference. -/
def pairWith (d : Deposit) : Pairing :=
  ⟨d, crossCheck d.amountY reference a.settings.crossCheckTolerance⟩

/-- The reserves the advisor pairs with: the snapshot's active bin, when it is the pool's. -/
def activeReserves : Option Reserves :=
  match a.source.activeBin with
  | .ok r => if r.binId == pool.activeBin then some r else none
  | .error _ => none

theorem pairedAmount_eq : a.pairedAmount pool range amountX reference =
    (range.validate a.settings.maxBins >>= fun _ =>
      (a.depositRequest pool range amountX (a.activeReserves pool)).solve >>= fun d =>
        pure (a.pairWith reference d)) :=
  rfl

/-- How the advisor answers a paired deposit: it errs exactly when solving its request would,
whatever the reserves; a range it refuses is refused first, before the bin step is looked at; and
when the snapshot has no active bin, or one that is not the pool's, it answers as with no
reserves. -/
structure PairsInOrder : Prop where
  errs_iff : ∀ reserves, (∃ e, a.pairedAmount pool range amountX reference = .error e) ↔
    ∃ e, (a.depositRequest pool range amountX reserves).solve = .error e
  rangeFirst : ∀ e, range.validate a.settings.maxBins = .error e →
    a.pairedAmount pool range amountX reference = .error e
  withoutReserves : (∃ e, a.source.activeBin = .error e) ∨
      (∃ r, a.source.activeBin = .ok r ∧ r.binId ≠ pool.activeBin) →
    a.pairedAmount pool range amountX reference =
      (range.validate a.settings.maxBins >>= fun _ =>
        (a.depositRequest pool range amountX none).solve >>= fun d => pure (a.pairWith reference d))

theorem activeReserves_eq_none
    (h : (∃ e, a.source.activeBin = .error e) ∨
      (∃ r, a.source.activeBin = .ok r ∧ r.binId ≠ pool.activeBin)) :
    a.activeReserves pool = none := by
  unfold activeReserves
  rcases h with ⟨e, he⟩ | ⟨r, hr, hne⟩
  · rw [he]
  · simp [hr, hne]

theorem pairsInOrder : a.PairsInOrder pool range amountX reference where
  errs_iff reserves := by
    -- whether a check fails does not depend on the reserves
    rw [DepositRequest.errs_iff,
      show (a.depositRequest pool range amountX reserves).Passes ↔
        (a.depositRequest pool range amountX (a.activeReserves pool)).Passes from Iff.rfl,
      ← DepositRequest.errs_iff, pairedAmount_eq]
    cases hv : range.validate a.settings.maxBins with
    | error e =>
      -- a range refused fails a check of the request too
      have hfail : ¬ (a.depositRequest pool range amountX (a.activeReserves pool)).Passes :=
        fun ⟨_, hr, hw, _⟩ => by
          have hok : range.validate a.settings.maxBins = .ok () := range.validate_of_fits hr hw
          rw [hok] at hv
          cases hv
      exact ⟨fun _ => (DepositRequest.errs_iff _).mpr hfail, fun _ => ⟨e, rfl⟩⟩
    | ok u =>
      constructor
      · rintro ⟨e, he⟩
        cases hs : (a.depositRequest pool range amountX (a.activeReserves pool)).solve with
        | error e' => exact ⟨e', rfl⟩
        | ok d =>
          rw [hs] at he
          cases he
      · rintro ⟨e, he⟩
        exact ⟨e, by rw [he]; rfl⟩
  rangeFirst e he := by
    rw [pairedAmount_eq, he]
    rfl
  withoutReserves h := by
    rw [pairedAmount_eq, activeReserves_eq_none a pool h]

end Advisor

/-! ### Paired deposits -/

/-- Every request is answered check by check: a zero bin step, an inverted range, a range wider
than the limit and a bad amount of X are refused in that order, and a request passing them is
solved over the bins of its range, from the lower edge up. An ordered range has as many bins as
its span, but for the range of every 32-bit bin, which has one more. The advisor errs exactly when
solving its request would, refuses a bad range first, and without the reserves of the pool's
active bin answers as with none. -/
theorem pairedAmount_checks (q : DepositRequest) (a : Advisor) (pool : Pool) (range : BinRange)
    (amountX : Float) (reference : Option Float) :
    q.AnswersInOrder ∧
      (q.range.lower ≤ q.range.upper →
        (∀ (i : ℕ) (h : i < q.range.bins.length), q.range.bins[i].toInt = q.range.lower.toInt + i) ∧
        (q.range.bins.length = q.range.span.toNat ∨
          (q.range.lower = Int32.minValue ∧ q.range.upper = Int32.maxValue ∧
            q.range.bins.length = q.range.span.toNat + 1))) ∧
      a.PairsInOrder pool range amountX reference :=
  ⟨q.solve_answersInOrder,
    fun h => ⟨fun _ hi => q.range.toInt_getElem_bins hi, q.range.length_bins_eq_span h⟩,
    a.pairsInOrder pool range amountX reference⟩

/-- A request over every 32-bit bin, under a limit of `2^32 - 1` bins. -/
def fullRangeRequest : DepositRequest :=
  ⟨1.0, ⟨Int32.minValue, Int32.maxValue⟩, Int32.maxValue, 20, 6, 6, none, 4294967295⟩

/-- The span of the range of every 32-bit bin stops at the limit of `2^32 - 1`, so the request
passes its checks, and is solved over all `2^32` bins: one more than its span. -/
theorem solve_visits_past_span :
    fullRangeRequest.range.span.toNat = 4294967295 ∧ fullRangeRequest.range.bins.length = 4294967296 ∧
      ∃ d, fullRangeRequest.solve = .ok d ∧
        (d.capacityX, d.capacityY) = fullRangeRequest.capacities fullRangeRequest.range.bins := by
  have hspan : fullRangeRequest.range.span.toNat = 4294967295 := by decide
  refine ⟨hspan, ?_, ?_⟩
  · rw [BinRange.length_bins]
    decide
  · refine fullRangeRequest.solve_answersInOrder.solved (by decide) (by decide) ?_ (by decide)
      (by decide)
    rw [UInt32.le_iff_toNat_le, hspan]
    decide

end RangeAdvisor
