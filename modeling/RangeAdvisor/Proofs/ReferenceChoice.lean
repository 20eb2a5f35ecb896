import RangeAdvisor.Bins.Deposit
import RangeAdvisor.Proofs.Float.Share

/-!
# Which amount the cross check settles on

A reference is usable when it is finite and not below zero. Against a usable reference the cross
check keeps the spread figure when that figure is at most zero, with a warning if the reference is
above zero; otherwise it compares their divergence with the tolerance, keeping the spread figure
with a warning past it and taking the reference in every other case. Both tests are written as a
comparison that must hold for the reference to be passed over, so a NaN in either comparison lets
the reference through: a spread figure that is NaN or `+∞` (whose divergence is NaN), or a NaN
tolerance. For a finite spread figure and a tolerance that is a number the tests read as they are
meant: the reference is taken exactly when the spread figure is above zero and the divergence is
within the tolerance. Main statement: `crossCheck_settles`; `crossCheck_takes_reference_over_nan`
is a NaN spread figure giving way to the reference.
-/

set_option autoImplicit false

namespace RangeAdvisor

open Binary64

/-- A reference fit to compare with: finite and not below zero. -/
def Usable (v : Float) : Prop := v.isFinite = true ∧ (0 : Float) ≤ v

/-- How a quote settles between the spread figure `b` and the reference `r` under the tolerance
`t`: the reference is taken exactly when it is usable and neither test passes it over, the amount
is the figure settled on, and a warning explains a usable reference passed over, either above zero
against a spread figure at most zero or past the tolerance. -/
structure Quote.Settles (b : Float) (r : Option Float) (t : Float) (q : Quote) : Prop where
  reference_iff : q.source = .reference ↔
    ∃ v, r = some v ∧ Usable v ∧ ¬ b ≤ 0 ∧ ¬ (v - b).abs / b > t
  amount_reference : q.source = .reference → r = some q.amountY
  amount_spread : q.source = .binSpread → q.amountY = b
  warning_iff : q.warning.isSome ↔
    ∃ v, r = some v ∧ Usable v ∧ ((b ≤ 0 ∧ 0 < v) ∨ (¬ b ≤ 0 ∧ (v - b).abs / b > t))

section CrossCheck

variable (b t : Float)

theorem usable_iff (v : Float) : (v.isFinite && decide (v ≥ 0)) = true ↔ Usable v := by
  simp [Usable]

/-- An absent or unusable reference leaves the spread figure, with nothing to report. -/
theorem crossCheck_unusable {r : Option Float} (h : ∀ v, r = some v → ¬ Usable v) :
    crossCheck b r t = ⟨b, .binSpread, b, none, none, none⟩ := by
  rcases r with _ | v
  · rfl
  · have hv : ¬ (v.isFinite && decide (v ≥ 0)) = true := fun hu => h v rfl ((usable_iff v).mp hu)
    simp only [crossCheck, Option.filter_some, hv]
    rfl

/-- A usable reference passes the filter. -/
theorem filter_usable {v : Float} (hv : Usable v) :
    (some v).filter (fun r => r.isFinite && decide (r ≥ 0)) = some v := by
  simp only [Option.filter_some, (usable_iff v).mpr hv, if_true]

theorem crossCheck_nonpos {v : Float} (hv : Usable v) (hb : b ≤ 0) :
    (crossCheck b (some v) t).source = .binSpread ∧ (crossCheck b (some v) t).amountY = b ∧
      ((crossCheck b (some v) t).warning.isSome ↔ 0 < v) := by
  by_cases hpos : v > 0 <;> simp [crossCheck, filter_usable hv, hb, hpos]

theorem crossCheck_diverges {v : Float} (hv : Usable v) (hb : ¬ b ≤ 0)
    (hd : (v - b).abs / b > t) :
    (crossCheck b (some v) t).source = .binSpread ∧ (crossCheck b (some v) t).amountY = b ∧
      (crossCheck b (some v) t).warning.isSome := by
  simp [crossCheck, filter_usable hv, hb, hd]

theorem crossCheck_within {v : Float} (hv : Usable v) (hb : ¬ b ≤ 0)
    (hd : ¬ (v - b).abs / b > t) :
    (crossCheck b (some v) t).source = .reference ∧ (crossCheck b (some v) t).amountY = v ∧
      (crossCheck b (some v) t).warning = none := by
  simp [crossCheck, filter_usable hv, hb, hd]

/-- Every quote settles between the spread figure and the reference as `Quote.Settles` says. -/
theorem settles_crossCheck (r : Option Float) : (crossCheck b r t).Settles b r t := by
  by_cases hr : ∃ v, r = some v ∧ Usable v
  · obtain ⟨v, rfl, hv⟩ := hr
    by_cases hb : b ≤ 0
    · obtain ⟨hsrc, hamt, hwarn⟩ := crossCheck_nonpos b t hv hb
      exact ⟨by simp [hsrc, hb], by simp [hsrc], fun _ => hamt, by simp [hwarn, hv, hb]⟩
    by_cases hd : (v - b).abs / b > t
    · obtain ⟨hsrc, hamt, hwarn⟩ := crossCheck_diverges b t hv hb hd
      exact ⟨by simp [hsrc, hd], by simp [hsrc], fun _ => hamt, by simp [hwarn, hv, hb, hd]⟩
    · obtain ⟨hsrc, hamt, hwarn⟩ := crossCheck_within b t hv hb hd
      exact ⟨by simp [hsrc, hv, hb, hd], fun _ => by rw [hamt], by simp [hsrc],
        by simp [hwarn, hb, hd]⟩
  · have hnone : ∀ v, r = some v → ¬ Usable v := fun v hrv hv => hr ⟨v, hrv, hv⟩
    rw [crossCheck_unusable b t hnone]
    have hnot : ∀ {P : Float → Prop}, ¬ ∃ v, r = some v ∧ Usable v ∧ P v :=
      fun ⟨v, hrv, hv, _⟩ => hnone v hrv hv
    refine ⟨⟨fun h => ?_, hnot.elim⟩, fun h => ?_, fun _ => rfl, ⟨fun h => ?_, hnot.elim⟩⟩ <;>
      cases h

end CrossCheck

/-! ### Figures that are numbers -/

section Numbers

variable {b t v : Float}

/-- The divergence of a usable reference from a finite spread figure above zero is a number. -/
theorem isNaN_divergence (hv : Usable v) (hbf : b.isFinite = true) (hb : (0 : Float) < b) :
    ((v - b).abs / b).isNaN = false :=
  isNaN_div (isNaN_abs (isNaN_sub (isNaN_eq_false_of_isFinite hv.1) hbf)) hb hbf

/-- For a finite spread figure and a tolerance that is a number, the two tests read as meant: the
spread figure is above zero and the divergence within the tolerance. -/
theorem passes_iff (hv : Usable v) (hbf : b.isFinite = true) (ht : t.isNaN = false) :
    (¬ b ≤ 0 ∧ ¬ (v - b).abs / b > t) ↔ (0 < b ∧ (v - b).abs / b ≤ t) := by
  have hbn := isNaN_eq_false_of_isFinite hbf
  constructor
  · rintro ⟨hb, hd⟩
    have hpos : (0 : Float) < b := by
      by_contra hlt
      exact hb (le_of_not_lt (by decide) hbn hlt)
    exact ⟨hpos, le_of_not_lt ht (isNaN_divergence hv hbf hpos) hd⟩
  · rintro ⟨hpos, hd⟩
    exact ⟨not_le_of_lt hpos, fun hgt => not_le_of_lt hgt hd⟩

end Numbers

/-- The cross check settles as `Quote.Settles` says for every spread figure, reference and
tolerance; for a finite spread figure and a tolerance that is a number, the reference is taken
exactly when it is usable, the spread figure is above zero and the divergence is within the
tolerance. -/
theorem crossCheck_settles (b : Float) (r : Option Float) (t : Float) :
    (crossCheck b r t).Settles b r t ∧
      (b.isFinite = true → t.isNaN = false →
        ((crossCheck b r t).source = .reference ↔
          ∃ v, r = some v ∧ Usable v ∧ 0 < b ∧ (v - b).abs / b ≤ t)) := by
  refine ⟨settles_crossCheck b t r, fun hbf ht => ?_⟩
  rw [(settles_crossCheck b t r).reference_iff]
  constructor
  · rintro ⟨v, hrv, hv, hpass⟩
    exact ⟨v, hrv, hv, (passes_iff hv hbf ht).mp hpass⟩
  · rintro ⟨v, hrv, hv, hpass⟩
    exact ⟨v, hrv, hv, (passes_iff hv hbf ht).mpr hpass⟩

/-- A NaN spread figure is neither above zero nor at most zero, yet the reference is taken over it. -/
theorem crossCheck_takes_reference_over_nan :
    (crossCheck (0.0 / 0.0) (some 1.0) 0.5).source = .reference ∧ ¬ ((0.0 / 0.0 : Float) > 0) ∧
      (crossCheck (0.0 / 0.0) (some 1.0) 0.5).amountY = 1.0 := by
  decide +kernel

end RangeAdvisor
