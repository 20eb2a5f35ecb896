import RangeAdvisor.Market.Context
import Mathlib.Data.List.Nodup

/-!
# The order of sampled bins

A data source may return the bins near the active bin in any order. Building the market context
first reprices the bins and sorts them by id, and every later step (the weights, the five heaviest
nodes with their ties, the sums of each side, the nearest-first order, the spread of the bins)
reads only the sorted list. When no bin is sampled twice, two orders of the same bins sort to the
same list, so the context is the same value, every float of it bit for bit. Main statement:
`MarketContext.build_perm`.
-/

set_option autoImplicit false

namespace RangeAdvisor

namespace BinSample

/-- Sorting bins by id gives one list for every order of the same bins, when no id repeats. -/
theorem mergeSort_eq_of_perm {l₁ l₂ : List BinSample} (hp : l₁.Perm l₂)
    (hnodup : (l₂.map (·.binId)).Nodup) :
    l₁.mergeSort (fun a b => a.binId ≤ b.binId) =
      l₂.mergeSort (fun a b => a.binId ≤ b.binId) := by
  have htrans : ∀ a b c : BinSample, decide (a.binId ≤ b.binId) = true →
      decide (b.binId ≤ c.binId) = true → decide (a.binId ≤ c.binId) = true := by
    simp only [decide_eq_true_eq]
    exact fun _ _ _ => Int32.le_trans
  have htotal : ∀ a b : BinSample,
      (decide (a.binId ≤ b.binId) || decide (b.binId ≤ a.binId)) = true := by
    simp only [Bool.or_eq_true, decide_eq_true_eq]
    exact fun a b => Int32.le_total a.binId b.binId
  have hp₁ := List.mergeSort_perm l₁ (fun a b => a.binId ≤ b.binId)
  have hp₂ := List.mergeSort_perm l₂ (fun a b => a.binId ≤ b.binId)
  -- two bins of the sorted lists with the same id are the same bin of `l₂`
  refine List.Perm.eq_of_pairwise (fun a b ha hb hab hba => ?_)
    (List.pairwise_mergeSort htrans htotal l₁) (List.pairwise_mergeSort htrans htotal l₂)
    (hp₁.trans (hp.trans hp₂.symm))
  have ha₂ : a ∈ l₂ := (hp₁.trans hp).subset ha
  have hb₂ : b ∈ l₂ := hp₂.subset hb
  exact List.inj_on_of_nodup_map hnodup ha₂ hb₂
    (Int32.le_antisymm (of_decide_eq_true hab) (of_decide_eq_true hba))

end BinSample

/-- The context of a pool does not depend on the order in which its bins were sampled, so long
as no bin is sampled twice: the bins are first sorted by id, and every later step reads the sorted
list. -/
theorem MarketContext.build_perm {pool : Pool} {inputs : MarketInputs} {bins : List BinSample}
    (hperm : bins.Perm inputs.bins) (hnodup : (inputs.bins.map (·.binId)).Nodup) :
    MarketContext.build pool { inputs with bins := bins } = MarketContext.build pool inputs := by
  have hsorted := BinSample.mergeSort_eq_of_perm
    (hperm.map fun b => { b with price := pool.priceAt b.binId })
    (by rw [List.map_map]; exact hnodup)
  unfold MarketContext.build
  dsimp only
  rw [hsorted]

/-- The bins `1` and `2` of a pool, sampled in either order. -/
theorem MarketContext.build_perm_two_bins :
    ([⟨2, 0.0, 3.0, 0.0⟩, ⟨1, 0.0, 1.0, 2.0⟩] : List BinSample).Perm
        [⟨1, 0.0, 1.0, 2.0⟩, ⟨2, 0.0, 3.0, 0.0⟩] ∧
      (([⟨1, 0.0, 1.0, 2.0⟩, ⟨2, 0.0, 3.0, 0.0⟩] : List BinSample).map (·.binId)).Nodup ∧
      MarketContext.build
          ⟨"pool", ⟨"MX", "X", 6⟩, ⟨"MY", "Y", 6⟩, 20, 1, none, none, none, none⟩
          ⟨[⟨2, 0.0, 3.0, 0.0⟩, ⟨1, 0.0, 1.0, 2.0⟩], some 2.0, some 1.0, none, none⟩ =
        MarketContext.build
          ⟨"pool", ⟨"MX", "X", 6⟩, ⟨"MY", "Y", 6⟩, 20, 1, none, none, none, none⟩
          ⟨[⟨1, 0.0, 1.0, 2.0⟩, ⟨2, 0.0, 3.0, 0.0⟩], some 2.0, some 1.0, none, none⟩ := by
  have hperm : ([⟨2, 0.0, 3.0, 0.0⟩, ⟨1, 0.0, 1.0, 2.0⟩] : List BinSample).Perm
      [⟨1, 0.0, 1.0, 2.0⟩, ⟨2, 0.0, 3.0, 0.0⟩] := List.Perm.swap _ _ _
  have hnodup :
      (([⟨1, 0.0, 1.0, 2.0⟩, ⟨2, 0.0, 3.0, 0.0⟩] : List BinSample).map (·.binId)).Nodup := by
    decide
  exact ⟨hperm, hnodup, @MarketContext.build_perm
    ⟨"pool", ⟨"MX", "X", 6⟩, ⟨"MY", "Y", 6⟩, 20, 1, none, none, none, none⟩
    ⟨[⟨1, 0.0, 1.0, 2.0⟩, ⟨2, 0.0, 3.0, 0.0⟩], some 2.0, some 1.0, none, none⟩ _ hperm hnodup⟩

end RangeAdvisor
