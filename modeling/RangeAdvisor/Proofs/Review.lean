import RangeAdvisor.Advisor

/-!
# What a position review reads

A review asks the snapshot for the quotes of the pool's two tokens and of SOL. The quotes come
back sorted by mint with each mint once, and each is still the snapshot's own quote of its mint
(`Snapshot.price?_usdPrices`). The review then values the position, re-anchored at the pool's
active bin, at those prices, with a missing quote filled through the pool price, and prices a
rebalance at the settings' SOL cost times the SOL quote or the fallback price. Main statement:
`Advisor.evaluatePosition_reviews`.
-/

set_option autoImplicit false

namespace RangeAdvisor

namespace Quotes

variable {q : Quotes} {m : String}

theorem price?_eq_none_iff : q.price? m = none ↔ ∀ e ∈ q, e.1 ≠ m := by
  simp [price?, List.find?_eq_none]

theorem mem_of_price?_eq_some {p : Float} (h : q.price? m = some p) : (m, p) ∈ q := by
  obtain ⟨e, he, rfl⟩ := Option.map_eq_some_iff.mp h
  have hkey : e.1 = m := by simpa using List.find?_some he
  rw [← hkey]
  exact List.mem_of_find?_eq_some he

end Quotes

namespace Snapshot

theorem dedupSorted_sublist (q : Quotes) : (dedupSorted q).Sublist q := by
  fun_induction dedupSorted q with
  | case1 a b rest hab ih => exact ih.trans ((List.sublist_cons_self b rest).cons_cons a)
  | case2 a b rest hab ih => exact ih.cons_cons a
  | case3 q => exact List.Sublist.refl q

theorem exists_mem_dedupSorted (q : Quotes) :
    ∀ e ∈ q, ∃ e' ∈ dedupSorted q, e'.1 = e.1 := by
  fun_induction dedupSorted q with
  | case1 a b rest hab ih =>
    -- `b` repeats the mint of `a`, which the rest still holds
    intro e he
    rcases List.mem_cons.mp he with rfl | he
    · exact ih e List.mem_cons_self
    rcases List.mem_cons.mp he with rfl | he
    · obtain ⟨e', he', hkey⟩ := ih a List.mem_cons_self
      exact ⟨e', he', hkey.trans (beq_iff_eq.mp hab)⟩
    · exact ih e (List.mem_cons_of_mem _ he)
  | case2 a b rest hab ih =>
    intro e he
    rcases List.mem_cons.mp he with rfl | he
    · exact ⟨e, List.mem_cons_self, rfl⟩
    · obtain ⟨e', he', hkey⟩ := ih e he
      exact ⟨e', List.mem_cons_of_mem _ he', hkey⟩
  | case3 q => exact fun e he => ⟨e, he, rfl⟩

/-- Gathered quotes give each asked mint the snapshot's own quote: sorting keeps every entry and
dropping repeated mints keeps one entry per mint, each the snapshot's quote of its mint. -/
theorem price?_usdPrices (s : Snapshot) {mints : List String} {m : String} (hm : m ∈ mints) :
    (s.usdPrices mints).price? m = s.quotes.price? m := by
  have hfound : ∀ e ∈ mints.filterMap (fun m => (s.quotes.price? m).map (m, ·)),
      s.quotes.price? e.1 = some e.2 := by
    intro e he
    obtain ⟨m', -, he'⟩ := List.mem_filterMap.mp he
    obtain ⟨p, hp, rfl⟩ := Option.map_eq_some_iff.mp he'
    exact hp
  have hperm := List.mergeSort_perm (mints.filterMap fun m => (s.quotes.price? m).map (m, ·))
    (fun a b => decide (a.1 ≤ b.1))
  unfold usdPrices
  cases h : (dedupSorted ((mints.filterMap fun m => (s.quotes.price? m).map (m, ·)).mergeSort
      fun a b => decide (a.1 ≤ b.1))).price? m with
  | some p =>
    have hmem := hperm.subset ((dedupSorted_sublist _).subset (Quotes.mem_of_price?_eq_some h))
    exact (hfound _ hmem).symm
  | none =>
    cases hq : s.quotes.price? m with
    | none => rfl
    | some p =>
      -- the mint has a quote, so an entry for it survives the sort and the dedup
      have hin : (m, p) ∈ mints.filterMap (fun m => (s.quotes.price? m).map (m, ·)) :=
        List.mem_filterMap.mpr ⟨m, hm, by rw [hq]; rfl⟩
      obtain ⟨e', he', hkey⟩ := exists_mem_dedupSorted _ _ (hperm.symm.subset hin)
      exact absurd hkey (Quotes.price?_eq_none_iff.mp h e' he')

end Snapshot

namespace Advisor

/-- The SOL price a review uses: the snapshot's quote when finite and above zero, else the
fallback of the settings. -/
theorem solPrice_usdPrices (a : Advisor) (pool : Pool) :
    (((a.source.usdPrices [pool.tokenX.mint, pool.tokenY.mint, solMint]).price? solMint).filter
        fun p => p.isFinite && decide (p > 0)).getD a.settings.fallbackSolUsd =
      match a.source.quotes.price? solMint with
      | some p => if p.isFinite = true ∧ (0 : Float) < p then p else a.settings.fallbackSolUsd
      | none => a.settings.fallbackSolUsd := by
  rw [a.source.price?_usdPrices (by simp)]
  cases a.source.quotes.price? solMint with
  | none => rfl
  | some p =>
    dsimp only
    by_cases hp : p.isFinite = true ∧ (0 : Float) < p
    · rw [if_pos hp, Option.filter_some, if_pos (by simp [hp.1, hp.2])]
      rfl
    · rw [if_neg hp, Option.filter_some, if_neg (by simpa using hp)]
      rfl

/-- A review of a position re-anchors it at the pool's active bin, values it with the snapshot's
own quotes of the two tokens and of SOL, and prices the rebalance at the settings' SOL cost. -/
theorem evaluatePosition_eq (a : Advisor) (pool : Pool) (position : Position)
    (timeInRange : Option Float) :
    a.evaluatePosition pool position timeInRange =
      let usd := MarketContext.resolveUsd (a.source.quotes.price? pool.tokenX.mint)
        (a.source.quotes.price? pool.tokenY.mint) pool.currentPrice
      let solUsd := match a.source.quotes.price? solMint with
        | some p => if p.isFinite = true ∧ (0 : Float) < p then p else a.settings.fallbackSolUsd
        | none => a.settings.fallbackSolUsd
      let analysis := Position.analyze { position with active := pool.activeBin } pool.apr
        ⟨usd.1, usd.2, timeInRange, a.settings.feeUplift, a.settings.rebalanceCostSol * solUsd⟩
      ⟨position.range, analysis, CostBenefit.ofAnalysis analysis,
        position.feeX * usd.1 + position.feeY * usd.2, solUsd⟩ := by
  dsimp only [evaluatePosition]
  rw [a.source.price?_usdPrices (m := pool.tokenX.mint) (by simp),
    a.source.price?_usdPrices (m := pool.tokenY.mint) (by simp), solPrice_usdPrices]
  rfl

/-- A review of a position: its analysis is that of the position re-anchored at the pool's active
bin, valued with the snapshot's own quotes of the two tokens (a missing one filled through the pool
price), with a rebalance costing the settings' SOL amount at the SOL quote, or at the fallback price
without a usable quote; its range is the position's own and its unclaimed fees are valued at the
same prices. The active bin the position recorded plays no part, and the record of a rebalance
carries the range, the reason code and the cost of the review. -/
theorem evaluatePosition_reviews (a : Advisor) (pool : Pool) (position : Position)
    (timeInRange : Option Float) :
    let usd := MarketContext.resolveUsd (a.source.quotes.price? pool.tokenX.mint)
      (a.source.quotes.price? pool.tokenY.mint) pool.currentPrice
    let solUsd := match a.source.quotes.price? solMint with
      | some p => if p.isFinite = true ∧ (0 : Float) < p then p else a.settings.fallbackSolUsd
      | none => a.settings.fallbackSolUsd
    let review := a.evaluatePosition pool position timeInRange
    review.analysis = Position.analyze { position with active := pool.activeBin } pool.apr
        ⟨usd.1, usd.2, timeInRange, a.settings.feeUplift, a.settings.rebalanceCostSol * solUsd⟩ ∧
      review.costBenefit = CostBenefit.ofAnalysis review.analysis ∧
      review.range = ⟨position.lower, position.upper⟩ ∧
      review.unclaimedUsd = position.feeX * usd.1 + position.feeY * usd.2 ∧
      review.solUsd = solUsd ∧
      (∀ b : Int32, a.evaluatePosition pool { position with active := b } timeInRange = review) ∧
      ∀ newRange : BinRange, (review.record newRange).oldRange = review.range ∧
        (review.record newRange).reasonCode = review.analysis.priority.reasonCode ∧
        (review.record newRange).costUsd = review.costBenefit.costUsd := by
  -- both reviews, the one of the re-anchored copy too, read the snapshot's own quotes
  simp only [evaluatePosition_eq]
  exact ⟨trivial, trivial, rfl, trivial, trivial, fun _ => rfl, fun _ => ⟨rfl, rfl, rfl⟩⟩

end Advisor

end RangeAdvisor
