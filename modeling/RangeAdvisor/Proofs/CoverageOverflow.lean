import RangeAdvisor.Advisor
import RangeAdvisor.Proofs.ContextNodes

/-!
# Distances that overflow 32-bit arithmetic

Bid-ask sizes each side by walking its coverage nodes, and measures the distance of every node it
takes as `|b - active|` in 32-bit arithmetic. That measure is the true distance exactly when the
distance is at most `2^31 - 1`; past that, the difference or its absolute value leaves the range
and the computation aborts. The nodes are recorded bins sampled within the sample radius of the
snapshot's active bin, so whether a walk can overflow depends on the radius the settings allow:
within `2^31 - 1` bins of the pool's active bin no recommendation overflows, but a radius of `2^31`
or more, which the settings parser accepts up to `2^32 - 1`, samples bins farther out, and a
bid-ask recommendation whose nearest bid node is one of them aborts. Main statement:
`Advisor.recommend_overflows`; `Advisor.recommend_overflows_far_bin` is a recorded bin at the lowest
32-bit bin sampled around bin 0.
-/

set_option autoImplicit false

namespace RangeAdvisor

/-! ### Measuring one distance -/

/-- Measuring a distance overflows exactly when the distance is past `2^31 - 1`. -/
theorem distanceOverflow_eq_none_iff {active b : Int32} :
    distanceOverflow active b = none ↔ (b.toInt - active.toInt).natAbs ≤ Saturating.hi := by
  rw [distanceOverflow]
  -- out of range, at `-2^31`, or within `2^31 - 1` of zero
  split_ifs <;> simp only [Saturating.lo, Saturating.hi, false_iff, true_iff, not_le] at * <;> omega

theorem distanceOverflow_ne_none {active b : Int32}
    (h : Saturating.hi < (b.toInt - active.toInt).natAbs) : distanceOverflow active b ≠ none :=
  fun h' => absurd (distanceOverflow_eq_none_iff.mp h') (not_le.mpr h)

theorem exists_distanceOverflow_eq_some {active b : Int32}
    (h : Saturating.hi < (b.toInt - active.toInt).natAbs) :
    ∃ o, distanceOverflow active b = some o :=
  Option.ne_none_iff_exists'.mp (distanceOverflow_ne_none h)

/-! ### Walks -/

section Walk

variable {active : Int32} {target : Float}

/-- A walk over nodes within `2^31 - 1` bins of the active bin never overflows, wherever it
stops. -/
theorem coverageWalkOverflow_eq_none {nodes : List CoverageNode}
    (h : ∀ n ∈ nodes, (n.binId.toInt - active.toInt).natAbs ≤ Saturating.hi)
    (covered : Float) :
    coverageWalkOverflow active target nodes covered = none := by
  induction nodes generalizing covered with
  | nil => rfl
  | cons n rest ih =>
    have hn := distanceOverflow_eq_none_iff.mpr (h n List.mem_cons_self)
    simp only [coverageWalkOverflow, hn]
    split
    · rfl
    · exact ih (fun m hm => h m (List.mem_cons_of_mem n hm)) _

/-- A walk measures its first node whatever the weights, so a first node too far away aborts it. -/
theorem coverageWalkOverflow_cons_of_far {n : CoverageNode} {rest : List CoverageNode}
    (h : Saturating.hi < (n.binId.toInt - active.toInt).natAbs) (covered : Float) :
    coverageWalkOverflow active target (n :: rest) covered = distanceOverflow active n.binId := by
  obtain ⟨o, ho⟩ := exists_distanceOverflow_eq_some h
  simp only [coverageWalkOverflow, ho]

end Walk

/-! ### Recommendations -/

section Recommend

variable {pool : Pool} {ctx : MarketContext} {oracle : Option Float} {maxBins : UInt32}

theorem Signals.active_ofContext :
    (Signals.ofContext pool ctx oracle maxBins).active = pool.activeBin :=
  rfl

/-- With every coverage node within `2^31 - 1` bins of the active bin, no recommendation
overflows. -/
theorem recommendOverflow_eq_none (strategy : Strategy)
    (h : ∀ n ∈ ctx.bidNodes ++ ctx.askNodes,
      (n.binId.toInt - pool.activeBin.toInt).natAbs ≤ Saturating.hi) :
    recommendOverflow strategy pool ctx oracle maxBins = none := by
  unfold recommendOverflow
  split_ifs
  · rfl
  cases strategy with
  | spot | curve => rfl
  | bidAsk =>
    simp only [Signals.active_ofContext,
      coverageWalkOverflow_eq_none (fun n hn => h n (List.mem_append_left _ hn)),
      coverageWalkOverflow_eq_none (fun n hn => h n (List.mem_append_right _ hn))]

/-- Bid-ask walks its bid side first, so a nearest bid node too far away aborts it there. -/
theorem recommendOverflow_bidAsk_of_far (hstep : 0 < pool.binStep) {n : CoverageNode}
    {rest : List CoverageNode} (hbid : ctx.bidNodes = n :: rest)
    (hfar : Saturating.hi < (n.binId.toInt - pool.activeBin.toInt).natAbs) :
    recommendOverflow .bidAsk pool ctx oracle maxBins =
      distanceOverflow pool.activeBin n.binId := by
  obtain ⟨o, ho⟩ := exists_distanceOverflow_eq_some hfar
  have hne : pool.binStep ≠ 0 := fun h => absurd (h ▸ hstep) (by decide)
  unfold recommendOverflow
  simp only [hne, if_false, Signals.active_ofContext, hbid, coverageWalkOverflow_cons_of_far hfar,
    ho]

end Recommend

/-! ### The nodes an advisor walks -/

theorem Snapshot.binsAround_eq_ok {s : Snapshot} {radius : UInt32} {bins : List BinSample}
    (h : s.binsAround radius = .ok bins) :
    bins = s.bins.filter fun b =>
      (b.binId.toInt - s.pool.activeBin.toInt).natAbs ≤ radius.toNat := by
  unfold Snapshot.binsAround at h
  split at h
  · cases h
  · cases h
    rfl

/-- Every coverage node of an advisor's context is a recorded bin within the sample radius of the
snapshot's active bin. -/
theorem Advisor.exists_sampled_of_mem_coverage (a : Advisor) (pool : Pool) {n : CoverageNode}
    (hn : n ∈ (a.marketContext pool).bidNodes ++ (a.marketContext pool).askNodes) :
    ∃ b ∈ a.source.bins, b.binId = n.binId ∧
      (b.binId.toInt - a.source.pool.activeBin.toInt).natAbs ≤ a.settings.sampleRadius.toNat := by
  unfold Advisor.marketContext at hn
  split at hn
  · simp [MarketContext.empty] at hn
  · next bins hbins =>
    obtain ⟨-, -, hids, -⟩ := MarketContext.build_coverage pool _
    obtain ⟨b, hb, hbn⟩ := List.mem_map.mp (hids.subset (List.mem_map_of_mem hn))
    have hsampled := (List.mem_filter.mp hb).1
    rw [Snapshot.binsAround_eq_ok hbins] at hsampled
    obtain ⟨hmem, hnear⟩ := List.mem_filter.mp hsampled
    exact ⟨b, hmem, hbn, by simpa using hnear⟩

/-- A recommendation measures its nodes in 32-bit arithmetic. When every sampled bin lies within
`2^31 - 1` bins of the pool's active bin, no recommendation overflows. When the nearest bid node
lies farther out, which a sample radius of `2^31` or more allows, a bid-ask recommendation for a
pool of positive bin step aborts on it. -/
theorem Advisor.recommend_overflows (a : Advisor) (pool : Pool) :
    ((∀ b ∈ a.source.bins,
        (b.binId.toInt - a.source.pool.activeBin.toInt).natAbs ≤ a.settings.sampleRadius.toNat →
        (b.binId.toInt - pool.activeBin.toInt).natAbs ≤ Saturating.hi) →
      ∀ strategy, a.recommendOverflow pool strategy = none) ∧
    (0 < pool.binStep → ∀ n rest, (a.marketContext pool).bidNodes = n :: rest →
      Saturating.hi < (n.binId.toInt - pool.activeBin.toInt).natAbs →
      a.recommendOverflow pool .bidAsk = distanceOverflow pool.activeBin n.binId ∧
        a.recommendOverflow pool .bidAsk ≠ none) := by
  constructor
  · intro hfit strategy
    refine recommendOverflow_eq_none strategy fun n hn => ?_
    obtain ⟨b, hb, hbn, hnear⟩ := a.exists_sampled_of_mem_coverage pool hn
    rw [← hbn]
    exact hfit b hb hnear
  · intro hstep n rest hbid hfar
    have h : a.recommendOverflow pool .bidAsk = distanceOverflow pool.activeBin n.binId :=
      recommendOverflow_bidAsk_of_far hstep hbid hfar
    refine ⟨h, ?_⟩
    rw [h]
    exact distanceOverflow_ne_none hfar

/-- A pool at bin 0, priced at one, with one bin recorded, holding one Y at the lowest 32-bit
bin. -/
def farSnapshot : Snapshot :=
  ⟨⟨"pool", ⟨"MX", "X", 6⟩, ⟨"MY", "Y", 6⟩, 20, 0, some 1.0, none, none, none⟩,
    [⟨Int32.minValue, 0.0, 0.0, 1.0⟩], [], [], none, none⟩

/-- Settings whose sample radius is set to the largest 32-bit count. -/
def widestRadius (name : String) : Option String :=
  if name = "SAMPLE_RADIUS" then some "4294967295" else none

/-- The settings parser takes a sample radius of `2^32 - 1`; around bin 0 it samples the bin at
`-2^31`, which holds one Y and so is the one bid node, and a bid-ask recommendation aborts on
negating its distance. -/
theorem Advisor.recommend_overflows_far_bin :
    (Settings.ofLookup widestRadius).sampleRadius = 4294967295 ∧
      (⟨farSnapshot, Settings.ofLookup widestRadius⟩ : Advisor).recommendOverflow
        farSnapshot.pool .bidAsk = some .negate := by
  refine ⟨by decide, ?_⟩
  -- the radius reaches the bin, and without quotes or series the context is built from it alone
  have hctx : (⟨farSnapshot, Settings.ofLookup widestRadius⟩ : Advisor).marketContext
      farSnapshot.pool =
        MarketContext.build farSnapshot.pool ⟨farSnapshot.bins, none, none, none, none⟩ := by
    have hbins : farSnapshot.binsAround (Settings.ofLookup widestRadius).sampleRadius =
        .ok farSnapshot.bins := by rfl
    have hquotes : farSnapshot.usdPrices [farSnapshot.pool.tokenX.mint,
        farSnapshot.pool.tokenY.mint] = [] := by
      simp [Snapshot.usdPrices, farSnapshot, Quotes.price?, Snapshot.dedupSorted]
    simp only [Advisor.marketContext, hbins, hquotes]
    rfl
  -- the bin's one Y weighs one, so it counts, and it lies below the active bin
  have hside : (MarketInputs.counted ⟨farSnapshot.bins, none, none, none, none⟩
      farSnapshot.pool).filter (fun b => b.binId ≤ farSnapshot.pool.activeBin) =
        farSnapshot.bins := by
    rfl
  obtain ⟨hbid, -⟩ := MarketContext.build_coverage farSnapshot.pool
    ⟨farSnapshot.bins, none, none, none, none⟩
  rw [hside] at hbid
  have hone := List.perm_singleton.mp hbid.perm
  show RangeAdvisor.recommendOverflow .bidAsk farSnapshot.pool _ _ _ = _
  rw [hctx, recommendOverflow_bidAsk_of_far (by decide) hone (by decide)]
  decide

end RangeAdvisor
