import RangeAdvisor.Proofs.Widening
import RangeAdvisor.Proofs.StableSort
import RangeAdvisor.Proofs.Float.Share

/-!
# The nodes of a market context

Building a context weighs each sampled bin by the USD value of its reserves, the quotes filled in
through the pool price, and keeps the bins of finite weight above zero. Every later step reads them
sorted by id, so they are the counted bins in ascending id order, bins of one id in sampled order
(`MarketInputs.weighed_eq`). The coverage nodes split them at the active bin: each side holds its
bins once, at the bin model's price with their share of the side's total, nearest the active bin
first and bins of one id in sampled order, so bid nodes run down from the active bin and ask nodes
up (`MarketContext.build_coverage`). The volume nodes are the five heaviest counted bins, heaviest
first and of equal weight lower id first, each with its share of their total, so the shares fall
along the list (`MarketContext.build_volumeNodes`).
-/

set_option autoImplicit false

namespace RangeAdvisor

open Binary64

namespace MarketInputs

variable (inputs : MarketInputs) (pool : Pool)

/-- The USD prices bins are weighed at: the quotes, a missing one filled through the pool price. -/
def usdPrices : Float × Float := MarketContext.resolveUsd inputs.xUsd inputs.yUsd pool.currentPrice

/-- The USD value of a sampled bin's reserves. -/
def usdWeight (b : BinSample) : Float :=
  b.x * (inputs.usdPrices pool).1 + b.y * (inputs.usdPrices pool).2

/-- A sampled bin counts toward the context when its USD weight is finite and above zero. -/
def counts (b : BinSample) : Bool :=
  (inputs.usdWeight pool b).isFinite && decide (inputs.usdWeight pool b > 0)

/-- The bins that count, in sampled order. -/
def counted : List BinSample := inputs.bins.filter (inputs.counts pool)

/-- A bin at its model price with its USD weight. -/
def weigh (b : BinSample) : WeightedBin := ⟨b.binId, pool.priceAt b.binId, inputs.usdWeight pool b⟩

/-- The bins a context weighs, as it weighs them: repriced by the pool, sorted by id, weighed in
USD, and kept when the weight is finite and above zero. -/
def weighed : List WeightedBin :=
  (((inputs.bins.map fun b => { b with price := pool.priceAt b.binId }).mergeSort
    fun a b => a.binId ≤ b.binId).map fun b =>
      (⟨b.binId, b.price, b.x * (inputs.usdPrices pool).1 + b.y * (inputs.usdPrices pool).2⟩ :
        WeightedBin)).filter
    fun w => w.weight.isFinite && decide (w.weight > 0)

/-- The total of a side: the USD weights of its bins added in ascending id order. -/
def sideTotal (side : List BinSample) : Float :=
  total ((side.mergeSort fun a b => a.binId ≤ b.binId).map (inputs.usdWeight pool))

/-- A bin as a coverage node: at its model price, with its share of `t`. -/
def coverageNode (t : Float) (b : BinSample) : CoverageNode :=
  ⟨b.binId, pool.priceAt b.binId, inputs.usdWeight pool b / t⟩

/-- The coverage nodes `nodes` of one side hold the bins `side` that count on it, given in
sampled order: each once, at its model price with its share of the side's total, nearest the
active bin first, and the bins of one id in sampled order. -/
structure CoverageSide (side : List BinSample) (nodes : List CoverageNode) : Prop where
  perm : nodes.Perm (side.map (inputs.coverageNode pool (inputs.sideTotal pool side)))
  nearestFirst : NearestFirst pool.activeBin nodes
  sampledOrder : ∀ id : Int32, nodes.filter (fun n => decide (n.binId = id)) =
    (side.filter fun b => decide (b.binId = id)).map
      (inputs.coverageNode pool (inputs.sideTotal pool side))
  weight_mem : ∀ n ∈ nodes, (0 : Float) ≤ n.weight ∧ n.weight ≤ 1

/-- Heavier bins first, by the total order of their USD weights; of equal weight, lower id
first. -/
def heavierFirst : BinSample → BinSample → Bool :=
  thenBy (fun a b => decide (totalKey (inputs.usdWeight pool b) ≤ totalKey (inputs.usdWeight pool a)))
    fun a b => decide (a.binId ≤ b.binId)

/-- The counted bins, heaviest first. -/
def byWeight : List BinSample := (inputs.counted pool).mergeSort (inputs.heavierFirst pool)

/-- `sorted` lists the bins `bins` heaviest first: the same bins, by USD weight from the heaviest,
bins of equal weight lower id first, and the bins of one id and weight in the order of `bins`. -/
structure HeaviestFirst (bins sorted : List BinSample) : Prop where
  perm : sorted.Perm bins
  descending : sorted.Pairwise fun b c => inputs.usdWeight pool c ≤ inputs.usdWeight pool b ∧
    (inputs.usdWeight pool b = inputs.usdWeight pool c → b.binId ≤ c.binId)
  sampledOrder : ∀ b : BinSample,
    sorted.filter (fun c => decide (c.binId = b.binId ∧
      totalKey (inputs.usdWeight pool c) = totalKey (inputs.usdWeight pool b))) =
    bins.filter fun c => decide (c.binId = b.binId ∧
      totalKey (inputs.usdWeight pool c) = totalKey (inputs.usdWeight pool b))

/-- A bin as a volume node: at its model price, with its share of `t`. -/
def volumeNode (t : Float) (b : BinSample) : VolumeNode :=
  ⟨pool.priceAt b.binId, inputs.usdWeight pool b / t⟩

end MarketInputs

namespace MarketContext

variable (pool : Pool) (inputs : MarketInputs)

theorem build_bidNodes : (build pool inputs).bidNodes =
    sideNodes ((inputs.weighed pool).filter fun w => w.binId ≤ pool.activeBin) pool.activeBin :=
  rfl

theorem build_askNodes : (build pool inputs).askNodes =
    sideNodes ((inputs.weighed pool).filter fun w => !(w.binId ≤ pool.activeBin)) pool.activeBin :=
  rfl

theorem build_volumeNodes_eq : (build pool inputs).volumeNodes = volumeNodesOf (inputs.weighed pool) :=
  rfl

end MarketContext

/-! ### Sorting by id, distance and weight -/

section Orders

theorem byId_totalPreorder : TotalPreorder fun a b : BinSample => decide (a.binId ≤ b.binId) :=
  TotalPreorder.onKey (fun b : BinSample => b.binId) (fun _ _ _ => Int32.le_trans) Int32.le_total

theorem byDistance_totalPreorder (active : Int32) :
    TotalPreorder fun a b : CoverageNode =>
      decide (MarketContext.distance active a.binId ≤ MarketContext.distance active b.binId) :=
  TotalPreorder.onKey (β := ℕ) (fun n : CoverageNode => MarketContext.distance active n.binId)
    (fun _ _ _ => Nat.le_trans) Nat.le_total

theorem heavier_totalPreorder (inputs : MarketInputs) (pool : Pool) :
    TotalPreorder fun a b : BinSample =>
      decide (totalKey (inputs.usdWeight pool b) ≤ totalKey (inputs.usdWeight pool a)) :=
  TotalPreorder.onKeyDesc (fun b => totalKey (inputs.usdWeight pool b)) (fun _ _ _ => Int.le_trans)
    Int.le_total

theorem heavierFirst_totalPreorder (inputs : MarketInputs) (pool : Pool) :
    TotalPreorder (inputs.heavierFirst pool) :=
  (heavier_totalPreorder inputs pool).thenBy byId_totalPreorder

end Orders

namespace MarketInputs

variable {inputs : MarketInputs} {pool : Pool}

theorem counts_iff {b : BinSample} :
    inputs.counts pool b ↔ (inputs.usdWeight pool b).isFinite ∧ (0 : Float) < inputs.usdWeight pool b := by
  simp [counts]

variable (inputs pool)

/-- The weighed bins are the bins that count, in ascending id order, each at its model price and
USD weight. -/
theorem weighed_eq : inputs.weighed pool =
    ((inputs.counted pool).mergeSort fun a b => a.binId ≤ b.binId).map (inputs.weigh pool) := by
  -- repricing keeps the ids, so it commutes with the sort
  have hsort : (inputs.bins.map fun b => { b with price := pool.priceAt b.binId }).mergeSort
      (fun a b => a.binId ≤ b.binId) =
      (inputs.bins.mergeSort fun a b => a.binId ≤ b.binId).map
        fun b => { b with price := pool.priceAt b.binId } :=
    (List.map_mergeSort (l := inputs.bins) (f := fun b => { b with price := pool.priceAt b.binId })
      (r := fun a b => a.binId ≤ b.binId) (s := fun a b => a.binId ≤ b.binId)
      fun _ _ _ _ => rfl).symm
  rw [weighed, hsort, List.map_map, List.filter_map, counted,
    ← mergeSort_filter byId_totalPreorder]
  rfl

@[simp]
theorem weigh_weight (b : BinSample) : (inputs.weigh pool b).weight = inputs.usdWeight pool b := rfl

theorem weight_comp_weigh : (·.weight) ∘ inputs.weigh pool = inputs.usdWeight pool := rfl

/-- The weighed bins whose id passes `q`, in order. -/
theorem weighed_filter (q : Int32 → Bool) :
    (inputs.weighed pool).filter (fun w => q w.binId) =
      (((inputs.counted pool).filter fun b => q b.binId).mergeSort fun a b => a.binId ≤ b.binId).map
        (inputs.weigh pool) := by
  rw [weighed_eq, List.filter_map, ← mergeSort_filter byId_totalPreorder]
  rfl

/-! ### Coverage nodes -/

variable {inputs pool}

/-- A bin of a list of counted bins weighs at most the list's total, and the total is above
zero. -/
theorem usdWeight_le_total {l : List BinSample} (hl : ∀ b ∈ l, inputs.counts pool b)
    {b : BinSample} (hb : b ∈ l) :
    inputs.usdWeight pool b ≤ total (l.map (inputs.usdWeight pool)) ∧
      (0 : Float) < total (l.map (inputs.usdWeight pool)) := by
  have hpos : ∀ w ∈ l.map (inputs.usdWeight pool), (0 : Float) < w := fun w hw => by
    obtain ⟨c, hc, rfl⟩ := List.mem_map.mp hw
    exact (counts_iff.mp (hl c hc)).2
  have hmem : inputs.usdWeight pool b ∈ l.map (inputs.usdWeight pool) := List.mem_map_of_mem hb
  exact ⟨le_total_of_mem (fun w hw => le_of_lt (hpos w hw)) hmem,
    total_pos hpos (List.ne_nil_of_mem hmem)⟩

/-- A list of counted bins that is not empty totals above zero. -/
theorem total_pos_of_counts {l : List BinSample} (hl : ∀ b ∈ l, inputs.counts pool b)
    (hne : l ≠ []) : (0 : Float) < total (l.map (inputs.usdWeight pool)) := by
  obtain ⟨b, hb⟩ := List.exists_mem_of_ne_nil l hne
  exact (usdWeight_le_total hl hb).2

/-- A bin's share of the total of a list of counted bins it is in is at least zero and at most
one. -/
theorem share_mem {l : List BinSample} (hl : ∀ b ∈ l, inputs.counts pool b) {b : BinSample}
    (hb : b ∈ l) :
    (0 : Float) ≤ inputs.usdWeight pool b / total (l.map (inputs.usdWeight pool)) ∧
      inputs.usdWeight pool b / total (l.map (inputs.usdWeight pool)) ≤ 1 := by
  obtain ⟨hfin, hpos⟩ := counts_iff.mp (hl b hb)
  obtain ⟨hle, htotal⟩ := usdWeight_le_total hl hb
  exact ⟨zero_le_div (le_of_lt hpos) hfin htotal, div_le_one_of_le hfin htotal hle⟩

/-- A side of counted bins, sorted by id and weighed, becomes its bins as coverage nodes, sorted
nearest first. -/
theorem sideNodes_eq (side : List BinSample) (hside : ∀ b ∈ side, inputs.counts pool b) :
    MarketContext.sideNodes ((side.mergeSort fun a b => a.binId ≤ b.binId).map (inputs.weigh pool))
        pool.activeBin =
      ((side.mergeSort fun a b => a.binId ≤ b.binId).map
        (inputs.coverageNode pool (inputs.sideTotal pool side))).mergeSort fun m n =>
          MarketContext.distance pool.activeBin m.binId ≤ MarketContext.distance pool.activeBin n.binId := by
  have htotal : total (((side.mergeSort fun a b => a.binId ≤ b.binId).map (inputs.weigh pool)).map
      (·.weight)) = inputs.sideTotal pool side := by
    rw [List.map_map, weight_comp_weigh, sideTotal]
  unfold MarketContext.sideNodes
  dsimp only
  rw [htotal, List.map_map]
  -- an empty side has no nodes; otherwise its total is above zero
  by_cases hne : (side.mergeSort fun a b => a.binId ≤ b.binId) = []
  · simp [hne]
  · have hpos : (0 : Float) < inputs.sideTotal pool side :=
      total_pos_of_counts (fun c hc => hside c (List.mem_mergeSort.mp hc)) hne
    rw [if_neg (not_le_of_lt hpos)]
    rfl

/-- The coverage nodes built from a side of counted bins hold that side. -/
theorem coverageSide_sideNodes (side : List BinSample) (hside : ∀ b ∈ side, inputs.counts pool b) :
    inputs.CoverageSide pool side
      (MarketContext.sideNodes ((side.mergeSort fun a b => a.binId ≤ b.binId).map (inputs.weigh pool))
        pool.activeBin) := by
  rw [sideNodes_eq side hside]
  have hdist := byDistance_totalPreorder pool.activeBin
  refine ⟨?_, ?_, fun id => ?_, fun n hn => ?_⟩
  · exact (List.mergeSort_perm _ _).trans ((List.mergeSort_perm side _).map _)
  · exact (List.pairwise_mergeSort hdist.trans hdist.total _).imp fun h => of_decide_eq_true h
  · -- nodes of one id are at one distance, and bins of one id are tied by id
    rw [filter_mergeSort_of_tied hdist _ ⟨id, 0, 0⟩ fun x hx => by simp_all [Tied],
      List.filter_map]
    rw [show ((fun n : CoverageNode => decide (n.binId = id)) ∘
        inputs.coverageNode pool (inputs.sideTotal pool side)) = fun b => decide (b.binId = id) from rfl,
      filter_mergeSort_of_tied byId_totalPreorder side ⟨id, 0, 0, 0⟩ fun x hx => by
        simp_all [Tied]]
  · obtain ⟨b, hb, rfl⟩ := List.mem_map.mp (List.mem_mergeSort.mp hn)
    exact share_mem (fun c hc => hside c (List.mem_mergeSort.mp hc)) hb

/-- The coverage nodes built from the weighed bins whose id passes `q` hold the counted bins whose
id passes `q`. -/
theorem coverageSide_filter (q : Int32 → Bool) :
    inputs.CoverageSide pool ((inputs.counted pool).filter fun b => q b.binId)
      (MarketContext.sideNodes ((inputs.weighed pool).filter fun w => q w.binId) pool.activeBin) := by
  rw [weighed_filter]
  exact coverageSide_sideNodes _ fun b hb => (List.mem_filter.mp (List.mem_filter.mp hb).1).2

/-- Every coverage node of a side is a bin of that side. -/
theorem CoverageSide.exists_of_mem {side : List BinSample} {nodes : List CoverageNode}
    (h : inputs.CoverageSide pool side nodes) {n : CoverageNode} (hn : n ∈ nodes) :
    ∃ b ∈ side, n.binId = b.binId := by
  obtain ⟨b, hb, rfl⟩ := List.mem_map.mp (h.perm.subset hn)
  exact ⟨b, hb, rfl⟩

/-- The coverage nodes of the bins whose id passes `p` all have ids that pass `p`. -/
theorem CoverageSide.forall_mem {l : List BinSample} {p : Int32 → Prop} [DecidablePred p]
    {nodes : List CoverageNode} (h : inputs.CoverageSide pool (l.filter fun b => p b.binId) nodes) :
    ∀ n ∈ nodes, p n.binId := by
  intro n hn
  obtain ⟨b, hb, hid⟩ := h.exists_of_mem hn
  simpa [hid] using (List.mem_filter.mp hb).2

/-! ### Volume nodes -/

theorem counts_of_mem_byWeight {b : BinSample} (hb : b ∈ inputs.byWeight pool) :
    inputs.counts pool b :=
  (List.mem_filter.mp (List.mem_mergeSort.mp hb)).2

theorem counts_of_mem_take {k : ℕ} {b : BinSample} (hb : b ∈ (inputs.byWeight pool).take k) :
    inputs.counts pool b :=
  counts_of_mem_byWeight (List.mem_of_mem_take hb)

variable (inputs pool)

/-- The counted bins, sorted heaviest first, are listed heaviest first. -/
theorem heaviestFirst_byWeight : inputs.HeaviestFirst pool (inputs.counted pool) (inputs.byWeight pool) := by
  have h := heavierFirst_totalPreorder inputs pool
  refine ⟨List.mergeSort_perm _ _, ?_, fun b => ?_⟩
  · refine (List.pairwise_mergeSort h.trans h.total _).imp_of_mem fun hb hc hbc => ?_
    have hbpos := (counts_iff.mp (counts_of_mem_byWeight hb)).2
    have hcpos := (counts_iff.mp (counts_of_mem_byWeight hc)).2
    simp only [heavierFirst, thenBy, Bool.and_eq_true, Bool.or_eq_true, Bool.not_eq_true',
      decide_eq_true_eq, decide_eq_false_iff_not] at hbc
    obtain ⟨hkey, htie⟩ := hbc
    refine ⟨le_of_totalKey_le hcpos hbpos hkey, fun heq => ?_⟩
    -- of equal weight, the weight comparison ties and the ids decide
    rcases htie with hlt | hid
    · exact absurd (heq ▸ le_refl _) hlt
    · exact hid
  · refine filter_mergeSort_of_tied h _ b fun c hc => ?_
    simp only [decide_eq_true_eq] at hc
    simp [Tied, heavierFirst, thenBy, hc.1, hc.2]

/-- Sorting the weighed bins heaviest first sorts the counted bins heaviest first. -/
theorem weighed_mergeSort : (inputs.weighed pool).mergeSort
    (fun a b => totalKey b.weight ≤ totalKey a.weight) = (inputs.byWeight pool).map (inputs.weigh pool) := by
  rw [weighed_eq, ← List.map_mergeSort (l := (inputs.counted pool).mergeSort fun a b => a.binId ≤ b.binId)
    (f := inputs.weigh pool)
    (r := fun a b => decide (totalKey (inputs.usdWeight pool b) ≤ totalKey (inputs.usdWeight pool a)))
    (s := fun a b => decide (totalKey b.weight ≤ totalKey a.weight))
      -- the two comparisons then differ only in the instance they decide by
      fun a _ b _ => by simp only [weigh_weight]; rfl,
    mergeSort_mergeSort (heavier_totalPreorder inputs pool) byId_totalPreorder]
  rfl

/-- The volume nodes are the first five bins heaviest first, each with its share of their
total. -/
theorem volumeNodes_eq : (MarketContext.build pool inputs).volumeNodes =
    ((inputs.byWeight pool).take 5).map
      (inputs.volumeNode pool (total (((inputs.byWeight pool).take 5).map (inputs.usdWeight pool)))) := by
  rw [MarketContext.build_volumeNodes_eq]
  unfold MarketContext.volumeNodesOf
  dsimp only
  rw [weighed_mergeSort, ← List.map_take, List.map_map, List.map_map, weight_comp_weigh]
  by_cases hnil : (inputs.byWeight pool).take 5 = []
  · simp [hnil]
  · have hpos : (0 : Float) < total (((inputs.byWeight pool).take 5).map (inputs.usdWeight pool)) :=
      total_pos_of_counts (fun _ => counts_of_mem_take) hnil
    rw [if_neg (not_le_of_lt hpos)]
    rfl

variable {inputs pool}

/-- A list heaviest first weighs each bin before a cut at least as much as each bin after it. -/
theorem HeaviestFirst.usdWeight_le {bins sorted : List BinSample}
    (h : inputs.HeaviestFirst pool bins sorted) (k : ℕ) {b c : BinSample} (hb : b ∈ sorted.take k)
    (hc : c ∈ sorted.drop k) : inputs.usdWeight pool c ≤ inputs.usdWeight pool b := by
  have hcut := h.descending
  rw [← List.take_append_drop k sorted, List.pairwise_append] at hcut
  exact (hcut.2.2 b hb c hc).1

/-- Shares of one total of counted bins heaviest first fall along the list. -/
theorem pairwise_share {l : List BinSample} (hl : ∀ b ∈ l, inputs.counts pool b)
    (hsorted : l.Pairwise fun b c => inputs.usdWeight pool c ≤ inputs.usdWeight pool b) (t : Float)
    (ht : (0 : Float) < t) :
    (l.map (inputs.volumeNode pool t)).Pairwise fun u v => v.weight ≤ u.weight := by
  rw [List.pairwise_map]
  exact hsorted.imp_of_mem fun hb hc hle =>
    div_le_div_right (counts_iff.mp (hl _ hc)).1 (counts_iff.mp (hl _ hb)).1 ht hle

end MarketInputs

/-! ### Sides of the active bin -/

section Sides

variable {active m n : Int32}

/-- Of two bins at or below the active bin, the nearer has the higher id. -/
theorem le_of_distance_le_of_le (hm : m ≤ active) (hn : n ≤ active)
    (h : MarketContext.distance active m ≤ MarketContext.distance active n) : n ≤ m := by
  rw [Int32.le_iff_toInt_le] at *
  unfold MarketContext.distance at h
  omega

/-- Of two bins above the active bin, the nearer has the lower id. -/
theorem le_of_distance_le_of_lt (hm : active < m) (hn : active < n)
    (h : MarketContext.distance active m ≤ MarketContext.distance active n) : m ≤ n := by
  rw [Int32.lt_iff_toInt_lt] at hm hn
  rw [Int32.le_iff_toInt_le]
  unfold MarketContext.distance at h
  omega

/-- Nodes nearest first, all on one side of the active bin, are in id order: descending below,
ascending above. -/
theorem pairwise_of_nearestFirst {nodes : List CoverageNode} (hs : NearestFirst active nodes)
    {r : Int32 → Int32 → Prop} (side : Int32 → Prop) (hside : ∀ n ∈ nodes, side n.binId)
    (hr : ∀ {m n}, side m → side n →
      MarketContext.distance active m ≤ MarketContext.distance active n → r m n) :
    nodes.Pairwise fun m n => r m.binId n.binId :=
  List.Pairwise.imp_of_mem (fun hm hn h => hr (hside _ hm) (hside _ hn) h) hs

end Sides

namespace MarketContext

variable (pool : Pool) (inputs : MarketInputs)

/-- The coverage nodes of a context split the counted bins at the active bin: the bid side holds
those at or below it and the ask side those above it, each bin once at its model price with its
share of its side's total, nearest the active bin first and bins of one id in sampled order. Bid
nodes therefore run down from the active bin and ask nodes up. -/
theorem build_coverage :
    inputs.CoverageSide pool ((inputs.counted pool).filter fun b => b.binId ≤ pool.activeBin)
        (build pool inputs).bidNodes ∧
      inputs.CoverageSide pool ((inputs.counted pool).filter fun b => pool.activeBin < b.binId)
        (build pool inputs).askNodes ∧
      (((build pool inputs).bidNodes ++ (build pool inputs).askNodes).map (·.binId)).Perm
        ((inputs.counted pool).map (·.binId)) ∧
      (∀ n ∈ (build pool inputs).bidNodes, n.binId ≤ pool.activeBin) ∧
      (∀ n ∈ (build pool inputs).askNodes, pool.activeBin < n.binId) ∧
      (build pool inputs).bidNodes.Pairwise (fun m n => n.binId ≤ m.binId) ∧
      (build pool inputs).askNodes.Pairwise (fun m n => m.binId ≤ n.binId) := by
  -- the ask side's test, the negation of the bid side's, reads as `active < id`
  have hask : ((inputs.counted pool).filter fun b => !decide (b.binId ≤ pool.activeBin)) =
      (inputs.counted pool).filter fun b => pool.activeBin < b.binId :=
    List.filter_congr fun b _ => by simp only [← Int32.not_le, decide_not]
  have hbidSide := @MarketInputs.coverageSide_filter inputs pool
    fun id => decide (id ≤ pool.activeBin)
  have haskSide := @MarketInputs.coverageSide_filter inputs pool
    fun id => !decide (id ≤ pool.activeBin)
  rw [← build_bidNodes] at hbidSide
  rw [← build_askNodes, hask] at haskSide
  have hbid : ∀ n ∈ (build pool inputs).bidNodes, n.binId ≤ pool.activeBin :=
    hbidSide.forall_mem (p := (· ≤ pool.activeBin))
  have hask' : ∀ n ∈ (build pool inputs).askNodes, pool.activeBin < n.binId :=
    haskSide.forall_mem (p := (pool.activeBin < ·))
  -- the two sides hold the ids of the counted bins between them
  have hids : (((build pool inputs).bidNodes ++ (build pool inputs).askNodes).map (·.binId)).Perm
      ((inputs.counted pool).map (·.binId)) := by
    rw [List.map_append]
    refine ((hbidSide.perm.map _).append (haskSide.perm.map _)).trans ?_
    have hid : ∀ t, ((·.binId) ∘ inputs.coverageNode pool t) = (·.binId) := fun _ => rfl
    rw [List.map_map, List.map_map, hid, hid, ← hask, ← List.map_append]
    exact (List.filter_append_perm _ _).map _
  exact ⟨hbidSide, haskSide, hids, hbid, hask',
    pairwise_of_nearestFirst hbidSide.nearestFirst _ hbid le_of_distance_le_of_le,
    pairwise_of_nearestFirst haskSide.nearestFirst _ hask' le_of_distance_le_of_lt⟩

/-- The volume nodes of a context are the five heaviest counted bins, or all of them when fewer:
the counted bins listed heaviest first, bins of equal weight lower id first, are cut after the
fifth, every bin cut weighing no more than every bin kept, and each kept bin becomes a node at its
model price with its share of the kept bins' total, so the shares lie in `[0, 1]` and fall along
the list. -/
theorem build_volumeNodes :
    inputs.HeaviestFirst pool (inputs.counted pool) (inputs.byWeight pool) ∧
      (build pool inputs).volumeNodes = ((inputs.byWeight pool).take 5).map
        (inputs.volumeNode pool (total (((inputs.byWeight pool).take 5).map (inputs.usdWeight pool)))) ∧
      (build pool inputs).volumeNodes.length = min 5 (inputs.counted pool).length ∧
      (∀ b ∈ (inputs.byWeight pool).take 5, ∀ c ∈ (inputs.byWeight pool).drop 5,
        inputs.usdWeight pool c ≤ inputs.usdWeight pool b) ∧
      (∀ v ∈ (build pool inputs).volumeNodes, (0 : Float) ≤ v.weight ∧ v.weight ≤ 1) ∧
      (build pool inputs).volumeNodes.Pairwise fun u v => v.weight ≤ u.weight := by
  have hsorted := MarketInputs.heaviestFirst_byWeight inputs pool
  have hnodes := MarketInputs.volumeNodes_eq inputs pool
  have hcounts : ∀ b ∈ (inputs.byWeight pool).take 5, inputs.counts pool b :=
    fun _ => MarketInputs.counts_of_mem_take
  refine ⟨hsorted, hnodes, ?_, fun b hb c hc => hsorted.usdWeight_le 5 hb hc, ?_, ?_⟩
  · rw [hnodes, List.length_map, List.length_take, hsorted.perm.length_eq]
  · rw [hnodes]
    intro v hv
    obtain ⟨b, hb, rfl⟩ := List.mem_map.mp hv
    exact MarketInputs.share_mem hcounts hb
  · rw [hnodes]
    -- an empty cut has no pairs; otherwise its total is above zero
    by_cases hnil : (inputs.byWeight pool).take 5 = []
    · simp [hnil]
    · exact MarketInputs.pairwise_share hcounts
        ((hsorted.descending.sublist (List.take_sublist _ _)).imp fun h => h.1) _
        (MarketInputs.total_pos_of_counts hcounts hnil)

end MarketContext

end RangeAdvisor
