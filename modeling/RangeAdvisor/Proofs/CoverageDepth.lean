import RangeAdvisor.Proofs.Widening
import RangeAdvisor.Proofs.Float.Value

/-!
# How far a side reaches

A side of a bid-ask range walks its coverage nodes nearest first, adding their weights until the
target is reached. With weights of at least zero the running weight never falls, so the walk
stops at the depth of the target: the least node distance whose nodes within it weigh at least the
target, or the distance of the last node when no distance does (`CoverageNode.Depth`). The side is
that depth within the bounds, it covers the running weight where the walk stopped, at most one,
and a higher target never narrows it. Main statement: `coverageSpan_reaches`.
-/

set_option autoImplicit false

namespace RangeAdvisor

namespace CoverageNode

/-- The weights of the nodes within `d` bins of the active bin, added in list order to `c`. -/
def coveredWithin (active : Int32) (c : Float) (nodes : List CoverageNode) (d : ℕ) : Float :=
  ((nodes.filter fun n => n.distance active ≤ d).map (·.weight)).foldl (· + ·) c

/-- The node distances whose nodes within them, added to `c`, reach `t`. -/
def reaching (active : Int32) (t c : Float) (nodes : List CoverageNode) : Set ℕ :=
  {d | ∃ n ∈ nodes, n.distance active = d ∧ t ≤ coveredWithin active c nodes d}

/-- `D` is how far nodes must be taken to cover `t` from `c`: the least node distance that
reaches it, or the distance of the last node when none does. -/
def Depth (active : Int32) (t c : Float) (nodes : List CoverageNode) (D : ℕ) : Prop :=
  IsLeast (reaching active t c nodes) D ∨
    reaching active t c nodes = ∅ ∧ ∃ n, nodes.getLast? = some n ∧ D = n.distance active

/-- The running weights: after each node, the weights so far added in list order to `c`. -/
def running (c : Float) (nodes : List CoverageNode) : List Float :=
  ((nodes.map (·.weight)).scanl (· + ·) c).tail

/-- The running weight at the first node where it reaches `t`, or the weight of all nodes. -/
def coveredAt (t c : Float) (nodes : List CoverageNode) : Float :=
  ((running c nodes).find? fun s => decide (t ≤ s)).getD ((nodes.map (·.weight)).foldl (· + ·) c)

section Covered

variable {active : Int32} {t c : Float} {d : ℕ} {n : CoverageNode} {rest nodes : List CoverageNode}

@[simp] theorem coveredWithin_nil : coveredWithin active c [] d = c := rfl

theorem coveredWithin_cons_of_le (h : n.distance active ≤ d) :
    coveredWithin active c (n :: rest) d = coveredWithin active (c + n.weight) rest d := by
  simp [coveredWithin, h]

theorem coveredWithin_cons_of_lt (h : d < n.distance active) :
    coveredWithin active c (n :: rest) d = coveredWithin active c rest d := by
  simp [coveredWithin, Nat.not_le.mpr h]

/-- Nodes all farther than `d` add nothing within `d`. -/
theorem coveredWithin_of_lt (hd : ∀ m ∈ nodes, d < m.distance active) :
    coveredWithin active c nodes d = c := by
  have hnil : (nodes.filter fun n => n.distance active ≤ d) = [] :=
    List.filter_eq_nil_iff.mpr fun m hm => by simpa using hd m hm
  rw [coveredWithin, hnil]
  rfl

/-- Weights of at least zero added to a start of at least zero never fall below it. -/
theorem le_coveredWithin (hc : (0 : Float) ≤ c) (hw : ∀ m ∈ nodes, (0 : Float) ≤ m.weight) :
    c ≤ coveredWithin active c nodes d := by
  induction nodes generalizing c with
  | nil => exact Binary64.le_refl_of_not_isNaN (Binary64.isNaN_eq_false_of_le_right hc)
  | cons n rest ih =>
    have hn := hw n List.mem_cons_self
    have hrest : ∀ m ∈ rest, (0 : Float) ≤ m.weight := fun m hm => hw m (List.mem_cons_of_mem _ hm)
    by_cases h : n.distance active ≤ d
    · rw [coveredWithin_cons_of_le h]
      have hle := Binary64.le_add_of_nonneg hc hn
      exact Binary64.le_trans hle (ih (Binary64.le_trans hc hle) hrest)
    · rw [coveredWithin_cons_of_lt (Nat.lt_of_not_le h)]
      exact ih hc hrest

end Covered

section Walk

variable {active : Int32} {t c : Float} {n : CoverageNode} {rest nodes : List CoverageNode}

theorem coverageWalk_cons (d₀ : ℤ) :
    coverageWalk active t (n :: rest) c d₀ =
      if c + n.weight ≥ t then (c + n.weight, (n.distance active : ℤ))
      else coverageWalk active t rest (c + n.weight) (n.distance active) := rfl

theorem running_cons : running c (n :: rest) = (c + n.weight) :: running (c + n.weight) rest := by
  cases rest <;> simp [running, List.scanl_cons]

/-- What the walk covers is the running weight where it stops. -/
theorem coverageWalk_fst (d₀ : ℤ) : (coverageWalk active t nodes c d₀).1 = coveredAt t c nodes := by
  induction nodes generalizing c d₀ with
  | nil => rfl
  | cons n rest ih =>
    rw [coverageWalk_cons, coveredAt, running_cons, List.find?_cons]
    by_cases h : c + n.weight ≥ t
    · rw [if_pos h, decide_eq_true h]
      rfl
    · rw [if_neg h, decide_eq_false h, ih]
      rfl

/-- The walk never covers less than zero from a start of at least zero. -/
theorem zero_le_coverageWalk_fst (hw : ∀ m ∈ nodes, (0 : Float) ≤ m.weight) (hc : (0 : Float) ≤ c)
    (d₀ : ℤ) : (0 : Float) ≤ (coverageWalk active t nodes c d₀).1 := by
  induction nodes generalizing c d₀ with
  | nil => exact hc
  | cons n rest ih =>
    have hc' := Binary64.le_trans hc (Binary64.le_add_of_nonneg hc (hw n List.mem_cons_self))
    rw [coverageWalk_cons]
    split
    · exact hc'
    · exact ih (fun m hm => hw m (List.mem_cons_of_mem _ hm)) hc' _

/-- A walk that stops at the first node stops at the least distance that reaches the target:
the node's own weight reaches it, and every other node lies no nearer. -/
theorem isLeast_reaching_cons (hs : NearestFirst active (n :: rest))
    (hw : ∀ m ∈ n :: rest, (0 : Float) ≤ m.weight) (hc : (0 : Float) ≤ c) (h : c + n.weight ≥ t) :
    IsLeast (reaching active t c (n :: rest)) (n.distance active) := by
  obtain ⟨hn, -⟩ := List.pairwise_cons.mp hs
  have hc' := Binary64.le_trans hc (Binary64.le_add_of_nonneg hc (hw n List.mem_cons_self))
  refine ⟨⟨n, List.mem_cons_self, rfl, ?_⟩, ?_⟩
  · rw [coveredWithin_cons_of_le le_rfl]
    exact Binary64.le_trans h (le_coveredWithin hc' fun m hm => hw m (List.mem_cons_of_mem _ hm))
  · rintro d ⟨m, hm, rfl, -⟩
    rcases List.mem_cons.mp hm with rfl | hm
    · exact le_rfl
    · exact hn m hm

/-- A walk that passes the first node leaves the same distances reaching the target: the first
node reaches it only together with nodes of the rest at its own distance. -/
theorem reaching_cons_of_lt (hs : NearestFirst active (n :: rest)) (h : ¬ c + n.weight ≥ t) :
    reaching active t c (n :: rest) = reaching active t (c + n.weight) rest := by
  obtain ⟨hn, -⟩ := List.pairwise_cons.mp hs
  ext d
  constructor
  · rintro ⟨m, hm, rfl, hreach⟩
    rcases List.mem_cons.mp hm with rfl | hm
    · rw [coveredWithin_cons_of_le le_rfl] at hreach
      by_cases hin : ∃ m' ∈ rest, m'.distance active ≤ m.distance active
      · obtain ⟨m', hm', hle⟩ := hin
        have heq := le_antisymm hle (hn m' hm')
        exact ⟨m', hm', heq, hreach⟩
      · rw [coveredWithin_of_lt fun m' hm' => Nat.lt_of_not_le fun hle => hin ⟨m', hm', hle⟩]
          at hreach
        exact absurd hreach h
    · rw [coveredWithin_cons_of_le (hn m hm)] at hreach
      exact ⟨m, hm, rfl, hreach⟩
  · rintro ⟨m, hm, rfl, hreach⟩
    refine ⟨m, List.mem_cons_of_mem _ hm, rfl, ?_⟩
    rw [coveredWithin_cons_of_le (hn m hm)]
    exact hreach

/-- Along nodes listed nearest first with weights of at least zero, the walk stops at the depth of
the target. -/
theorem coverageWalk_depth (hne : nodes ≠ []) (hs : NearestFirst active nodes)
    (hw : ∀ m ∈ nodes, (0 : Float) ≤ m.weight) (hc : (0 : Float) ≤ c) (d₀ : ℤ) :
    ∃ D : ℕ, (coverageWalk active t nodes c d₀).2 = D ∧ Depth active t c nodes D := by
  induction nodes generalizing c d₀ with
  | nil => exact absurd rfl hne
  | cons n rest ih =>
    have hc' := Binary64.le_trans hc (Binary64.le_add_of_nonneg hc (hw n List.mem_cons_self))
    rw [coverageWalk_cons]
    by_cases h : c + n.weight ≥ t
    · rw [if_pos h]
      exact ⟨n.distance active, rfl, .inl (isLeast_reaching_cons hs hw hc h)⟩
    rw [if_neg h]
    cases rest with
    | nil =>
      refine ⟨n.distance active, rfl, .inr ⟨?_, n, rfl, rfl⟩⟩
      rw [reaching_cons_of_lt hs h]
      ext d
      simp [reaching]
    | cons m rest =>
      obtain ⟨D, hD, hdepth⟩ := ih (List.cons_ne_nil _ _) (List.pairwise_cons.mp hs).2
        (fun m hm => hw m (List.mem_cons_of_mem _ hm)) hc' (n.distance active)
      refine ⟨D, hD, ?_⟩
      unfold Depth at hdepth ⊢
      rw [reaching_cons_of_lt hs h, List.getLast?_cons_cons]
      exact hdepth

/-- The depth is the distance of one of the nodes. -/
theorem Depth.exists_mem {D : ℕ} (h : Depth active t c nodes D) :
    ∃ n ∈ nodes, n.distance active = D := by
  rcases h with ⟨⟨n, hn, hd, -⟩, -⟩ | ⟨-, n, hlast, rfl⟩
  · exact ⟨n, hn, hd⟩
  · exact ⟨n, List.mem_of_getLast? hlast, rfl⟩

end Walk

end CoverageNode

/-! ### The width of a side -/

open CoverageNode

theorem coverageSpan_of_ne_nil {nodes : List CoverageNode} {active lo hi : Int32} (t : Float)
    (fallback : Int32) (hne : nodes ≠ []) :
    coverageSpan nodes active t lo hi fallback =
      ⟨Saturating.clamp (Saturating.ofInt (coverageWalk active t nodes 0.0 0).2) lo hi,
        some (Binary64.lesser (coverageWalk active t nodes 0.0 0).1 1.0)⟩ := by
  unfold coverageSpan
  rw [if_neg (by simpa using hne)]

/-- Along nodes listed nearest first, with weights of at least zero and distances that fit in 32
bits, a side is as wide as the depth of its target held within the bounds, and covers the running
weight where the walk stopped, at most one; a higher target never narrows it; without nodes the
fallback width stands and nothing is covered. -/
theorem coverageSpan_reaches {active lo hi : Int32} (fallback : Int32) (hlh : lo.toInt ≤ hi.toInt)
    {nodes : List CoverageNode} (hs : NearestFirst active nodes)
    (hw : ∀ n ∈ nodes, (0 : Float) ≤ n.weight)
    (hfit : ∀ n ∈ nodes, (n.distance active : ℤ) ≤ Saturating.hi) :
    (∀ t : Float, nodes ≠ [] → ∃ D : ℕ, Depth active t 0.0 nodes D ∧
      (coverageSpan nodes active t lo hi fallback).bins.toInt = max lo.toInt (min (D : ℤ) hi.toInt) ∧
      (coverageSpan nodes active t lo hi fallback).coverage = some (min (coveredAt t 0.0 nodes) 1.0)) ∧
    (∀ t₁ t₂ : Float, t₁ ≤ t₂ →
      (coverageSpan nodes active t₁ lo hi fallback).bins ≤
        (coverageSpan nodes active t₂ lo hi fallback).bins) ∧
    ∀ t : Float, coverageSpan [] active t lo hi fallback = ⟨fallback, none⟩ := by
  refine ⟨fun t hne => ?_, fun t₁ t₂ ht => ?_, fun t => rfl⟩
  · have h0 : (0 : Float) ≤ 0.0 := by decide
    obtain ⟨D, hD, hdepth⟩ := coverageWalk_depth (t := t) hne hs hw h0 0
    -- the depth is a node's distance, so it fits in 32 bits and converts exactly
    obtain ⟨n, hn, hnD⟩ := hdepth.exists_mem
    have hDfit : (D : ℤ) ≤ Saturating.hi := hnD ▸ hfit n hn
    have hcov : (0 : Float) ≤ (coverageWalk active t nodes 0.0 0).1 := zero_le_coverageWalk_fst hw h0 0
    have hfst : (coverageWalk active t nodes 0.0 0).1 = coveredAt t 0.0 nodes := coverageWalk_fst 0
    refine ⟨D, hdepth, ?_, ?_⟩
    · rw [coverageSpan_of_ne_nil t fallback hne, hD, Saturating.toInt_clamp,
        Saturating.toInt_ofInt_of_mem (by simp only [Saturating.lo]; omega) hDfit]
      split_ifs <;> omega
    · rw [coverageSpan_of_ne_nil t fallback hne, ← hfst,
        Binary64.lesser_eq_min (Binary64.isNaN_eq_false_of_le_right hcov) (by decide)]
  · exact Int32.le_iff_toInt_le.mpr (coverageSpan_bins_mono_target ht hs hlh fallback)

/-- Two nodes around bin zero, `0.1` of the weight at the bin itself and `0.2` thirty bins below,
with bounds from three to twenty bins. -/
theorem coverageSpan_reaches_two_nodes :
    (3 : Int32).toInt ≤ (20 : Int32).toInt ∧
      NearestFirst 0 [⟨0, 1.0, 0.1⟩, ⟨-30, 1.0, 0.2⟩] ∧
      (∀ n ∈ ([⟨0, 1.0, 0.1⟩, ⟨-30, 1.0, 0.2⟩] : List CoverageNode), (0 : Float) ≤ n.weight) ∧
      (∀ n ∈ ([⟨0, 1.0, 0.1⟩, ⟨-30, 1.0, 0.2⟩] : List CoverageNode),
        (n.distance 0 : ℤ) ≤ Saturating.hi) ∧
      ((∀ t : Float, ([⟨0, 1.0, 0.1⟩, ⟨-30, 1.0, 0.2⟩] : List CoverageNode) ≠ [] →
        ∃ D : ℕ, Depth 0 t 0.0 [⟨0, 1.0, 0.1⟩, ⟨-30, 1.0, 0.2⟩] D ∧
          (coverageSpan [⟨0, 1.0, 0.1⟩, ⟨-30, 1.0, 0.2⟩] 0 t 3 20 7).bins.toInt =
            max (3 : Int32).toInt (min (D : ℤ) (20 : Int32).toInt) ∧
          (coverageSpan [⟨0, 1.0, 0.1⟩, ⟨-30, 1.0, 0.2⟩] 0 t 3 20 7).coverage =
            some (min (coveredAt t 0.0 [⟨0, 1.0, 0.1⟩, ⟨-30, 1.0, 0.2⟩]) 1.0)) ∧
        (∀ t₁ t₂ : Float, t₁ ≤ t₂ →
          (coverageSpan [⟨0, 1.0, 0.1⟩, ⟨-30, 1.0, 0.2⟩] 0 t₁ 3 20 7).bins ≤
            (coverageSpan [⟨0, 1.0, 0.1⟩, ⟨-30, 1.0, 0.2⟩] 0 t₂ 3 20 7).bins) ∧
        ∀ t : Float, coverageSpan [] 0 t 3 20 7 = ⟨7, none⟩) := by
  have hs : NearestFirst 0 [⟨0, 1.0, 0.1⟩, ⟨-30, 1.0, 0.2⟩] := by
    unfold NearestFirst CoverageNode.distance
    decide
  have hw : ∀ n ∈ ([⟨0, 1.0, 0.1⟩, ⟨-30, 1.0, 0.2⟩] : List CoverageNode), (0 : Float) ≤ n.weight := by
    decide
  have hfit : ∀ n ∈ ([⟨0, 1.0, 0.1⟩, ⟨-30, 1.0, 0.2⟩] : List CoverageNode),
      (n.distance 0 : ℤ) ≤ Saturating.hi := by
    decide
  exact ⟨by decide, hs, hw, hfit, coverageSpan_reaches 7 (by decide) hs hw hfit⟩

end RangeAdvisor
