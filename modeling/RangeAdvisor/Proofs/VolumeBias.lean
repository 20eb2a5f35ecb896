import RangeAdvisor.Market.Context
import RangeAdvisor.Proofs.Float.Gain

/-!
# The volume bias is antisymmetric

The bias adds up the weight of the volume nodes above the pool price and of those below it, and
compares each sum with 1.2 times the other. Mirroring the nodes about the price (the same weights
in the same order, with above and below exchanged) exchanges the two sums exactly, since the float
additions are the same ones in the same order. Weights of at least zero sum to at least zero, and
such a sum is at most 1.2 times itself, so the two comparisons never both hold and the one tested
first never hides the other. Main statement: `Bias.ofNodes_mirrored`, the bias of mirrored nodes
is the opposite bias.
-/

set_option autoImplicit false

namespace RangeAdvisor

/-- A float is never both below and above another. -/
theorem Binary64.lt_asymm {x y : Float} (h : x < y) : ¬ y < x := fun h' =>
  Binary64.not_le_of_lt h (Binary64.le_of_lt h')

open Binary64

namespace Bias

/-- Bullish and bearish exchanged. -/
def opposite : Bias → Bias
  | .bearish => .bullish
  | .neutral => .neutral
  | .bullish => .bearish

/-- A node's weight added to the side of `price` it lies on; a node at the price or with a NaN
price lies on neither side. -/
def tally (price : Float) (acc : Float × Float) (n : VolumeNode) : Float × Float :=
  if n.price > price then (acc.1 + n.weight, acc.2)
  else if n.price < price then (acc.1, acc.2 + n.weight)
  else acc

/-- The node weight above `price` and the node weight below it. -/
def weights (nodes : List VolumeNode) (price : Float) : Float × Float :=
  nodes.foldl (tally price) (0.0, 0.0)

/-- The bias shown by the weight above and the weight below the price. -/
def ofWeights (above below : Float) : Bias :=
  if above > below * 1.2 then .bullish
  else if below > above * 1.2 then .bearish
  else .neutral

theorem ofNodes_eq (nodes : List VolumeNode) (price : Float) :
    ofNodes nodes price = ofWeights (weights nodes price).1 (weights nodes price).2 := rfl

/-- `b` is `a` mirrored about `price`: it has the weight of `a`, and lies above the price exactly
when `a` lies below it and below exactly when `a` lies above. -/
structure Mirrored (price : Float) (a b : VolumeNode) : Prop where
  weight : b.weight = a.weight
  above : b.price > price ↔ a.price < price
  below : b.price < price ↔ a.price > price

/-! ### Mirrored nodes exchange the sums -/

section Mirror

variable {price : Float} {a b : VolumeNode}

/-- One step of the sums: a mirrored node adds its weight to the other sum. -/
theorem tally_mirrored (h : Mirrored price a b) (acc : Float × Float) :
    tally price acc.swap b = (tally price acc a).swap := by
  unfold tally
  by_cases habove : a.price > price
  · -- `a` above the price, so `b` below it
    have hb : ¬ b.price > price := fun hb => lt_asymm habove (h.above.mp hb)
    simp [habove, hb, h.below.mpr habove, h.weight]
  by_cases hbelow : a.price < price
  · -- `a` below the price, so `b` above it
    simp [habove, hbelow, h.above.mpr hbelow, h.weight]
  · -- `a` on neither side, nor is `b`
    have hb₁ : ¬ b.price > price := fun hb => hbelow (h.above.mp hb)
    have hb₂ : ¬ b.price < price := fun hb => habove (h.below.mp hb)
    simp [habove, hbelow, hb₁, hb₂]

/-- Summing mirrored nodes from exchanged sums ends with the sums exchanged. -/
theorem foldl_tally_mirrored {xs ys : List VolumeNode} (h : List.Forall₂ (Mirrored price) xs ys)
    (acc : Float × Float) :
    ys.foldl (tally price) acc.swap = (xs.foldl (tally price) acc).swap := by
  induction h generalizing acc with
  | nil => rfl
  | cons hab _ ih => rw [List.foldl_cons, List.foldl_cons, tally_mirrored hab, ih]

theorem weights_mirrored {xs ys : List VolumeNode} (h : List.Forall₂ (Mirrored price) xs ys) :
    weights ys price = (weights xs price).swap :=
  foldl_tally_mirrored h (0.0, 0.0)

end Mirror

/-! ### Sums of weights of at least zero -/

section Sums

variable {price : Float}

theorem tally_nonneg {acc : Float × Float} {n : VolumeNode} (h₁ : (0 : Float) ≤ acc.1)
    (h₂ : (0 : Float) ≤ acc.2) (hn : (0 : Float) ≤ n.weight) :
    (0 : Float) ≤ (tally price acc n).1 ∧ (0 : Float) ≤ (tally price acc n).2 := by
  unfold tally
  split_ifs
  · exact ⟨le_trans h₁ (le_add_of_nonneg h₁ hn), h₂⟩
  · exact ⟨h₁, le_trans h₂ (le_add_of_nonneg h₂ hn)⟩
  · exact ⟨h₁, h₂⟩

/-- Adding weights of at least zero to sums of at least zero keeps both at least zero. -/
theorem foldl_tally_nonneg {nodes : List VolumeNode} (hw : ∀ n ∈ nodes, (0 : Float) ≤ n.weight)
    (acc : Float × Float) (h₁ : (0 : Float) ≤ acc.1) (h₂ : (0 : Float) ≤ acc.2) :
    (0 : Float) ≤ (nodes.foldl (tally price) acc).1 ∧
      (0 : Float) ≤ (nodes.foldl (tally price) acc).2 := by
  induction nodes generalizing acc with
  | nil => exact ⟨h₁, h₂⟩
  | cons n rest ih =>
    obtain ⟨h₁', h₂'⟩ := @tally_nonneg price acc n h₁ h₂ (hw n List.mem_cons_self)
    exact ih (fun m hm => hw m (List.mem_cons_of_mem n hm)) _ h₁' h₂'

theorem weights_nonneg {nodes : List VolumeNode} (hw : ∀ n ∈ nodes, (0 : Float) ≤ n.weight) :
    (0 : Float) ≤ (weights nodes price).1 ∧ (0 : Float) ≤ (weights nodes price).2 :=
  foldl_tally_nonneg hw (0.0, 0.0) (by decide) (by decide)

theorem one_le_threshold : (1 : Float) ≤ 1.2 := by decide

theorem threshold_isFinite : (1.2 : Float).isFinite = true := by decide

/-- Of two sums of at least zero, at most one exceeds 1.2 times the other: each is at most 1.2
times itself, so each would exceed the other. -/
theorem not_both_exceed {above below : Float} (ha : (0 : Float) ≤ above)
    (hb : (0 : Float) ≤ below) : ¬ (above > below * 1.2 ∧ below > above * 1.2) := by
  rintro ⟨hab, hba⟩
  have hlt : below < above := lt_of_le_of_lt (le_mul_of_one_le hb one_le_threshold threshold_isFinite) hab
  have hgt : above < below := lt_of_le_of_lt (le_mul_of_one_le ha one_le_threshold threshold_isFinite) hba
  exact lt_asymm hlt hgt

theorem ofWeights_swap {above below : Float} (h : ¬ (above > below * 1.2 ∧ below > above * 1.2)) :
    ofWeights below above = (ofWeights above below).opposite := by
  unfold ofWeights
  by_cases hab : above > below * 1.2
  · have hba : ¬ below > above * 1.2 := fun hba => h ⟨hab, hba⟩
    simp [hab, hba, opposite]
  · by_cases hba : below > above * 1.2 <;> simp [hab, hba, opposite]

end Sums

/-- The bias of nodes mirrored about the price is the opposite bias: bullish on one list exactly
when bearish on the other, and neutral on both otherwise. With weights of at least zero the weight
above never exceeds 1.2 times the weight below while the weight below exceeds 1.2 times it. -/
theorem ofNodes_mirrored {price : Float} {xs ys : List VolumeNode}
    (hm : List.Forall₂ (Mirrored price) xs ys) (hw : ∀ n ∈ xs, (0 : Float) ≤ n.weight) :
    ofNodes ys price = (ofNodes xs price).opposite ∧
      ¬ ((weights xs price).1 > (weights xs price).2 * 1.2 ∧
        (weights xs price).2 > (weights xs price).1 * 1.2) := by
  obtain ⟨h₁, h₂⟩ := @weights_nonneg price xs hw
  have hex := not_both_exceed h₁ h₂
  refine ⟨?_, hex⟩
  rw [ofNodes_eq, ofNodes_eq, weights_mirrored hm]
  exact ofWeights_swap hex

/-- Nodes about the price one: one above, one below, one at a NaN price. -/
def leaningNodes : List VolumeNode := [⟨2.0, 0.5⟩, ⟨0.5, 0.2⟩, ⟨0.0 / 0.0, 0.3⟩]

/-- `leaningNodes` mirrored about the price one. -/
def leaningMirror : List VolumeNode := [⟨0.5, 0.5⟩, ⟨2.0, 0.2⟩, ⟨0.0 / 0.0, 0.3⟩]

theorem ofNodes_mirrored_leaning :
    List.Forall₂ (Mirrored 1.0) leaningNodes leaningMirror ∧
      (∀ n ∈ leaningNodes, (0 : Float) ≤ n.weight) ∧
      (ofNodes leaningMirror 1.0 = (ofNodes leaningNodes 1.0).opposite ∧
        ¬ ((weights leaningNodes 1.0).1 > (weights leaningNodes 1.0).2 * 1.2 ∧
          (weights leaningNodes 1.0).2 > (weights leaningNodes 1.0).1 * 1.2)) := by
  have hm : List.Forall₂ (Mirrored 1.0) leaningNodes leaningMirror :=
    .cons ⟨rfl, by decide, by decide⟩ (.cons ⟨rfl, by decide, by decide⟩
      (.cons ⟨rfl, by decide, by decide⟩ .nil))
  have hw : ∀ n ∈ leaningNodes, (0 : Float) ≤ n.weight := by decide
  exact ⟨hm, hw, ofNodes_mirrored hm hw⟩

end Bias

end RangeAdvisor
