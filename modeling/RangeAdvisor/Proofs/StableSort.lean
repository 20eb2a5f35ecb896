import Mathlib.Data.List.Sort

/-!
# Stable sorting

Bins are sorted with the library's merge sort, which is stable: elements the comparison ties keep
the order they had. Sorting therefore leaves every run of tied elements as it found it
(`filter_mergeSort_of_tied`). A list sorted by a total preorder is fixed by its elements and by the
order within each class of tied elements (`eq_of_perm_of_filter_tied`), so sorting commutes with a
filter (`mergeSort_filter`), and sorting by one order and then stably by another is sorting once by
the second with its ties broken by the first (`mergeSort_mergeSort`).
-/

set_option autoImplicit false

namespace RangeAdvisor

variable {α β : Type*}

/-- A comparison that is transitive and total, as merge sort needs it. -/
structure TotalPreorder (le : α → α → Bool) : Prop where
  trans : ∀ a b c, le a b → le b c → le a c
  total : ∀ a b, (le a b || le b a) = true

/-- `a` and `b` are tied: each is at most the other. -/
def Tied (le : α → α → Bool) (a b : α) : Bool := le a b && le b a

/-- `r`, with the ties of `r` broken by `s`. -/
def thenBy (r s : α → α → Bool) (a b : α) : Bool := r a b && (!r b a || s a b)

namespace TotalPreorder

variable {le r s : α → α → Bool}

theorem refl (h : TotalPreorder le) (a : α) : le a a := by
  simpa using h.total a a

/-- Comparing by a key into a total order. -/
theorem onKey [LE β] [DecidableLE β] (key : α → β) (htrans : ∀ x y z : β, x ≤ y → y ≤ z → x ≤ z)
    (htotal : ∀ x y : β, x ≤ y ∨ y ≤ x) : TotalPreorder fun a b => decide (key a ≤ key b) where
  trans a b c hab hbc := by
    simp only [decide_eq_true_eq] at *
    exact htrans _ _ _ hab hbc
  total a b := by simpa using htotal (key a) (key b)

/-- Comparing by a key into a total order, largest first. -/
theorem onKeyDesc [LE β] [DecidableLE β] (key : α → β)
    (htrans : ∀ x y z : β, x ≤ y → y ≤ z → x ≤ z) (htotal : ∀ x y : β, x ≤ y ∨ y ≤ x) :
    TotalPreorder fun a b => decide (key b ≤ key a) where
  trans a b c hab hbc := by
    simp only [decide_eq_true_eq] at *
    exact htrans _ _ _ hbc hab
  total a b := by simpa [or_comm] using htotal (key a) (key b)

theorem tied_refl (h : TotalPreorder le) (a : α) : Tied le a a := by
  simp [Tied, h.refl a]

theorem tied_symm {a b : α} (hab : Tied le a b) : Tied le b a := by
  simp only [Tied, Bool.and_eq_true] at *
  exact ⟨hab.2, hab.1⟩

theorem thenBy (hr : TotalPreorder r) (hs : TotalPreorder s) : TotalPreorder (thenBy r s) where
  trans a b c hab hbc := by
    simp only [RangeAdvisor.thenBy, Bool.and_eq_true, Bool.or_eq_true, Bool.not_eq_true'] at *
    refine ⟨hr.trans _ _ _ hab.1 hbc.1, ?_⟩
    by_cases hca : r c a
    · -- `c ≤ a ≤ b ≤ c`: the three are tied by `r`, so `s` orders them
      have hba : r b a := hr.trans _ _ _ hbc.1 hca
      have hcb : r c b := hr.trans _ _ _ hca hab.1
      have hsab : s a b := by simpa [hba] using hab.2
      have hsbc : s b c := by simpa [hcb] using hbc.2
      exact .inr (hs.trans _ _ _ hsab hsbc)
    · exact .inl (by simpa using hca)
  total a b := by
    have hrt := hr.total a b
    have hst := hs.total a b
    simp only [RangeAdvisor.thenBy]
    cases hab : r a b <;> cases hba : r b a <;> simp_all

theorem tied_of_tied_thenBy {a b : α} (h : Tied (RangeAdvisor.thenBy r s) a b) :
    Tied r a b ∧ Tied s a b := by
  simp only [Tied, RangeAdvisor.thenBy, Bool.and_eq_true, Bool.or_eq_true, Bool.not_eq_true'] at *
  obtain ⟨⟨hab, habs⟩, hba, hbas⟩ := h
  refine ⟨⟨hab, hba⟩, ?_, ?_⟩
  · simpa [hba] using habs
  · simpa [hab] using hbas

end TotalPreorder

section Sorting

variable {le : α → α → Bool}

/-- Elements all tied with one `a` are in order whatever their order. -/
theorem pairwise_of_tied (h : TotalPreorder le) {l : List α} (a : α) (hl : ∀ x ∈ l, Tied le a x) :
    l.Pairwise fun x y => le x y := by
  refine List.pairwise_of_forall_mem_list fun x hx y hy => ?_
  have hx' := hl x hx
  have hy' := hl y hy
  simp only [Tied, Bool.and_eq_true] at hx' hy'
  exact h.trans _ _ _ hx'.2 hy'.1

/-- Sorting keeps the elements tied with one `a` in the order they had. -/
theorem filter_mergeSort_of_tied (h : TotalPreorder le) (l : List α) {p : α → Bool} (a : α)
    (hp : ∀ x, p x → Tied le a x) : (l.mergeSort le).filter p = l.filter p := by
  have hsorted : (l.filter p).Pairwise fun x y => le x y :=
    pairwise_of_tied h a fun x hx => hp x (List.mem_filter.mp hx).2
  -- stability keeps them a sublist of the sorted list, and no others satisfy `p`
  have hsub : (l.filter p).Sublist ((l.mergeSort le).filter p) := by
    have := (List.sublist_mergeSort h.trans h.total hsorted List.filter_sublist).filter p
    simpa only [List.filter_filter, Bool.and_self] using this
  have hlen : ((l.mergeSort le).filter p).length = (l.filter p).length :=
    ((List.mergeSort_perm l le).filter p).length_eq
  exact (hsub.eq_of_length hlen.symm).symm

/-- A list in order is fixed by its elements and the order within each class of tied ones. -/
theorem eq_of_perm_of_filter_tied (h : TotalPreorder le) {l₁ l₂ : List α} (hp : l₁.Perm l₂)
    (h₁ : l₁.Pairwise fun x y => le x y) (h₂ : l₂.Pairwise fun x y => le x y)
    (ht : ∀ a, l₁.filter (Tied le a) = l₂.filter (Tied le a)) : l₁ = l₂ := by
  induction l₁ generalizing l₂ with
  | nil => exact (List.Perm.nil_eq hp)
  | cons a t₁ ih =>
    obtain _ | ⟨b, t₂⟩ := l₂
    · exact absurd hp.length_eq (by simp)
    -- both heads come first, so they are tied, and the class of `a` starts with each
    have hab : le a b := by
      rcases List.mem_cons.mp (hp.symm.subset List.mem_cons_self) with rfl | hb
      · exact h.refl b
      · exact List.rel_of_pairwise_cons h₁ hb
    have hba : le b a := by
      rcases List.mem_cons.mp (hp.subset List.mem_cons_self) with rfl | ha
      · exact h.refl a
      · exact List.rel_of_pairwise_cons h₂ ha
    have hheads := ht a
    simp only [List.filter_cons, Tied, h.refl a, hab, hba, Bool.and_self, if_true] at hheads
    obtain ⟨rfl, -⟩ := List.cons_eq_cons.mp hheads
    refine congrArg (a :: ·) (ih hp.cons_inv h₁.of_cons h₂.of_cons fun x => ?_)
    have hx := ht x
    simp only [List.filter_cons] at hx
    split at hx
    · exact (List.cons_eq_cons.mp hx).2
    · exact hx

/-- Sorting commutes with keeping the elements that satisfy `p`. -/
theorem mergeSort_filter (h : TotalPreorder le) (l : List α) (p : α → Bool) :
    (l.mergeSort le).filter p = (l.filter p).mergeSort le := by
  refine eq_of_perm_of_filter_tied h
    (((List.mergeSort_perm l le).filter p).trans (List.mergeSort_perm _ le).symm)
    ((List.pairwise_mergeSort h.trans h.total l).filter p)
    (List.pairwise_mergeSort h.trans h.total _) fun a => ?_
  -- each class is kept in place by both sorts
  rw [List.filter_filter, filter_mergeSort_of_tied h l a fun x hx => (by simp_all),
    filter_mergeSort_of_tied h _ a fun x hx => hx, List.filter_filter]

/-- Sorting by `s` and then stably by `r` sorts by `r` with ties broken by `s`. -/
theorem mergeSort_mergeSort {r s : α → α → Bool} (hr : TotalPreorder r) (hs : TotalPreorder s)
    (l : List α) : (l.mergeSort s).mergeSort r = l.mergeSort (thenBy r s) := by
  have ht := hr.thenBy hs
  refine eq_of_perm_of_filter_tied ht
    (((List.mergeSort_perm _ r).trans (List.mergeSort_perm l s)).trans (List.mergeSort_perm l _).symm)
    ?_ (List.pairwise_mergeSort ht.trans ht.total l) fun a => ?_
  · -- two elements tied by `r` keep the order `s` gave them
    rw [List.pairwise_iff_forall_sublist]
    intro x y hxy
    have hrxy : r x y := List.rel_of_pairwise_cons
      ((List.pairwise_mergeSort hr.trans hr.total _).sublist hxy) List.mem_cons_self
    simp only [RangeAdvisor.thenBy, hrxy, Bool.true_and, Bool.or_eq_true, Bool.not_eq_true']
    by_cases hryx : r y x
    · right
      have hsub := hxy.filter (Tied r x)
      rw [filter_mergeSort_of_tied hr _ x fun z hz => hz] at hsub
      have htx : Tied r x x = true := hr.tied_refl x
      have hty : Tied r x y = true := by simp [Tied, hrxy, hryx]
      simp only [List.filter_cons, htx, hty, if_true, List.filter_nil] at hsub
      exact List.rel_of_pairwise_cons
        (((List.pairwise_mergeSort hs.trans hs.total l).filter _).sublist hsub) List.mem_cons_self
    · exact .inl (by simpa using hryx)
  · -- a class of the combined order is tied by both, so neither sort moves it
    have hclass : ∀ x, Tied (thenBy r s) a x → Tied r a x ∧ Tied s a x :=
      fun x hx => TotalPreorder.tied_of_tied_thenBy hx
    rw [filter_mergeSort_of_tied hr _ a fun x hx => (hclass x hx).1,
      filter_mergeSort_of_tied hs l a fun x hx => (hclass x hx).2,
      filter_mergeSort_of_tied ht l a fun x hx => hx]

end Sorting

end RangeAdvisor
