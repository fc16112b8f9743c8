import Mathlib

/-!
# Exchanges between disjoint pairs

* `ends`, `exchanges` : the members of pairs, and the permutation in which the two of every pair change places;
* `exchanges_left`, `exchanges_right`, `exchanges_of_notMem` : what disjoint pairs do to a member and to anyone else;
* `sum_exchanges` : what the exchanges change in a sum is what the pairs change one by one.
-/

namespace TtAiops.Lib

variable {α : Type*}

/-- The members of the pairs. -/
def ends (ps : List (α × α)) : List α := ps.flatMap fun p => [p.1, p.2]

theorem ends_cons (p : α × α) (ps : List (α × α)) : ends (p :: ps) = p.1 :: p.2 :: ends ps := rfl

theorem mem_ends {ps : List (α × α)} {t : α} : t ∈ ends ps ↔ ∃ p ∈ ps, t = p.1 ∨ t = p.2 := by
  simp [ends]

variable [DecidableEq α]

def exchanges (ps : List (α × α)) : Equiv.Perm α := (ps.map fun p => Equiv.swap p.1 p.2).prod

theorem exchanges_cons (p : α × α) (ps : List (α × α)) (t : α) :
    exchanges (p :: ps) t = Equiv.swap p.1 p.2 (exchanges ps t) := by
  rw [exchanges, List.map_cons, List.prod_cons]
  rfl

theorem exchanges_of_notMem {ps : List (α × α)} {t : α} (h : t ∉ ends ps) : exchanges ps t = t := by
  induction ps with
  | nil => rfl
  | cons p ps ih =>
    rw [ends_cons, List.mem_cons, List.mem_cons, not_or, not_or] at h
    rw [exchanges_cons, ih h.2.2, Equiv.swap_apply_of_ne_of_ne h.1 h.2.1]

theorem exchanges_pair {ps : List (α × α)} (h : (ends ps).Nodup) {p : α × α} (hp : p ∈ ps) :
    exchanges ps p.1 = p.2 ∧ exchanges ps p.2 = p.1 := by
  induction ps with
  | nil => exact absurd hp List.not_mem_nil
  | cons q ps ih =>
    rw [ends_cons, List.nodup_cons, List.nodup_cons, List.mem_cons, not_or] at h
    obtain ⟨⟨-, hq1⟩, hq2, hnodup⟩ := h
    rw [exchanges_cons, exchanges_cons]
    obtain rfl | hp := List.mem_cons.mp hp
    · rw [exchanges_of_notMem hq1, exchanges_of_notMem hq2]
      exact ⟨Equiv.swap_apply_left _ _, Equiv.swap_apply_right _ _⟩
    · obtain ⟨h1, h2⟩ := ih hnodup hp
      have hmem1 : p.1 ∈ ends ps := mem_ends.mpr ⟨p, hp, Or.inl rfl⟩
      have hmem2 : p.2 ∈ ends ps := mem_ends.mpr ⟨p, hp, Or.inr rfl⟩
      have hne : ∀ {t}, t ∈ ends ps → t ≠ q.1 ∧ t ≠ q.2 := fun ht =>
        ⟨fun he => hq1 (he ▸ ht), fun he => hq2 (he ▸ ht)⟩
      rw [h1, h2, Equiv.swap_apply_of_ne_of_ne (hne hmem1).1 (hne hmem1).2,
        Equiv.swap_apply_of_ne_of_ne (hne hmem2).1 (hne hmem2).2]
      exact ⟨rfl, rfl⟩

theorem exchanges_mem {ps : List (α × α)} (h : (ends ps).Nodup) {s : Finset α} (hs : ∀ t ∈ ends ps, t ∈ s) {t : α}
    (ht : t ∈ s) : exchanges ps t ∈ s := by
  by_cases hm : t ∈ ends ps
  · obtain ⟨p, hp, rfl | rfl⟩ := mem_ends.mp hm
    · rw [(exchanges_pair h hp).1]
      exact hs _ (mem_ends.mpr ⟨p, hp, Or.inr rfl⟩)
    · rw [(exchanges_pair h hp).2]
      exact hs _ (mem_ends.mpr ⟨p, hp, Or.inl rfl⟩)
  · rwa [exchanges_of_notMem hm]

omit [DecidableEq α] in
theorem sum_ends {M : Type*} [AddCommMonoid M] (f : α → M) (ps : List (α × α)) :
    ((ends ps).map f).sum = (ps.map fun p => f p.1 + f p.2).sum := by
  induction ps with
  | nil => rfl
  | cons p ps ih =>
    rw [ends_cons, List.map_cons, List.map_cons, List.sum_cons, List.sum_cons, ih, List.map_cons, List.sum_cons, add_assoc]

/-- Where someone's cost depends on the place they get, disjoint exchanges change the total by what each pair changes. -/
theorem sum_exchanges {M : Type*} [AddCommGroup M] (c : α → α → M) {ps : List (α × α)} (h : (ends ps).Nodup)
    {s : Finset α} (hs : ∀ t ∈ ends ps, t ∈ s) :
    ∑ t ∈ s, c t t - ∑ t ∈ s, c t (exchanges ps t) =
      (ps.map fun p => c p.1 p.1 + c p.2 p.2 - c p.1 p.2 - c p.2 p.1).sum := by
  have hsub : (ends ps).toFinset ⊆ s := fun t ht => hs t (List.mem_toFinset.mp ht)
  have hrest : ∀ t ∈ s, t ∉ (ends ps).toFinset → c t t - c t (exchanges ps t) = 0 := by
    intro t _ ht
    rw [exchanges_of_notMem fun hm => ht (List.mem_toFinset.mpr hm), sub_self]
  rw [← Finset.sum_sub_distrib, ← Finset.sum_subset hsub hrest, List.sum_toFinset _ h, sum_ends]
  congr 1
  apply List.map_congr_left
  intro p hp
  rw [(exchanges_pair h hp).1, (exchanges_pair h hp).2]
  abel

end TtAiops.Lib
