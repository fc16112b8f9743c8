import Mathlib

/-!
# Potentials prove an assignment optimal

Rows are assigned distinct columns at a cost `a row column`. Potentials `u` on the rows and `v` on the columns that
stay below every cost, meet it on the pairs of an assignment, are never positive on a column and vanish on the columns
left free, prove that no other assignment is cheaper (`sum_le_of_potentials`).

`all_cheap_of_sum_le` : where one row set has an assignment below a bound `big`, an assignment that costs no more uses
no pair that costs `big`.

Where some pairs are forbidden, they cost `big`, and the pairs of an optimal assignment below `big` are what is kept of
it. `exists_extension` : a matching of some rows belongs to an assignment of all of them; `card_le_of_big`,
`sum_le_of_big` : no matching has more pairs than are kept, and none of as many is cheaper.
-/

namespace TtAiops.Lib

variable {R C : Type*} [DecidableEq C]

/-- **Weak duality for assignments.** -/
theorem sum_le_of_potentials (rows : Finset R) (cols : Finset C) {a : R → C → ℤ} {u : R → ℤ} {v : C → ℤ} {f g : R → C}
    (feasible : ∀ i ∈ rows, ∀ j ∈ cols, u i + v j ≤ a i j) (nonpos : ∀ j ∈ cols, v j ≤ 0)
    (hf : ∀ i ∈ rows, f i ∈ cols) (hfinj : Set.InjOn f rows) (tight : ∀ i ∈ rows, u i + v (f i) = a i (f i))
    (free : ∀ j ∈ cols, (∀ i ∈ rows, f i ≠ j) → v j = 0)
    (hg : ∀ i ∈ rows, g i ∈ cols) (hginj : Set.InjOn g rows) :
    ∑ i ∈ rows, a i (f i) ≤ ∑ i ∈ rows, a i (g i) := by
  have himage : ∀ h : R → C, Set.InjOn h rows → ∑ i ∈ rows, v (h i) = ∑ j ∈ rows.image h, v j :=
    fun h hinj => (Finset.sum_image hinj).symm
  have hfull : ∑ j ∈ rows.image f, v j = ∑ j ∈ cols, v j := by
    apply Finset.sum_subset (Finset.image_subset_iff.mpr hf)
    intro j hj hnot
    exact free j hj fun i hi heq => hnot (Finset.mem_image.mpr ⟨i, hi, heq⟩)
  have hpart : ∑ j ∈ cols, v j ≤ ∑ j ∈ rows.image g, v j :=
    Finset.sum_le_sum_of_subset_of_nonpos' (Finset.image_subset_iff.mpr hg) fun j hj _ => nonpos j hj
  calc
    ∑ i ∈ rows, a i (f i) = ∑ i ∈ rows, u i + ∑ i ∈ rows, v (f i) := by
      rw [← Finset.sum_add_distrib]
      exact Finset.sum_congr rfl fun i hi => (tight i hi).symm
    _ ≤ ∑ i ∈ rows, u i + ∑ i ∈ rows, v (g i) := by
      rw [himage f hfinj, himage g hginj, hfull]
      exact Int.add_le_add_left hpart _
    _ ≤ ∑ i ∈ rows, a i (g i) := by
      rw [← Finset.sum_add_distrib]
      exact Finset.sum_le_sum fun i hi => feasible i hi (g i) (hg i hi)

/-- A cost vector whose sum is at most that of a vector of small entries has no entry `big`. -/
theorem all_cheap_of_sum_le {rows : Finset R} {x y : R → ℤ} {big : ℤ} (hx : ∀ i ∈ rows, 0 ≤ x i)
    (hsum : ∑ i ∈ rows, x i ≤ ∑ i ∈ rows, y i) (hy : ∀ i ∈ rows, rows.card * y i < big) :
    ∀ i ∈ rows, x i < big := by
  intro i hi
  have hxi : x i ≤ ∑ k ∈ rows, x k := Finset.single_le_sum hx hi
  obtain ⟨k, hk, hmax⟩ := Finset.exists_max_image rows y ⟨i, hi⟩
  have hyk : ∑ k ∈ rows, y k ≤ rows.card * y k := by
    rw [← nsmul_eq_mul]
    exact Finset.sum_le_card_nsmul rows y (y k) hmax
  have := hy k hk
  omega

section big
variable {P : Type*} [DecidableEq R] {rows : Finset R} {cols : Finset C} {pairs : Finset P} {row : P → R} {col : P → C}

/-- The pairs of a matching are pairs of an assignment of all rows. -/
theorem exists_extension [Nonempty C] (hcard : rows.card ≤ cols.card) (hrow : ∀ p ∈ pairs, row p ∈ rows)
    (hcol : ∀ p ∈ pairs, col p ∈ cols) (hrinj : Set.InjOn row pairs) (hcinj : Set.InjOn col pairs) :
    ∃ g : R → C, (∀ i ∈ rows, g i ∈ cols) ∧ Set.InjOn g rows ∧ ∀ p ∈ pairs, g (row p) = col p := by
  classical
  have hpairs : (pairs.image col).card ≤ rows.card := by
    rw [Finset.card_image_of_injOn hcinj, ← Finset.card_image_of_injOn hrinj]
    exact Finset.card_le_card (Finset.image_subset_iff.mpr hrow)
  -- as many columns as rows, the columns of the matching among them
  obtain ⟨t, hsub, htcols, htcard⟩ :=
    Finset.exists_subsuperset_card_eq (Finset.image_subset_iff.mpr hcol) hpairs hcard
  have hex : ∀ i : rows, ∃ c : C, ∀ p ∈ pairs, row p = i → col p = c := by
    intro i
    by_cases h : ∃ p ∈ pairs, row p = i
    · obtain ⟨p, hp, hpi⟩ := h
      exact ⟨col p, fun q hq hqi => congrArg col (hrinj hq hp (hqi.trans hpi.symm))⟩
    · exact ⟨Classical.arbitrary C, fun q hq hqi => absurd ⟨q, hq, hqi⟩ h⟩
  choose f hf using hex
  have hmaps : Set.MapsTo f {i | ∃ p ∈ pairs, row p = i} t := by
    intro i ⟨p, hp, hpi⟩
    rw [← hf i p hp hpi]
    exact hsub (Finset.mem_image_of_mem col hp)
  have hinj : Set.InjOn f {i | ∃ p ∈ pairs, row p = i} := by
    intro i ⟨p, hp, hpi⟩ j ⟨q, hq, hqj⟩ he
    rw [← hf i p hp hpi, ← hf j q hq hqj] at he
    rw [hcinj hp hq he] at hpi
    exact Subtype.ext (hpi.symm.trans hqj)
  obtain ⟨e, he⟩ := hmaps.exists_equiv_extend_of_card_eq (by rw [Fintype.card_coe, htcard]) hinj
  refine ⟨fun i => if h : i ∈ rows then e ⟨i, h⟩ else Classical.arbitrary C, ?_, ?_, ?_⟩
  · intro i hi
    dsimp only
    rw [dif_pos hi]
    exact htcols (e ⟨i, hi⟩).2
  · intro i hi j hj hij
    simp only [Finset.mem_coe] at hi hj
    simp only [dif_pos hi, dif_pos hj] at hij
    exact congrArg Subtype.val (e.injective (Subtype.ext hij))
  · intro p hp
    dsimp only
    rw [dif_pos (hrow p hp), he ⟨row p, hrow p hp⟩ ⟨p, hp, rfl⟩]
    exact (hf _ p hp rfl).symm

variable {a : R → C → ℤ} {r : R → C} {big : ℤ}

/-- An optimal assignment costs `big` for every row it does not keep, a matching no more than that for every row it
does not match. -/
theorem kept_add_le_of_big [Nonempty C] (hcard : rows.card ≤ cols.card) (hbig : ∀ i ∈ rows, ∀ j ∈ cols, a i j ≤ big)
    (hr : ∀ i ∈ rows, r i ∈ cols)
    (hopt : ∀ g : R → C, (∀ i ∈ rows, g i ∈ cols) → Set.InjOn g rows → ∑ i ∈ rows, a i (r i) ≤ ∑ i ∈ rows, a i (g i))
    (hrow : ∀ p ∈ pairs, row p ∈ rows) (hcol : ∀ p ∈ pairs, col p ∈ cols) (hrinj : Set.InjOn row pairs)
    (hcinj : Set.InjOn col pairs) :
    ∑ i ∈ rows with a i (r i) < big, a i (r i) + (pairs.card - (rows.filter fun i => a i (r i) < big).card) * big ≤
      ∑ p ∈ pairs, a (row p) (col p) := by
  obtain ⟨g, hg, hginj, hgp⟩ := exists_extension hcard hrow hcol hrinj hcinj
  have hkept : ∑ i ∈ rows with ¬ a i (r i) < big, a i (r i) =
      (rows.card - (rows.filter fun i => a i (r i) < big).card) * big := by
    have hall : ∀ i ∈ rows.filter (fun i => ¬ a i (r i) < big), a i (r i) = big := fun i hi =>
      le_antisymm (hbig i (Finset.mem_filter.mp hi).1 _ (hr i (Finset.mem_filter.mp hi).1))
        (not_lt.mp (Finset.mem_filter.mp hi).2)
    have hsplit := Finset.card_filter_add_card_filter_not (s := rows) fun i => a i (r i) < big
    rw [Finset.sum_congr rfl hall, Finset.sum_const, nsmul_eq_mul]
    congr 1
    omega
  have hrows := Finset.sum_filter_add_sum_filter_not rows (fun i => a i (r i) < big) fun i => a i (r i)
  have hmatched : ∑ i ∈ pairs.image row, a i (g i) = ∑ p ∈ pairs, a (row p) (col p) := by
    rw [Finset.sum_image hrinj]
    exact Finset.sum_congr rfl fun p hp => by rw [hgp p hp]
  have hsub : pairs.image row ⊆ rows := Finset.image_subset_iff.mpr hrow
  have hrest : ∑ i ∈ rows \ pairs.image row, a i (g i) ≤ (rows.card - pairs.card) * big := by
    have hle := Finset.sum_le_card_nsmul (rows \ pairs.image row) (fun i => a i (g i)) big fun i hi =>
      hbig i (Finset.mem_sdiff.mp hi).1 _ (hg i (Finset.mem_sdiff.mp hi).1)
    have hle' := Finset.card_le_card hsub
    rw [nsmul_eq_mul, Finset.card_sdiff_of_subset hsub, Nat.cast_sub hle', Finset.card_image_of_injOn hrinj] at hle
    exact hle
  have hg' := Finset.sum_sdiff (f := fun i => a i (g i)) hsub
  have hle := hopt g hg hginj
  rw [← hrows, ← hg', hkept, hmatched] at hle
  linarith

/-- A matching whose pairs are small against `big` costs less than `big`. -/
theorem sum_lt_big {x : P → ℤ} {n : ℕ} (hn : pairs.card ≤ n) (hnonneg : ∀ p ∈ pairs, 0 ≤ x p)
    (hcheap : ∀ p ∈ pairs, n * x p < big) (hne : pairs.Nonempty) : ∑ p ∈ pairs, x p < big := by
  obtain ⟨q, hq, hmax⟩ := Finset.exists_max_image pairs x hne
  calc
    ∑ p ∈ pairs, x p ≤ pairs.card * x q := by
      rw [← nsmul_eq_mul]
      exact Finset.sum_le_card_nsmul pairs x (x q) hmax
    _ ≤ n * x q := mul_le_mul_of_nonneg_right (by exact_mod_cast hn) (hnonneg q hq)
    _ < big := hcheap q hq

/-- **No matching of small pairs has more of them than an optimal assignment keeps.** -/
theorem card_le_of_big [Nonempty C] (hcard : rows.card ≤ cols.card)
    (hbounds : ∀ i ∈ rows, ∀ j ∈ cols, 0 ≤ a i j ∧ a i j ≤ big) (hr : ∀ i ∈ rows, r i ∈ cols)
    (hopt : ∀ g : R → C, (∀ i ∈ rows, g i ∈ cols) → Set.InjOn g rows → ∑ i ∈ rows, a i (r i) ≤ ∑ i ∈ rows, a i (g i))
    (hrow : ∀ p ∈ pairs, row p ∈ rows) (hcol : ∀ p ∈ pairs, col p ∈ cols) (hrinj : Set.InjOn row pairs)
    (hcinj : Set.InjOn col pairs) (hcheap : ∀ p ∈ pairs, rows.card * a (row p) (col p) < big) :
    pairs.card ≤ (rows.filter fun i => a i (r i) < big).card := by
  by_contra hmore
  have hnonneg : ∀ p ∈ pairs, 0 ≤ a (row p) (col p) := fun p hp => (hbounds _ (hrow p hp) _ (hcol p hp)).1
  have hn : pairs.card ≤ rows.card := by
    rw [← Finset.card_image_of_injOn hrinj]
    exact Finset.card_le_card (Finset.image_subset_iff.mpr hrow)
  have hlt := sum_lt_big hn hnonneg hcheap (Finset.card_pos.mp (by omega))
  have hle := kept_add_le_of_big hcard (fun i hi j hj => (hbounds i hi j hj).2) hr hopt hrow hcol hrinj hcinj
  have hkept : 0 ≤ ∑ i ∈ rows with a i (r i) < big, a i (r i) := Finset.sum_nonneg fun i hi =>
    (hbounds i (Finset.mem_filter.mp hi).1 _ (hr i (Finset.mem_filter.mp hi).1)).1
  have hsum : 0 ≤ ∑ p ∈ pairs, a (row p) (col p) := Finset.sum_nonneg hnonneg
  have hpos : 0 ≤ big := by omega
  have hmul : big ≤ (pairs.card - (rows.filter fun i => a i (r i) < big).card : ℤ) * big :=
    le_mul_of_one_le_left hpos (by omega)
  omega

/-- **Of the matchings with as many pairs as are kept, none is cheaper.** -/
theorem sum_le_of_big [Nonempty C] (hcard : rows.card ≤ cols.card) (hbig : ∀ i ∈ rows, ∀ j ∈ cols, a i j ≤ big)
    (hr : ∀ i ∈ rows, r i ∈ cols)
    (hopt : ∀ g : R → C, (∀ i ∈ rows, g i ∈ cols) → Set.InjOn g rows → ∑ i ∈ rows, a i (r i) ≤ ∑ i ∈ rows, a i (g i))
    (hrow : ∀ p ∈ pairs, row p ∈ rows) (hcol : ∀ p ∈ pairs, col p ∈ cols) (hrinj : Set.InjOn row pairs)
    (hcinj : Set.InjOn col pairs) (hsame : pairs.card = (rows.filter fun i => a i (r i) < big).card) :
    ∑ i ∈ rows with a i (r i) < big, a i (r i) ≤ ∑ p ∈ pairs, a (row p) (col p) := by
  have hle := kept_add_le_of_big hcard hbig hr hopt hrow hcol hrinj hcinj
  rwa [hsame, sub_self, zero_mul, add_zero] at hle

end big

end TtAiops.Lib
