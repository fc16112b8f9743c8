import Mathlib

/-!
# Columns with nulls

Aggregates that leave nulls out, and are null themselves when there is nothing else.

* `sumN`, `sumN_isSome`, `sumN_map_isSome`, `sumN_map_getD` : `sum`, null exactly when every value is;
* `avgN` : `avg` of the values that are there;
* `nullif`, `divN` : a quotient that is null when the divisor is null or zero;
* `positive` : a comparison that a null does not pass.
-/

namespace TtAiops.Lib

variable {α : Type*}

/-- The sum of the values that are not null. -/
def sumN [Add α] [Zero α] (l : List (Option α)) : Option α :=
  if l.reduceOption = [] then none else some l.reduceOption.sum

theorem sumN_isSome [Add α] [Zero α] {l : List (Option α)} : (sumN l).isSome ↔ ∃ x ∈ l, x.isSome := by
  have hmem : l.reduceOption = [] ↔ ¬ ∃ x ∈ l, x.isSome := by
    rw [List.eq_nil_iff_forall_not_mem]
    simp only [List.reduceOption_mem_iff, Option.isSome_iff_exists]
    constructor
    · intro h ⟨x, hx, a, ha⟩
      exact h a (ha ▸ hx)
    · intro h a ha
      exact h ⟨some a, ha, a, rfl⟩
  unfold sumN
  split
  · rename_i h
    simpa using hmem.mp h
  · rename_i h
    simpa using not_not.mp (mt hmem.mpr h)

theorem reduceOption_map_some (l : List α) : (l.map some).reduceOption = l := by
  induction l with
  | nil => rfl
  | cons a l ih => rw [List.map_cons, List.reduceOption_cons_of_some, ih]

theorem isSome_map₂ {β γ : Type*} {f : α → β → γ} {a : Option α} {b : Option β} :
    (Option.map₂ f a b).isSome ↔ a.isSome ∧ b.isSome := by
  cases a <;> cases b <;> simp

theorem sumN_map_isSome [Add α] [Zero α] {R : Type*} {f : R → Option α} {rows : List R} :
    (sumN (rows.map f)).isSome ↔ ∃ r ∈ rows, (f r).isSome := by
  rw [sumN_isSome]
  constructor
  · intro ⟨_, hx, hsome⟩
    obtain ⟨r, hr, rfl⟩ := List.mem_map.mp hx
    exact ⟨r, hr, hsome⟩
  · intro ⟨r, hr, hsome⟩
    exact ⟨f r, List.mem_map.mpr ⟨r, hr, rfl⟩, hsome⟩

theorem sum_reduceOption_map [AddMonoid α] {R : Type*} (f : R → Option α) (rows : List R) :
    (rows.map f).reduceOption.sum = (rows.map fun r => (f r).getD 0).sum := by
  induction rows with
  | nil => rfl
  | cons r rows ih => cases hf : f r <;> simp [hf, ih]

theorem sumN_map_getD [AddMonoid α] {R : Type*} (f : R → Option α) (rows : List R) :
    (sumN (rows.map f)).getD 0 = (rows.map fun r => (f r).getD 0).sum := by
  rw [← sum_reduceOption_map]
  unfold sumN
  split
  · rename_i h
    rw [h]
    rfl
  · rfl

/-- The mean of the values that are not null. -/
def avgN [DivisionRing α] (l : List (Option α)) : Option α := (sumN l).map (· / l.reduceOption.length)

/-- `nullif(x, 0)`. -/
def nullif [Zero α] [DecidableEq α] (x : Option α) : Option α := x.filter (· ≠ 0)

/-- A quotient with nulls. -/
def divN [Div α] (x y : Option α) : Option α := Option.map₂ (· / ·) x y

/-- `x > 0`, where a null counts as no. -/
def positive [Zero α] [LT α] [DecidableLT α] (x : Option α) : Bool := x.any (0 < ·)

theorem positive_iff [Zero α] [Preorder α] [DecidableLT α] {x : Option α} : positive x = true ↔ 0 < x.getD 0 := by
  cases x <;> simp [positive]

theorem divN_nullif [Zero α] [Div α] [DecidableEq α] {x : Option α} {y : α} (hy : y ≠ 0) :
    divN x (nullif (some y)) = x.map (· / y) := by
  cases x <;> simp [divN, nullif, hy]

end TtAiops.Lib
