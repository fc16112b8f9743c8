import Mathlib.Algebra.BigOperators.Field
import Mathlib.Algebra.Order.BigOperators.Ring.Finset
import Mathlib.Tactic.FieldSimp
import Mathlib.Tactic.Linarith
import Mathlib.Tactic.Positivity

/-!
# Effective degrees of freedom

Independent estimates `x i` of parts of a variance, each with `p i` degrees of freedom, have together about
`(∑ x i)² / ∑ (x i)² / p i` of them.

* `freedom` : this number;
* `freedom_le_sum`, `le_freedom` : **it is at most the sum of the degrees of freedom and at least the least of them**, also
  when some of the parts are zero.
-/

namespace TtAiops.Lib

variable {ι K : Type*} [Field K] [LinearOrder K] [IsStrictOrderedRing K]

/-- The effective degrees of freedom of the sum of the parts `x`. -/
def freedom (s : Finset ι) (x p : ι → K) : K := (∑ i ∈ s, x i) ^ 2 / ∑ i ∈ s, x i ^ 2 / p i

variable {s : Finset ι} {x p : ι → K}

theorem sum_sq_div_pos (hp : ∀ i ∈ s, 0 < p i) (hx : 0 < ∑ i ∈ s, x i) : 0 < ∑ i ∈ s, x i ^ 2 / p i := by
  have hsum : 0 < ∑ i ∈ s, p i := by
    apply Finset.sum_pos hp
    by_contra hempty
    rw [Finset.not_nonempty_iff_eq_empty.mp hempty] at hx
    exact lt_irrefl 0 hx
  calc 0 < (∑ i ∈ s, x i) ^ 2 / ∑ i ∈ s, p i := by positivity
    _ ≤ ∑ i ∈ s, x i ^ 2 / p i := Finset.sq_sum_div_le_sum_sq_div s x hp

theorem freedom_le_sum (hp : ∀ i ∈ s, 0 < p i) (hx : 0 < ∑ i ∈ s, x i) : freedom s x p ≤ ∑ i ∈ s, p i := by
  have hnonneg : ∀ i ∈ s, 0 ≤ p i := fun i hi => (hp i hi).le
  rw [freedom, div_le_iff₀ (sum_sq_div_pos hp hx)]
  refine Finset.sum_sq_le_sum_mul_sum_of_sq_le_mul s hnonneg (fun i hi => ?_) fun i hi => ?_
  · exact div_nonneg (sq_nonneg _) (hnonneg i hi)
  · rw [mul_div_cancel₀ _ (hp i hi).ne']

/-- Squares of parts that are not negative add up to no more than the square of their sum. -/
theorem sum_sq_le_sq (hx : ∀ i ∈ s, 0 ≤ x i) : ∑ i ∈ s, x i ^ 2 ≤ (∑ i ∈ s, x i) ^ 2 := by
  rw [sq, Finset.sum_mul]
  refine Finset.sum_le_sum fun i hi => ?_
  rw [sq]
  exact mul_le_mul_of_nonneg_left (Finset.single_le_sum hx hi) (hx i hi)

theorem le_freedom {c : K} (hp : ∀ i ∈ s, 0 < p i) (hc : ∀ i ∈ s, c ≤ p i) (hx : ∀ i ∈ s, 0 ≤ x i)
    (hpos : 0 < ∑ i ∈ s, x i) : c ≤ freedom s x p := by
  rw [freedom, le_div_iff₀ (sum_sq_div_pos hp hpos), Finset.mul_sum]
  refine (Finset.sum_le_sum fun i hi => ?_).trans (sum_sq_le_sq hx)
  rw [mul_div_left_comm]
  exact mul_le_of_le_one_right (sq_nonneg _) ((div_le_one (hp i hi)).mpr (hc i hi))

end TtAiops.Lib
