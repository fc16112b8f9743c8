import Mathlib

/-!
# The nearest of a list

A loop over a list that notes an element when it is nearer than the best one so far, from a bound on.

* `scan` : the loop;
* `Nearest` : an element below the bound, nearer than all in front of it and not farther than those behind it;
* `scan_eq_some_iff` : **the loop ends with this element, if there is one**;
* `scan_mono` : a wider bound does not change what was found.
-/

namespace TtAiops.Lib

variable {ι K : Type*} [LinearOrder K] (d : ι → K)

/-- A turn of the loop, over the best element and its distance. -/
def scanStep (acc : Option ι × K) (x : ι) : Option ι × K := if d x < acc.2 then (some x, d x) else acc

/-- The loop, from a bound on. -/
def scan (bound : K) (l : List ι) : Option ι := (l.foldl (scanStep d) (none, bound)).1

/-- The element is below the bound, nearer than all in front of it, and not farther than those behind it. -/
def Nearest (bound : K) (l : List ι) (i : ι) : Prop :=
  d i < bound ∧ ∃ pre post, l = pre ++ i :: post ∧ (∀ x ∈ pre, d i < d x) ∧ ∀ x ∈ post, d i ≤ d x

variable {d} {bound : K} {l : List ι}

theorem Nearest.mem {i : ι} (h : Nearest d bound l i) : i ∈ l := by
  obtain ⟨-, pre, post, rfl, -, -⟩ := h
  exact List.mem_append_right pre List.mem_cons_self

theorem Nearest.le {i : ι} (h : Nearest d bound l i) : ∀ x ∈ l, d i ≤ d x := by
  obtain ⟨-, pre, post, rfl, hpre, hpost⟩ := h
  intro x hx
  rcases List.mem_append.mp hx with hx | hx
  · exact (hpre x hx).le
  · rcases List.mem_cons.mp hx with rfl | hx
    · exact le_rfl
    · exact hpost x hx

/-- One element more: it is the nearest if it is nearer than the bound and all before. -/
theorem Nearest.concat_new {x : ι} (hx : d x < bound) (hall : ∀ y ∈ l, d x < d y) : Nearest d bound (l ++ [x]) x :=
  ⟨hx, l, [], rfl, hall, fun _ hy => absurd hy List.not_mem_nil⟩

theorem Nearest.concat_old {i x : ι} (h : Nearest d bound l i) (hx : d i ≤ d x) : Nearest d bound (l ++ [x]) i := by
  obtain ⟨hi, pre, post, rfl, hpre, hpost⟩ := h
  refine ⟨hi, pre, post ++ [x], by simp, hpre, fun y hy => ?_⟩
  rcases List.mem_append.mp hy with hy | hy
  · exact hpost y hy
  · rw [List.mem_singleton.mp hy]
    exact hx

/-- After every turn the loop has the nearest element of what it has seen, or none was below the bound. -/
theorem scan_inv (d : ι → K) (bound : K) (l : List ι) :
    (l.foldl (scanStep d) (none, bound) = (none, bound) ∧ ∀ x ∈ l, bound ≤ d x) ∨
      ∃ i, l.foldl (scanStep d) (none, bound) = (some i, d i) ∧ Nearest d bound l i := by
  induction l using List.reverseRecOn with
  | nil => exact Or.inl ⟨rfl, fun _ hx => absurd hx List.not_mem_nil⟩
  | append_singleton l x ih =>
    rw [List.foldl_append, List.foldl_cons, List.foldl_nil]
    rcases ih with ⟨hfold, hall⟩ | ⟨i, hfold, hi⟩ <;> rw [hfold, scanStep] <;> dsimp only
    · split_ifs with hx
      · exact Or.inr ⟨x, rfl, Nearest.concat_new hx fun y hy => hx.trans_le (hall y hy)⟩
      · refine Or.inl ⟨rfl, fun y hy => ?_⟩
        rcases List.mem_append.mp hy with hy | hy
        · exact hall y hy
        · rw [List.mem_singleton.mp hy]
          exact not_lt.mp hx
    · split_ifs with hx
      · exact Or.inr ⟨x, rfl, Nearest.concat_new (hx.trans hi.1) fun y hy => hx.trans_le (hi.le y hy)⟩
      · exact Or.inr ⟨i, rfl, hi.concat_old (not_lt.mp hx)⟩

theorem Nearest.unique {i j : ι} (hi : Nearest d bound l i) (hj : Nearest d bound l j) : i = j := by
  obtain ⟨-, pre, post, hl, hpre, hpost⟩ := hi
  have hij := hj.le i (by rw [hl]; simp)
  obtain ⟨-, pre', post', hl', hpre', hpost'⟩ := hj
  rw [hl] at hl'
  rcases List.append_eq_append_iff.mp hl' with ⟨front, rfl, hrest⟩ | ⟨front, rfl, hrest⟩
  · cases front with
    | nil => exact (List.cons.inj hrest).1
    | cons y front =>
      obtain ⟨rfl, -⟩ := List.cons.inj hrest
      exact absurd (hpre' i (by simp)) (not_lt.mpr (hpost j (by rw [(List.cons.inj hrest).2]; simp)))
  · cases front with
    | nil => exact (List.cons.inj hrest).1.symm
    | cons y front =>
      obtain ⟨rfl, -⟩ := List.cons.inj hrest
      exact absurd (hpre j (by simp)) (not_lt.mpr hij)

/-- **The loop ends with the nearest element.** -/
theorem scan_eq_some_iff {i : ι} : scan d bound l = some i ↔ Nearest d bound l i := by
  unfold scan
  rcases scan_inv d bound l with ⟨hfold, hall⟩ | ⟨j, hfold, hj⟩ <;> rw [hfold]
  · exact iff_of_false (by simp) fun h => absurd h.1 (not_lt.mpr (hall i h.mem))
  · exact ⟨fun h => Option.some_inj.mp h ▸ hj, fun h => congrArg some (hj.unique h)⟩

/-- **A wider bound does not change what was found.** -/
theorem scan_mono {bound' : K} (hle : bound ≤ bound') {i : ι} (h : scan d bound l = some i) : scan d bound' l = some i := by
  obtain ⟨hi, hrest⟩ := scan_eq_some_iff.mp h
  exact scan_eq_some_iff.mpr ⟨hi.trans_le hle, hrest⟩

end TtAiops.Lib
