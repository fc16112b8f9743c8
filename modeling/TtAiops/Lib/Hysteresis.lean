import Mathlib.Data.Nat.Count
import Mathlib.Order.WithBot

/-!
# Levels with hysteresis

A quantity has one of `n + 1` levels, by how many of `n` boundaries it has reached. A level that is kept over time follows
the quantity down at once, and up past a boundary only when the quantity is a band above it.

* `lt_reached` : the boundaries that are reached are the first ones;
* `settle` : the level that is kept next, the kept one brought between the level of the quantity and the level reached with
  the band;
* `settle_mono`, `settle_of_lt`, `reached_of_lt_settle` : it is monotone in the kept level, goes down at once, and up past
  boundaries that the quantity has left behind by the band only;
* `changes`, `changes_scanl` : **what every input leaves as it is or brings to one value, where it stays, changes at most once**.
-/

namespace TtAiops.Lib.Hysteresis

variable {α : Type*} [Preorder α] [DecidableLE α]

def reached (bound : ℕ → α) (n : ℕ) (s : α) : ℕ := Nat.count (fun k => bound k ≤ s) n

theorem lt_reached {bound : ℕ → α} (hbound : Monotone bound) {n k : ℕ} {s : α} :
    k < reached bound n s ↔ k < n ∧ bound k ≤ s := by
  have hprefix : ∀ m, bound m ≤ s → ∀ j ≤ m, bound j ≤ s := fun m hm j hj => (hbound hj).trans hm
  unfold reached
  induction n with
  | zero => simp
  | succ n ih =>
    simp only [Nat.count_succ]
    by_cases hn : bound n ≤ s
    · have hall : Nat.count (fun k => bound k ≤ s) n = n :=
        Nat.count_iff_forall.mpr fun j hj => hprefix n hn j hj.le
      rw [if_pos hn, hall]
      exact ⟨fun hk => ⟨hk, hprefix n hn k (Nat.le_of_lt_succ hk)⟩, And.left⟩
    · rw [if_neg hn, Nat.add_zero]
      refine ih.trans ⟨fun h => ⟨h.1.trans n.lt_succ_self, h.2⟩, fun h => ⟨?_, h.2⟩⟩
      refine lt_of_le_of_ne (Nat.le_of_lt_succ h.1) ?_
      rintro rfl
      exact hn h.2

theorem reached_le_reached {bound bound' : ℕ → α} (h : ∀ k, bound k ≤ bound' k) (n : ℕ) (s : α) :
    reached bound' n s ≤ reached bound n s := by
  unfold reached
  exact Nat.count_mono_left fun k _ hk => (h k).trans hk

/-- The level that is kept next. The second boundaries are the first ones with the band. -/
def settle (bound banded : ℕ → α) (n : ℕ) (kept : ℕ) (s : α) : ℕ :=
  max (reached banded n s) (min (reached bound n s) kept)

section Settle

variable {bound banded : ℕ → α} {n kept kept' k : ℕ} {s : α}

theorem settle_mono (h : kept ≤ kept') : settle bound banded n kept s ≤ settle bound banded n kept' s :=
  max_le_max le_rfl (min_le_min le_rfl h)

theorem settle_of_lt (hband : ∀ k, bound k ≤ banded k) (h : reached bound n s ≤ kept) :
    settle bound banded n kept s = reached bound n s := by
  unfold settle
  rw [min_eq_left h]
  exact max_eq_right (reached_le_reached hband n s)

theorem reached_of_lt_settle (hbanded : Monotone banded) (hkept : kept ≤ k) (h : k < settle bound banded n kept s) :
    banded k ≤ s := by
  rcases lt_max_iff.mp h with h | h
  · exact ((lt_reached hbanded).mp h).2
  · exact absurd (lt_min_iff.mp h).2 (Nat.not_lt.mpr hkept)

end Settle

/-! ## How often the level changes -/

def changes {β : Type*} [DecidableEq β] : List β → ℕ
  | [] => 0
  | [_] => 0
  | x :: y :: l => (if x = y then 0 else 1) + changes (y :: l)

theorem changes_const {β : Type*} [DecidableEq β] {x : β} {l : List β} (h : ∀ y ∈ l, y = x) : changes l = 0 := by
  induction l with
  | nil => rfl
  | cons y l ih =>
    have hl := ih fun z hz => h z (List.mem_cons_of_mem _ hz)
    cases l with
    | nil => rfl
    | cons z l =>
      rw [changes, if_pos ((h y (by simp)).trans (h z (by simp)).symm), hl]

section Scan

variable {S I β : Type*} {step : S → I → S} {view : S → β} {low : β} {R : S → I → Prop}

/-- The inputs come in states in which they are as `R` says. -/
def Along (step : S → I → S) (R : S → I → Prop) (inputs : List I) (s : S) : Prop :=
  ∀ pre i post, inputs = pre ++ i :: post → R (pre.foldl step s) i

theorem Along.cons {i : I} {inputs : List I} {s : S} (h : Along step R (i :: inputs) s) :
    R s i ∧ Along step R inputs (step s i) := by
  refine ⟨h [] i inputs rfl, ?_⟩
  intro pre j post heq
  exact h (i :: pre) j post (by rw [heq, List.cons_append])

theorem view_scanl_low (hlow : ∀ s i, R s i → view s = low → view (step s i) = low) {inputs : List I} {s : S}
    (halong : Along step R inputs s) (hs : view s = low) : ∀ y ∈ (inputs.scanl step s).map view, y = low := by
  induction inputs generalizing s with
  | nil => simpa using hs
  | cons i inputs ih =>
    rw [List.scanl_cons, List.map_cons]
    exact List.forall_mem_cons.mpr ⟨hs, ih halong.cons.2 (hlow s i halong.cons.1 hs)⟩

variable [DecidableEq β]

theorem changes_cons_scanl (x : β) (inputs : List I) (s : S) :
    changes (x :: (inputs.scanl step s).map view) =
      (if x = view s then 0 else 1) + changes ((inputs.scanl step s).map view) := by
  cases inputs <;> simp [changes]

variable (low) in
/-- **What every input leaves as it is or brings to one value, where it stays, changes at most once.** -/
theorem changes_scanl {P : β → Prop} (hlow : ∀ s i, R s i → view s = low → view (step s i) = low)
    (hstep : ∀ s i, R s i → P (view s) → view (step s i) = view s ∨ view (step s i) = low) {inputs : List I} {s : S}
    (halong : Along step R inputs s) (hs : P (view s)) : changes ((inputs.scanl step s).map view) ≤ 1 := by
  induction inputs generalizing s with
  | nil => simp [changes]
  | cons i inputs ih =>
    obtain ⟨hi, hrest⟩ := halong.cons
    rw [List.scanl_cons, List.map_cons, changes_cons_scanl]
    rcases hstep s i hi hs with hsame | hnow
    · rw [if_pos hsame.symm, Nat.zero_add]
      exact ih hrest (hsame ▸ hs)
    · rw [changes_const (view_scanl_low hlow hrest hnow)]
      split_ifs <;> simp

end Scan

end TtAiops.Lib.Hysteresis
