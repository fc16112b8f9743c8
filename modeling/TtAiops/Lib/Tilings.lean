import Mathlib

/-!
# Divisions of the integers, and ranges that tile them

* `Division` : consecutive parts, each given by its first element, with the part of every element;
* `part_eq_iff`, `part_start`, `part_start_sub_one`, `part_monotone` : which part an element is in;
* `Division.blocks` : parts of one length;
* `Tiles` : ranges, the newest first, each of which ends right before the next newer one starts;
* `Tiles.countP_eq` : **every element from the oldest start to the newest end is in exactly one of them**;
* `Division.tiles` : the last parts up to an element, the last of them cut there, are such ranges.
-/

namespace TtAiops.Lib

structure Division where
  start : ℤ → ℤ
  part : ℤ → ℤ
  start_lt_succ : ∀ k, start k < start (k + 1)
  start_part_le : ∀ d, start (part d) ≤ d
  lt_start_part_succ : ∀ d, d < start (part d + 1)

namespace Division
variable (D : Division)

theorem start_strictMono : StrictMono D.start := strictMono_int_of_lt_succ D.start_lt_succ

theorem part_eq_iff {d k : ℤ} : D.part d = k ↔ D.start k ≤ d ∧ d < D.start (k + 1) := by
  refine ⟨fun h => h ▸ ⟨D.start_part_le d, D.lt_start_part_succ d⟩, fun ⟨hle, hlt⟩ => ?_⟩
  have hk : k < D.part d + 1 := D.start_strictMono.lt_iff_lt.mp (hle.trans_lt (D.lt_start_part_succ d))
  have hp : D.part d < k + 1 := D.start_strictMono.lt_iff_lt.mp ((D.start_part_le d).trans_lt hlt)
  omega

@[simp] theorem part_start (k : ℤ) : D.part (D.start k) = k :=
  D.part_eq_iff.mpr ⟨le_rfl, D.start_lt_succ k⟩

theorem part_monotone : Monotone D.part := fun a b hab => by
  have hlt : D.part a < D.part b + 1 :=
    D.start_strictMono.lt_iff_lt.mp (((D.start_part_le a).trans hab).trans_lt (D.lt_start_part_succ b))
  omega

/-- What is before the first element of a part is in the part before. -/
theorem part_start_sub_one (k : ℤ) : D.part (D.start k - 1) = k - 1 := by
  have hlt := D.start_lt_succ (k - 1)
  rw [sub_add_cancel] at hlt
  refine D.part_eq_iff.mpr ⟨by omega, ?_⟩
  rw [sub_add_cancel]
  exact sub_one_lt _

/-- Parts of `n` elements each, one of which begins with `o`. -/
def blocks (o : ℤ) (n : ℕ) (hn : 0 < n) : Division where
  start := fun k => o + n * k
  part := fun d => (d - o) / n
  start_lt_succ := fun k => by
    rw [mul_add, mul_one]
    omega
  start_part_le := fun d => by
    have hle := Int.mul_ediv_self_le (x := d - o) (k := n) (by omega)
    omega
  lt_start_part_succ := fun d => by
    have hlt := Int.lt_mul_ediv_self_add (x := d - o) (k := n) (by omega)
    rw [mul_add, mul_one]
    omega

end Division

section Tiles
variable {R : Type*} (lo hi : R → ℤ)

/-- The ranges are not empty, the first ends at `e`, and each of the others right before the one in front of it starts. -/
def Tiles : ℤ → List R → Prop
  | _, [] => True
  | e, r :: rs => hi r = e ∧ lo r ≤ hi r ∧ Tiles (lo r - 1) rs

variable {lo hi} {e : ℤ} {rs : List R}

theorem Tiles.oldest_le (h : Tiles lo hi e rs) (hne : rs ≠ []) : lo (rs.getLast hne) ≤ e := by
  induction rs generalizing e with
  | nil => exact absurd rfl hne
  | cons r rs ih =>
    obtain ⟨hhi, hle, hrest⟩ := h
    cases rs with
    | nil => exact hle.trans hhi.le
    | cons r' rs =>
      have hold := ih hrest (List.cons_ne_nil _ _)
      rw [List.getLast_cons (List.cons_ne_nil r' rs)]
      omega

/-- **Each element from the oldest start to the newest end is in one of the ranges, and no other element in any.** -/
theorem Tiles.countP_eq (h : Tiles lo hi e rs) (hne : rs ≠ []) (d : ℤ) :
    rs.countP (fun r => lo r ≤ d ∧ d ≤ hi r) = if lo (rs.getLast hne) ≤ d ∧ d ≤ e then 1 else 0 := by
  induction rs generalizing e with
  | nil => exact absurd rfl hne
  | cons r rs ih =>
    obtain ⟨rfl, hle, hrest⟩ := h
    cases rs with
    | nil =>
      simp only [List.countP_singleton, List.getLast_singleton, decide_eq_true_eq]
      congr
    | cons r' rs =>
      have hold := hrest.oldest_le (List.cons_ne_nil _ _)
      rw [List.countP_cons, ih hrest (List.cons_ne_nil _ _), List.getLast_cons (List.cons_ne_nil r' rs)]
      simp only [decide_eq_true_eq]
      split_ifs <;> omega

theorem tiles_of_get (hfirst : ∀ r ∈ rs.head?, hi r = e) (hle : ∀ i (h : i < rs.length), lo rs[i] ≤ hi rs[i])
    (hnext : ∀ i (h : i + 1 < rs.length), hi rs[i + 1] = lo rs[i] - 1) : Tiles lo hi e rs := by
  induction rs generalizing e with
  | nil => exact trivial
  | cons r rs ih =>
    refine ⟨hfirst r rfl, hle 0 (Nat.succ_pos _), ih (fun r' hr' => ?_) (fun i h => ?_) (fun i h => ?_)⟩
    · cases rs with
      | nil => cases hr'
      | cons r'' rs =>
        obtain rfl := Option.some.inj hr'
        exact hnext 0 (by simp)
    · exact hle (i + 1) (Nat.succ_lt_succ h)
    · exact hnext (i + 1) (Nat.succ_lt_succ h)

theorem Division.tiles (D : Division) (hlo : ∀ i (h : i < rs.length), lo rs[i] = D.start (D.part e - i))
    (hhi : ∀ i (h : i < rs.length), hi rs[i] = min (D.start (D.part e - i + 1) - 1) e) : Tiles lo hi e rs := by
  have hstart := D.start_part_le e
  have hend := D.lt_start_part_succ e
  have hpart : ∀ i : ℕ, D.start (D.part e - i) < D.start (D.part e - i + 1) := fun i => D.start_lt_succ _
  have hold : ∀ i : ℕ, D.start (D.part e - i) ≤ D.start (D.part e) :=
    fun i => D.start_strictMono.monotone (by omega)
  refine tiles_of_get (fun r hr => ?_) (fun i h => ?_) (fun i h => ?_)
  · cases rs with
    | nil => cases hr
    | cons r' rs =>
      obtain rfl := Option.some.inj hr
      have hfirst := hhi 0 (Nat.succ_pos _)
      rw [Nat.cast_zero, sub_zero] at hfirst
      exact hfirst.trans (min_eq_right (by omega))
  · rw [hlo i h, hhi i h]
    have := hpart i
    have := hold i
    omega
  · rw [hhi (i + 1) h, hlo i (by omega), Nat.cast_succ, show D.part e - (i + 1) + 1 = D.part e - i by ring]
    have := hold i
    omega

end Tiles

end TtAiops.Lib
