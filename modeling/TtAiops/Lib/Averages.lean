import Mathlib.Algebra.BigOperators.Group.List.Basic
import Mathlib.Algebra.Order.Field.Basic
import Mathlib.Data.List.Induction
import Mathlib.Tactic.FieldSimp
import Mathlib.Tactic.Ring

/-!
# Averages that forget

Values with weights, and two ways to take up a new value: it is mixed in with a share of its own, or the weights before it are
scaled down.

* `weigh`, `scale` : the weighted sum of a quantity, and scaled weights;
* `mix`, `weigh_mix`, `variance_mix` : a value mixed in, and **the mean and the variance then**;
* `capped`, `capped_concat` : equal weights up to a number of values and geometric ones beyond it, which is what mixing in
  with the share of one over that number comes to;
* `elapsed`, `faded`, `faded_concat` : weights that fade with the time that has passed since.
-/

namespace TtAiops.Lib

variable {K α : Type*} [Field K]

/-- The weighted sum of `f`. -/
def weigh (f : α → K) (l : List (K × α)) : K := (l.map fun p => p.1 * f p.2).sum

def scale (c : K) (l : List (K × α)) : List (K × α) := l.map fun p => (c * p.1, p.2)

@[simp] theorem weigh_nil (f : α → K) : weigh f [] = 0 := rfl

@[simp] theorem weigh_cons (f : α → K) (p : K × α) (l : List (K × α)) : weigh f (p :: l) = p.1 * f p.2 + weigh f l := rfl

@[simp] theorem weigh_append (f : α → K) (l l' : List (K × α)) : weigh f (l ++ l') = weigh f l + weigh f l' := by
  induction l with
  | nil => simp
  | cons p l ih => rw [List.cons_append, weigh_cons, weigh_cons, ih, add_assoc]

@[simp] theorem scale_cons (c : K) (p : K × α) (l : List (K × α)) : scale c (p :: l) = (c * p.1, p.2) :: scale c l := rfl

@[simp] theorem weigh_scale (f : α → K) (c : K) (l : List (K × α)) : weigh f (scale c l) = c * weigh f l := by
  induction l with
  | nil => simp [scale]
  | cons p l ih =>
    rw [scale_cons, weigh_cons, weigh_cons, ih]
    ring

theorem weigh_sub_sq (f : α → K) (m : K) (l : List (K × α)) :
    weigh (fun a => (f a - m) ^ 2) l = weigh (fun a => f a ^ 2) l - 2 * m * weigh f l + m ^ 2 * weigh (fun _ => 1) l := by
  induction l with
  | nil => simp
  | cons p l ih =>
    simp only [weigh_cons, ih]
    ring

/-! ## A value mixed in -/

def mix (k : K) (l : List (K × α)) (a : α) : List (K × α) := scale (1 - k) l ++ [(k, a)]

@[simp] theorem weigh_mix (f : α → K) (k : K) (l : List (K × α)) (a : α) :
    weigh f (mix k l a) = weigh f l + k * (f a - weigh f l) := by
  unfold mix
  rw [weigh_append, weigh_scale, weigh_cons, weigh_nil]
  ring

/-- **The variance when a value is mixed in.** -/
theorem variance_mix (f : α → K) {k : K} {l : List (K × α)} (h : weigh (fun _ => 1) l = 1 ∨ k = 1) (a : α) :
    weigh (fun b => (f b - weigh f (mix k l a)) ^ 2) (mix k l a) =
      (1 - k) * (weigh (fun b => (f b - weigh f l) ^ 2) l + k * (f a - weigh f l) ^ 2) := by
  rw [weigh_sub_sq, weigh_mix, weigh_mix, weigh_mix, weigh_sub_sq]
  rcases h with h | rfl
  · rw [h]
    ring
  · ring

/-! ## Equal weights up to a number -/

/-- Of `length` values, the weight of the one in the place `i`. -/
def cappedWeight (cap length i : ℕ) : K :=
  (1 - 1 / (cap : K)) ^ (length - max (min length cap) (i + 1)) / (min length cap : ℕ)

def capped (cap : ℕ) (l : List α) : List (K × α) := l.mapIdx fun i a => (cappedWeight cap l.length i, a)

theorem cappedWeight_last (cap length : ℕ) : (cappedWeight cap (length + 1) length : K) = 1 / (min (length + 1) cap : ℕ) := by
  unfold cappedWeight
  rw [max_eq_right (min_le_left _ _), Nat.sub_self, pow_zero]

theorem cappedWeight_succ [CharZero K] {cap length i : ℕ} (hi : i < length) :
    (cappedWeight cap (length + 1) i : K) = (1 - 1 / (min (length + 1) cap : ℕ)) * cappedWeight cap length i := by
  have hlength : (length : K) ≠ 0 := Nat.cast_ne_zero.mpr (by omega)
  have hlength' : ((length + 1 : ℕ) : K) ≠ 0 := Nat.cast_ne_zero.mpr (by omega)
  unfold cappedWeight
  rcases Nat.lt_or_ge length cap with hlt | hge
  · rw [min_eq_left hlt, min_eq_left hlt.le, max_eq_left (by omega), max_eq_left (by omega), Nat.sub_self, Nat.sub_self,
      pow_zero]
    push_cast at hlength' ⊢
    field_simp
    ring
  · have hexp : length + 1 - max cap (i + 1) = length - max cap (i + 1) + 1 := by omega
    rw [min_eq_right hge, min_eq_right (by omega), hexp, pow_succ]
    ring

/-- **A value more is mixed in, with the share of one over the number.** -/
theorem capped_concat [CharZero K] (cap : ℕ) (l : List α) (a : α) :
    capped cap (l ++ [a]) = mix (1 / ((min (l.length + 1) cap : ℕ) : K)) (capped cap l) a := by
  unfold capped mix scale
  rw [List.mapIdx_concat, List.length_append, List.length_singleton, cappedWeight_last]
  refine congrArg (· ++ _) (List.ext_getElem (by simp) fun i hi hi' => ?_)
  rw [List.length_mapIdx] at hi
  rw [List.getElem_map, List.getElem_mapIdx, List.getElem_mapIdx, cappedWeight_succ hi]

theorem weigh_one_capped [CharZero K] {cap : ℕ} (hcap : 0 < cap) {l : List α} (hl : l ≠ []) :
    weigh (fun _ => 1) (capped cap l : List (K × α)) = 1 := by
  induction l using List.reverseRecOn with
  | nil => exact absurd rfl hl
  | append_singleton l a ih =>
    rw [capped_concat, weigh_mix]
    by_cases hnil : l = []
    · subst hnil
      have hone : min 1 cap = 1 := by omega
      simp [capped, hone]
    · rw [ih hnil, sub_self, mul_zero, add_zero]

/-! ## Weights that fade -/

/-- The time that has passed; a step back of the clock counts as nothing. -/
def elapsed : List ℤ → ℤ
  | [] => 0
  | [_] => 0
  | t :: t' :: ts => max (t' - t) 0 + elapsed (t' :: ts)

theorem elapsed_concat (t' : ℤ) : ∀ (ts : List ℤ) (t : ℤ), elapsed (ts ++ [t, t']) = elapsed (ts ++ [t]) + max (t' - t) 0
  | [], t => by simp [elapsed]
  | [s], t => by
    simp [elapsed]
  | s :: s' :: ts, t => by
    rw [List.cons_append, List.cons_append, List.cons_append, List.cons_append, elapsed, elapsed, add_assoc]
    exact congrArg _ (elapsed_concat t' (s' :: ts) t)

/-- Values with the weight that `g` gives to the time since. -/
def faded (g : ℤ → K) : List (ℤ × α) → List (K × α)
  | [] => []
  | p :: l => (g (elapsed (p.1 :: l.map Prod.fst)), p.2) :: faded g l

/-- **A value more makes the others fade.** -/
theorem faded_concat {g : ℤ → K} (hzero : g 0 = 1) (hadd : ∀ s t, g (s + t) = g s * g t) (q p : ℤ × α) (l : List (ℤ × α)) :
    faded g (l ++ [q, p]) = scale (g (max (p.1 - q.1) 0)) (faded g (l ++ [q])) ++ [(1, p.2)] := by
  induction l with
  | nil => simp [faded, elapsed, hzero, scale]
  | cons r l ih =>
    have hsteps : elapsed (r.1 :: (l ++ [q, p]).map Prod.fst) =
        elapsed (r.1 :: (l ++ [q]).map Prod.fst) + max (p.1 - q.1) 0 := by
      rw [List.map_append, List.map_append]
      exact elapsed_concat p.1 (r.1 :: l.map Prod.fst) q.1
    rw [List.cons_append, List.cons_append, faded, faded, ih, scale_cons, List.cons_append, hsteps, hadd, mul_comm]

theorem one_le_weigh_faded [LinearOrder K] [IsStrictOrderedRing K] {g : ℤ → K} (hzero : g 0 = 1) (hpos : ∀ t, 0 < g t) :
    ∀ {l : List (ℤ × α)}, l ≠ [] → 1 ≤ weigh (fun _ => 1) (faded g l)
  | [], hl => absurd rfl hl
  | [p], _ => by simp [faded, elapsed, hzero]
  | p :: q :: l, _ => by
    have hrest : 1 ≤ weigh (fun _ => 1) (faded g (q :: l)) := one_le_weigh_faded hzero hpos (List.cons_ne_nil _ _)
    have hfirst := (hpos (elapsed (p.1 :: (q :: l).map Prod.fst))).le
    rw [faded, weigh_cons, mul_one]
    exact hrest.trans (le_add_of_nonneg_left hfirst)

end TtAiops.Lib
