import Mathlib

/-!
# Sums and counts by key

* `count`, `tally` : a table of sums and counts, and a list put into it one element after the other;
* `tally_eq` : the entry of a key is the sum and the count of its elements, if it has any;
* `sum_fine` : **the entries of finer keys make up that of the key they refine**.
-/

namespace TtAiops.Lib

variable {A K K' : Type*} [DecidableEq K] [DecidableEq K'] {key : A → K} {val : A → ℤ}

/-- `entry(k).or_insert((0, 0))`, to which the value and one are added. -/
def count (key : A → K) (val : A → ℤ) (table : K → Option (ℤ × ℕ)) (a : A) : K → Option (ℤ × ℕ) :=
  let old := (table (key a)).getD (0, 0)
  Function.update table (key a) (some (old.1 + val a, old.2 + 1))

def tally (key : A → K) (val : A → ℤ) (l : List A) : K → Option (ℤ × ℕ) := l.foldl (count key val) fun _ => none

/-- The elements of a key. -/
def ofKey (key : A → K) (l : List A) (k : K) : List A := l.filter fun a => key a = k

theorem tally_eq (l : List A) (k : K) :
    tally key val l k = if ofKey key l k = [] then none else some (((ofKey key l k).map val).sum, (ofKey key l k).length) := by
  induction l using List.reverseRecOn with
  | nil => rfl
  | append_singleton l a ih =>
    have hstep : tally key val (l ++ [a]) = count key val (tally key val l) a := List.foldl_concat ..
    have hof : ofKey key (l ++ [a]) k = ofKey key l k ++ if key a = k then [a] else [] := by
      unfold ofKey
      rw [List.filter_append]
      split_ifs with hk
      · rw [List.filter_cons_of_pos (by simpa using hk), List.filter_nil]
      · rw [List.filter_cons_of_neg (by simpa using hk), List.filter_nil]
    rw [hstep, hof]
    unfold count
    by_cases hk : key a = k
    · subst hk
      rw [Function.update_self, ih, if_pos (rfl : key a = key a), if_neg (List.append_ne_nil_of_right_ne_nil _ (List.cons_ne_nil a []))]
      split_ifs with hnone
      · simp [hnone]
      · simp
    · rw [Function.update_of_ne (Ne.symm hk), ih, if_neg hk, List.append_nil]

/-- What the elements of a key add up to is what those of the finer keys add up to. -/
theorem sum_fine {M : Type*} [AddCommMonoid M] {fine : A → K'} {s : Finset K'} {k : K}
    (h : ∀ a, key a = k ↔ fine a ∈ s) (f : A → M) (l : List A) :
    ((ofKey key l k).map f).sum = ∑ k' ∈ s, ((ofKey fine l k').map f).sum := by
  unfold ofKey
  induction l with
  | nil => simp
  | cons a l ih =>
    have hone : ∀ k', ((List.filter (fun a => fine a = k') (a :: l)).map f).sum =
        (if fine a = k' then f a else 0) + ((List.filter (fun a => fine a = k') l).map f).sum := by
      intro k'
      by_cases hk' : fine a = k'
      · rw [List.filter_cons_of_pos (by simpa using hk'), if_pos hk', List.map_cons, List.sum_cons]
      · rw [List.filter_cons_of_neg (by simpa using hk'), if_neg hk', zero_add]
    rw [Finset.sum_congr rfl fun k' _ => hone k', Finset.sum_add_distrib, Finset.sum_ite_eq, ← ih]
    by_cases hk : key a = k
    · rw [List.filter_cons_of_pos (by simpa using hk), if_pos ((h a).mp hk), List.map_cons, List.sum_cons]
    · rw [List.filter_cons_of_neg (by simpa using hk), if_neg fun hs => hk ((h a).mpr hs), zero_add]

end TtAiops.Lib
