import Mathlib

/-!
# Timelines

One worker takes the jobs of a list one after the other. The sums from a place to the end give the work before a place and
the work between two places; a list that is sorted by a key has the jobs of a key together.

* `suffixSums` : the sum of the jobs from each place on;
* `suffix_antitone`, `suffix_zero_sub`, `suffix_eq` : how these change along the list;
* `eq_of_sorted` : what lies between two jobs of a key is of that key;
* `lastIndex`, `lastIndex_eq_some`, `exists_lastIndex` : the last place of a key;
* `pair_sublist_insertionSort_iff`, `takeWhile_ne_eq_filter` : what stands in front of an entry, and what a sort does to that;
* `sum_filter_eq_iff` : when two selections of a list have one sum;
* `ticks`, `card_ticks_add`, `card_ticks_delay` : the multiples of a period between two instants.
-/

namespace TtAiops.Lib

section sums
variable {α : Type*}

/-- The sums from each place of the list to its end, the empty one last. -/
def suffixSums [Add α] [Zero α] : List α → List α
  | [] => [0]
  | p :: ps => ((suffixSums ps).headD 0 + p) :: suffixSums ps

theorem suffixSums_getD [AddCommMonoid α] (ps : List α) (k : ℕ) : (suffixSums ps).getD k 0 = (ps.drop k).sum := by
  induction ps generalizing k with
  | nil => cases k <;> simp [suffixSums]
  | cons p ps ih =>
    have hhead : (suffixSums ps).headD 0 = ps.sum := by
      rw [show (suffixSums ps).headD 0 = (suffixSums ps).getD 0 0 by cases suffixSums ps <;> rfl, ih, List.drop_zero]
    cases k with
    | zero =>
      show (suffixSums ps).headD 0 + p = (p :: ps).sum
      rw [hhead, List.sum_cons, add_comm]
    | succ k => exact ih k

/-- What is left gets less along the list, if no job takes negative time. -/
theorem suffix_antitone [AddCommMonoid α] [PartialOrder α] [IsOrderedAddMonoid α] {ps : List α} (h : ∀ p ∈ ps, 0 ≤ p) :
    Antitone (fun k => (suffixSums ps).getD k 0) := by
  intro j k hjk
  show (suffixSums ps).getD k 0 ≤ (suffixSums ps).getD j 0
  rw [suffixSums_getD, suffixSums_getD]
  apply (List.drop_sublist_drop_left ps hjk).sum_le_sum
  intro p hp
  exact h p (List.mem_of_mem_drop hp)

theorem suffix_zero_sub [AddCommGroup α] (ps : List α) (k : ℕ) :
    (suffixSums ps).getD 0 0 - (suffixSums ps).getD k 0 = (ps.take k).sum := by
  rw [suffixSums_getD, suffixSums_getD, List.drop_zero, ← List.sum_take_add_sum_drop ps k, add_sub_cancel_right]

theorem suffix_eq [AddCommMonoid α] {ps : List α} {j k : ℕ} (hjk : j ≤ k)
    (h : ∀ i, j ≤ i → i < k → ∀ hi : i < ps.length, ps[i] = 0) :
    (suffixSums ps).getD j 0 = (suffixSums ps).getD k 0 := by
  induction k, hjk using Nat.le_induction with
  | base => rfl
  | succ k hjk ih =>
    rw [ih (fun i hji hik => h i hji (by omega)), suffixSums_getD, suffixSums_getD]
    by_cases hk : k < ps.length
    · rw [List.drop_eq_getElem_cons hk, List.sum_cons, h k hjk (by omega) hk, zero_add]
    · rw [List.drop_eq_nil_of_le (by omega), List.drop_eq_nil_of_le (by omega)]

end sums

section blocks
variable {α κ : Type*} {key : α → κ} {l : List α}

/-- In a sorted list, whatever is between two entries of one key is of that key too. -/
theorem eq_of_sorted [PartialOrder κ] (h : l.Pairwise (fun a b => key a ≤ key b)) {i j k : ℕ} (hij : i ≤ j) (hjk : j ≤ k)
    (hk : k < l.length) (heq : key l[i] = key l[k]) : key l[j] = key l[i] := by
  have hmono : ∀ a b (hab : a ≤ b) (hb : b < l.length), key l[a] ≤ key l[b] := by
    intro a b hab hb
    obtain rfl | hlt := Nat.eq_or_lt_of_le hab
    · exact le_rfl
    · exact List.pairwise_iff_getElem.mp h a b (by omega) hb hlt
  apply le_antisymm
  · rw [heq]
    exact hmono j k hjk hk
  · exact hmono i j hij (by omega)

variable [DecidableEq κ]

def lastIndex (key : α → κ) (l : List α) (v : κ) : Option ℕ :=
  (l.zipIdx.foldl (fun m x => Function.update m (key x.1) (some x.2)) fun _ => none) v

theorem lastIndex_concat (l : List α) (a : α) (v : κ) :
    lastIndex key (l ++ [a]) v = if v = key a then some l.length else lastIndex key l v := by
  unfold lastIndex
  rw [List.zipIdx_append, List.foldl_append]
  show (Function.update _ (key a) (some (0 + l.length)) : κ → Option ℕ) v = _
  rw [Function.update_apply, zero_add]

theorem lastIndex_eq_some {v : κ} {k : ℕ} :
    lastIndex key l v = some k ↔
      (∃ h : k < l.length, key l[k] = v) ∧ ∀ j (hj : j < l.length), key l[j] = v → j ≤ k := by
  induction l using List.reverseRecOn with
  | nil => simp [lastIndex]
  | append_singleton l a ih =>
    rw [lastIndex_concat]
    by_cases hv : v = key a
    · rw [if_pos hv]
      constructor
      · intro h
        obtain rfl := Option.some.inj h
        refine ⟨⟨by simp, by simp [hv]⟩, ?_⟩
        intro j hj _
        rw [List.length_append, List.length_singleton] at hj
        omega
      · intro ⟨⟨hk, _⟩, hlast⟩
        have hle := hlast l.length (by simp) (by simp [hv])
        rw [List.length_append, List.length_singleton] at hk
        rw [show k = l.length by omega]
    · rw [if_neg hv, ih]
      have hother : ∀ j (hj : j < (l ++ [a]).length), key (l ++ [a])[j] = v ↔ ∃ h : j < l.length, key l[j] = v := by
        intro j hj
        by_cases hjl : j < l.length
        · rw [List.getElem_append_left hjl]
          exact ⟨fun h => ⟨hjl, h⟩, fun ⟨_, h⟩ => h⟩
        · rw [List.getElem_append_right (by omega), List.getElem_singleton]
          exact ⟨fun h => absurd h.symm hv, fun ⟨h, _⟩ => absurd h hjl⟩
      have hlen : l.length < (l ++ [a]).length := by simp
      constructor
      · intro ⟨⟨hk, hkey⟩, hlast⟩
        refine ⟨⟨hk.trans hlen, (hother k _).mpr ⟨hk, hkey⟩⟩, ?_⟩
        intro j hj h
        obtain ⟨hjl, hjkey⟩ := (hother j hj).mp h
        exact hlast j hjl hjkey
      · intro ⟨⟨hk, hkey⟩, hlast⟩
        refine ⟨(hother k hk).mp hkey, ?_⟩
        intro j hj h
        exact hlast j (hj.trans hlen) ((hother j _).mpr ⟨hj, h⟩)

theorem exists_lastIndex {k : ℕ} (hk : k < l.length) : ∃ last, lastIndex key l (key l[k]) = some last := by
  induction l using List.reverseRecOn with
  | nil => exact absurd hk (by simp)
  | append_singleton l a ih =>
    rw [lastIndex_concat]
    by_cases hv : key (l ++ [a])[k] = key a
    · exact ⟨l.length, if_pos hv⟩
    · have hkl : k < l.length := by
        by_contra hkl
        rw [List.getElem_append_right (by omega), List.getElem_singleton] at hv
        exact hv rfl
      rw [if_neg hv, List.getElem_append_left hkl]
      exact ih hkl

end blocks

section front
variable {α : Type*} {l : List α} {a b : α}

theorem pair_sublist_total (ha : a ∈ l) (hb : b ∈ l) (hne : a ≠ b) : [a, b].Sublist l ∨ [b, a].Sublist l := by
  induction l with
  | nil => cases ha
  | cons x l ih =>
    cases ha with
    | head =>
      apply Or.inl
      apply List.Sublist.cons_cons
      exact List.singleton_sublist.mpr ((List.mem_cons.mp hb).resolve_left (Ne.symm hne))
    | tail _ ha =>
      cases hb with
      | head => exact Or.inr ((List.singleton_sublist.mpr ha).cons_cons b)
      | tail _ hb =>
        obtain h | h := ih ha hb
        · exact Or.inl (h.cons x)
        · exact Or.inr (h.cons x)

theorem pair_sublist_asymm (h : l.Nodup) (hab : [a, b].Sublist l) : ¬ [b, a].Sublist l := by
  intro hba
  induction l with
  | nil => cases hab
  | cons x l ih =>
    have hx : x ∉ l := (List.nodup_cons.mp h).1
    cases hab with
    | cons _ hab =>
      cases hba with
      | cons _ hba => exact ih (List.nodup_cons.mp h).2 hab hba
      | cons_cons _ _ => exact hx (hab.subset (by simp))
    | cons_cons _ hab =>
      cases hba with
      | cons _ hba => exact hx (hba.subset (by simp))
      | cons_cons _ _ => exact hx (hab.subset (by simp))

/-- Two selections of a list have one sum if what only one of them takes has the sum of what only the other takes. -/
theorem sum_filter_eq_iff {G : Type*} [AddCommGroup G] (l : List α) (f : α → G) (p q : α → Bool) :
    ((l.filter p).map f).sum = ((l.filter q).map f).sum ↔
      ((l.filter fun x => p x && !q x).map f).sum = ((l.filter fun x => q x && !p x).map f).sum := by
  have hsplit : ∀ p q : α → Bool, ((l.filter p).map f).sum
      = ((l.filter fun x => p x && q x).map f).sum + ((l.filter fun x => p x && !q x).map f).sum := by
    intro p q
    induction l with
    | nil => simp
    | cons x l ih => by_cases hp : p x <;> by_cases hq : q x <;> simp [hp, hq, ih] <;> abel
  rw [hsplit p q, hsplit q p, show (fun x => q x && p x) = fun x => p x && q x from funext fun x => Bool.and_comm _ _]
  exact add_right_inj _

/-- Sorting puts one entry before another if its key is less, and leaves entries of one key as they are. -/
theorem pair_sublist_insertionSort_iff {κ : Type*} [LinearOrder κ] {key : α → κ} (h : l.Nodup) (ha : a ∈ l) (hb : b ∈ l)
    (hne : a ≠ b) : [a, b].Sublist (l.insertionSort fun x y => key x ≤ key y) ↔
      key a < key b ∨ key a = key b ∧ [a, b].Sublist l := by
  have hperm : (l.insertionSort fun x y => key x ≤ key y).Perm l := List.perm_insertionSort _ _
  have hsorted : (l.insertionSort fun x y => key x ≤ key y).Pairwise (fun x y => key x ≤ key y) :=
    List.pairwise_insertionSort _ _
  have hfront : ∀ {x y : α}, [x, y].Sublist (l.insertionSort fun x y => key x ≤ key y) → key x ≤ key y := by
    intro x y hxy
    simpa using List.Pairwise.sublist hxy hsorted
  have hkeep : ∀ {x y : α}, key x ≤ key y → [x, y].Sublist l →
      [x, y].Sublist (l.insertionSort fun x y => key x ≤ key y) := fun hle hxy => List.pair_sublist_insertionSort hle hxy
  constructor
  · intro hab
    obtain hlt | heq := lt_or_eq_of_le (hfront hab)
    · exact Or.inl hlt
    · apply Or.inr
      refine ⟨heq, ?_⟩
      obtain h' | h' := pair_sublist_total ha hb hne
      · exact h'
      · exact absurd (hkeep heq.ge h') (pair_sublist_asymm (hperm.nodup_iff.mpr h) hab)
  · intro hab
    obtain hlt | ⟨heq, hab⟩ := hab
    · obtain h' | h' := pair_sublist_total (hperm.mem_iff.mpr ha) (hperm.mem_iff.mpr hb) hne
      · exact h'
      · exact absurd (hfront h') (not_le_of_gt hlt)
    · exact hkeep heq.le hab

variable [DecidableEq α]

theorem takeWhile_ne_eq_filter (h : l.Nodup) (hb : b ∈ l) :
    l.takeWhile (fun a => a ≠ b) = l.filter (fun a => [a, b].Sublist l) := by
  induction l with
  | nil => rfl
  | cons x l ih =>
    obtain ⟨hx, hl⟩ := List.nodup_cons.mp h
    by_cases hxb : x = b
    · subst hxb
      rw [List.takeWhile_cons_of_neg (by simp)]
      symm
      apply List.filter_eq_nil_iff.mpr
      intro a _ ha
      cases of_decide_eq_true ha with
      | cons _ ha => exact hx (ha.subset (by simp))
      | cons_cons _ ha => exact hx (ha.subset (by simp))
    · have hbl : b ∈ l := (List.mem_cons.mp hb).resolve_left (Ne.symm hxb)
      rw [List.takeWhile_cons_of_pos (by simpa using hxb), ih hl hbl,
        List.filter_cons_of_pos (by simpa using (List.singleton_sublist.mpr hbl).cons_cons x)]
      congr 1
      apply List.filter_congr
      intro a ha
      rw [decide_eq_decide]
      constructor
      · intro hab
        exact hab.cons x
      · intro hab
        cases hab with
        | cons _ hab => exact hab
        | cons_cons _ _ => exact absurd ha hx

end front

section ticks
variable {p : ℤ}

/-- The multiples of a period in `(a, b]`. -/
noncomputable def ticks (p a b : ℤ) : Finset ℤ := (Finset.Ioc a b).filter (p ∣ ·)

theorem card_ticks (hp : 0 < p) (a b : ℤ) : ((ticks p a b).card : ℤ) = max (b / p - a / p) 0 := by
  unfold ticks
  have hfloor : ∀ x : ℤ, ⌊(x : ℚ) / (p : ℚ)⌋ = x / p := by
    intro x
    lift p to ℕ using hp.le
    exact_mod_cast Rat.floor_intCast_div_natCast x p
  rw [Int.Ioc_filter_dvd_card a b hp, hfloor, hfloor]

theorem card_ticks_add (hp : 0 < p) {a b c : ℤ} (hab : a ≤ b) (hbc : b ≤ c) :
    (ticks p a c).card = (ticks p a b).card + (ticks p b c).card := by
  have hab' := Int.ediv_le_ediv hp hab
  have hbc' := Int.ediv_le_ediv hp hbc
  have hac := card_ticks hp a c
  rw [max_eq_left (by omega)] at hac
  have hab'' := card_ticks hp a b
  rw [max_eq_left (by omega)] at hab''
  have hbc'' := card_ticks hp b c
  rw [max_eq_left (by omega)] at hbc''
  omega

/-- A delay meets no more multiples exactly if it ends in the period in which it begins. -/
theorem card_ticks_delay (hp : 0 < p) {a b d : ℤ} (hab : a ≤ b) (hd : 0 ≤ d) :
    (ticks p a (b + d)).card = (ticks p a b).card ↔ b % p + d < p := by
  have hcard := card_ticks hp b (b + d)
  have hmul : (b / p + 1) * p = b - b % p + p := by
    have hb := Int.mul_ediv_add_emod b p
    rw [add_mul, one_mul, mul_comm]
    omega
  rw [card_ticks_add hp hab (by omega), Nat.add_eq_left]
  constructor
  · intro h
    have hlt : (b + d) / p < b / p + 1 := by omega
    have := (Int.ediv_lt_iff_lt_mul hp).mp hlt
    omega
  · intro h
    have hlt : (b + d) / p < b / p + 1 := (Int.ediv_lt_iff_lt_mul hp).mpr (by omega)
    omega

end ticks

end TtAiops.Lib
