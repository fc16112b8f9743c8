import TtAiops.Dispatch.Tick
import TtAiops.Lib.Exchanges

/-!
# The swaps of `pick_swaps`

* `pairsOfPicks`, `destinations` : the trucks of the chosen pairs, and whose work each truck does after the swaps;
* `driveTo` : the empty drive of a truck to the work of a truck;
* `GoodPick`, `mem_swapPairs` : the pairs that are looked at;
* `pickLoop_sub`, `pickLoop_disjoint`, `pickLoop_maximal` : the loop takes disjoint pairs, and a pair it passes over
  touches one it took;
* `pickSwaps_sound` : **the swaps are disjoint, gain what they say, and leave no pair of unpaired trucks that gains
  enough.**
-/

namespace TtAiops.Dispatch
open TtAiops.Lib

def pairsOfPicks (picks : List SwapPick) : List (ℕ × ℕ) := picks.map fun p => (p.i, p.j)

/-- Whose work each truck does when the swaps are carried out. -/
def destinations (picks : List SwapPick) : Equiv.Perm ℕ := exchanges (pairsOfPicks picks)

/-- The empty drive of truck `t` to the work of truck `u`, if there is one. -/
def driveTo (own : List ℤ) (cross : ℕ → ℕ → Option ℤ) (t u : ℕ) : Option ℤ :=
  if t = u then some (own.getD t 0) else cross t u

/-- Both directions of the pair exist, and it gains enough. -/
structure GoodPick (own : List ℤ) (cross : ℕ → ℕ → Option ℤ) (minGain : ℤ) (p : SwapPick) : Prop where
  lt : p.i < p.j
  range : p.j < own.length
  there : cross p.i p.j = some p.ij
  back : cross p.j p.i = some p.ji
  gain : p.gain = own.getD p.i 0 + own.getD p.j 0 - (p.ij + p.ji)
  enough : minGain ≤ p.gain

section pairs
variable {own : List ℤ} {cross : ℕ → ℕ → Option ℤ} {minGain : ℤ}

theorem goodPick_of_mem {p : SwapPick} (h : p ∈ swapPairs own cross minGain) : GoodPick own cross minGain p := by
  unfold swapPairs at h
  simp only [List.mem_flatMap, List.mem_range, List.mem_filterMap, List.mem_range'_1] at h
  obtain ⟨i, hi, j, hj, hp⟩ := h
  cases hij : cross i j with
  | none => simp [hij] at hp
  | some ij =>
    cases hji : cross j i with
    | none => simp [hij, hji] at hp
    | some ji =>
      simp only [hij, hji, Option.ite_none_right_eq_some, Option.some.injEq] at hp
      obtain ⟨hgain, rfl⟩ := hp
      exact ⟨by dsimp only; omega, by dsimp only; omega, hij, hji, by dsimp only; omega, hgain⟩

theorem exists_mem_swapPairs {i j : ℕ} {ij ji : ℤ} (hij : i < j) (hj : j < own.length) (hthere : cross i j = some ij)
    (hback : cross j i = some ji) (hgain : minGain ≤ own.getD i 0 + own.getD j 0 - ij - ji) :
    ∃ p ∈ swapPairs own cross minGain, p.i = i ∧ p.j = j := by
  refine ⟨⟨i, j, ij, ji, own.getD i 0 + own.getD j 0 - ij - ji⟩, ?_, rfl, rfl⟩
  unfold swapPairs
  simp only [List.mem_flatMap, List.mem_range, List.mem_filterMap, List.mem_range'_1]
  refine ⟨i, by omega, j, by omega, ?_⟩
  rw [hthere, hback]
  exact if_pos hgain

end pairs

/-! ## The loop -/

theorem pickLoop_sub (cs : List SwapPick) (used : ℕ → Bool) : ∀ p ∈ pickLoop cs used, p ∈ cs := by
  induction cs generalizing used with
  | nil => exact fun p hp => hp
  | cons c cs ih =>
    intro p hp
    rw [pickLoop] at hp
    split at hp
    · exact List.mem_cons_of_mem c (ih used p hp)
    · obtain rfl | hp := List.mem_cons.mp hp
      · exact List.mem_cons_self
      · exact List.mem_cons_of_mem c (ih _ p hp)

theorem marked_iff {used : ℕ → Bool} {i j t : ℕ} :
    Function.update (Function.update used i true) j true t = true ↔ used t = true ∨ t = i ∨ t = j := by
  rw [Function.update_apply, Function.update_apply]
  by_cases hj : t = j
  · simp [hj]
  · by_cases hi : t = i
    · simp [hi]
    · simp [hi, hj]

theorem pickLoop_disjoint (cs : List SwapPick) (used : ℕ → Bool) (hne : ∀ c ∈ cs, c.i ≠ c.j) :
    (∀ t ∈ ends (pairsOfPicks (pickLoop cs used)), used t = false) ∧ (ends (pairsOfPicks (pickLoop cs used))).Nodup := by
  induction cs generalizing used with
  | nil => exact ⟨fun t ht => absurd ht List.not_mem_nil, List.nodup_nil⟩
  | cons c cs ih =>
    have hne' : ∀ c' ∈ cs, c'.i ≠ c'.j := fun c' hc' => hne c' (List.mem_cons_of_mem c hc')
    rw [pickLoop]
    split
    · exact ih used hne'
    · rename_i hfree
      simp only [Bool.or_eq_true, not_or, Bool.not_eq_true] at hfree
      obtain ⟨hunused, hnodup⟩ := ih (Function.update (Function.update used c.i true) c.j true) hne'
      have hrest : ∀ t ∈ ends (pairsOfPicks (pickLoop cs (Function.update (Function.update used c.i true) c.j true))),
          t ≠ c.i ∧ t ≠ c.j ∧ used t = false := by
        intro t ht
        have hnot := mt marked_iff.mpr (Bool.eq_false_iff.mp (hunused t ht))
        rw [not_or, not_or, Bool.not_eq_true] at hnot
        obtain ⟨hfalse, hi, hj⟩ := hnot
        exact ⟨hi, hj, hfalse⟩
      show (∀ t ∈ c.i :: c.j :: ends (pairsOfPicks _), _) ∧ (c.i :: c.j :: ends (pairsOfPicks _)).Nodup
      constructor
      · intro t ht
        obtain rfl | ht := List.mem_cons.mp ht
        · exact hfree.1
        · obtain rfl | ht := List.mem_cons.mp ht
          · exact hfree.2
          · exact (hrest t ht).2.2
      · refine List.nodup_cons.mpr ⟨?_, List.nodup_cons.mpr ⟨fun ht => (hrest _ ht).2.1 rfl, hnodup⟩⟩
        intro ht
        obtain he | ht := List.mem_cons.mp ht
        · exact hne c List.mem_cons_self he
        · exact (hrest _ ht).1 rfl

/-- A pair of the list is taken, or has a truck that was used before or is taken. -/
theorem pickLoop_maximal (cs : List SwapPick) (used : ℕ → Bool) :
    ∀ c ∈ cs, (used c.i = true ∨ used c.j = true) ∨
      c.i ∈ ends (pairsOfPicks (pickLoop cs used)) ∨ c.j ∈ ends (pairsOfPicks (pickLoop cs used)) := by
  induction cs generalizing used with
  | nil => exact fun c hc => absurd hc List.not_mem_nil
  | cons c cs ih =>
    intro c' hc'
    rw [pickLoop]
    split
    · rename_i hused
      obtain rfl | hc' := List.mem_cons.mp hc'
      · exact Or.inl (by simpa using hused)
      · exact ih used c' hc'
    · show _ ∨ c'.i ∈ c.i :: c.j :: ends (pairsOfPicks _) ∨ c'.j ∈ c.i :: c.j :: ends (pairsOfPicks _)
      obtain rfl | hc' := List.mem_cons.mp hc'
      · exact Or.inr (Or.inl List.mem_cons_self)
      · -- a truck marked by this turn is one of the pair just taken
        have hcase := ih (Function.update (Function.update used c.i true) c.j true) c' hc'
        rw [marked_iff, marked_iff] at hcase
        simp only [List.mem_cons]
        tauto

/-! ## The choice -/

/-- The chosen pairs are disjoint and good, the trucks change places by them and drive less by what the pairs gain, and
trucks that are left have no pair that gains enough. -/
structure SoundSwaps (own : List ℤ) (cross : ℕ → ℕ → Option ℤ) (minGain : ℤ) (picks : List SwapPick) : Prop where
  disjoint : (ends (pairsOfPicks picks)).Nodup
  good : ∀ p ∈ picks, GoodPick own cross minGain p
  swapped : ∀ p ∈ picks, destinations picks p.i = p.j ∧ destinations picks p.j = p.i
  unpaired : ∀ t ∉ ends (pairsOfPicks picks), destinations picks t = t
  permutes : ∀ t < own.length, destinations picks t < own.length
  drives : ∃ after : ℕ → ℤ, (∀ t < own.length, driveTo own cross t (destinations picks t) = some (after t)) ∧
    ∑ t ∈ Finset.range own.length, after t = own.sum - (picks.map SwapPick.gain).sum
  maximal : ∀ i j ij ji, i < j → j < own.length → i ∉ ends (pairsOfPicks picks) → j ∉ ends (pairsOfPicks picks) →
    cross i j = some ij → cross j i = some ji → own.getD i 0 + own.getD j 0 - (ij + ji) < minGain

theorem sum_range_getD (own : List ℤ) : ∑ t ∈ Finset.range own.length, own.getD t 0 = own.sum := by
  rw [← Fin.sum_univ_eq_sum_range fun t => own.getD t 0]
  simp

theorem mem_ends_pairs {picks : List SwapPick} {t : ℕ} :
    t ∈ ends (pairsOfPicks picks) ↔ ∃ p ∈ picks, t = p.i ∨ t = p.j := by
  rw [mem_ends, pairsOfPicks]
  constructor
  · intro ⟨_, hpair, ht⟩
    obtain ⟨p, hp, rfl⟩ := List.mem_map.mp hpair
    exact ⟨p, hp, ht⟩
  · intro ⟨p, hp, ht⟩
    exact ⟨_, List.mem_map.mpr ⟨p, hp, rfl⟩, ht⟩

section good
variable {own : List ℤ} {cross : ℕ → ℕ → Option ℤ} {minGain : ℤ} {picks : List SwapPick}

theorem destinations_pair (hdisj : (ends (pairsOfPicks picks)).Nodup) {p : SwapPick} (hp : p ∈ picks) :
    destinations picks p.i = p.j ∧ destinations picks p.j = p.i :=
  exchanges_pair hdisj (List.mem_map.mpr ⟨p, hp, rfl⟩)

theorem ends_lt (hgood : ∀ p ∈ picks, GoodPick own cross minGain p) :
    ∀ t ∈ ends (pairsOfPicks picks), t ∈ Finset.range own.length := by
  intro t ht
  obtain ⟨p, hp, ht⟩ := mem_ends_pairs.mp ht
  have hlt := (hgood p hp).lt
  have hrange := (hgood p hp).range
  rw [Finset.mem_range]
  omega

theorem GoodPick.driveTo_there {p : SwapPick} (h : GoodPick own cross minGain p) :
    driveTo own cross p.i p.j = some p.ij := by
  have hlt := h.lt
  rw [driveTo, if_neg (by omega), h.there]

theorem GoodPick.driveTo_back {p : SwapPick} (h : GoodPick own cross minGain p) :
    driveTo own cross p.j p.i = some p.ji := by
  have hlt := h.lt
  rw [driveTo, if_neg (by omega), h.back]

theorem drives_of_good (hdisj : (ends (pairsOfPicks picks)).Nodup) (hgood : ∀ p ∈ picks, GoodPick own cross minGain p) :
    ∃ after : ℕ → ℤ, (∀ t < own.length, driveTo own cross t (destinations picks t) = some (after t)) ∧
      ∑ t ∈ Finset.range own.length, after t = own.sum - (picks.map SwapPick.gain).sum := by
  have hown : ∀ t, driveTo own cross t t = some (own.getD t 0) := fun t => if_pos rfl
  refine ⟨fun t => (driveTo own cross t (destinations picks t)).getD 0, ?_, ?_⟩
  · intro t _
    dsimp only
    by_cases ht : t ∈ ends (pairsOfPicks picks)
    · obtain ⟨p, hp, rfl | rfl⟩ := mem_ends_pairs.mp ht
      · rw [(destinations_pair hdisj hp).1, (hgood p hp).driveTo_there, Option.getD_some]
      · rw [(destinations_pair hdisj hp).2, (hgood p hp).driveTo_back, Option.getD_some]
    · rw [destinations, exchanges_of_notMem ht, hown, Option.getD_some]
  · have htotal := sum_exchanges (fun t u => (driveTo own cross t u).getD 0) hdisj (ends_lt hgood)
    have hgains : ((pairsOfPicks picks).map fun p => (driveTo own cross p.1 p.1).getD 0 +
        (driveTo own cross p.2 p.2).getD 0 - (driveTo own cross p.1 p.2).getD 0 -
        (driveTo own cross p.2 p.1).getD 0).sum = (picks.map SwapPick.gain).sum := by
      rw [pairsOfPicks, List.map_map]
      congr 1
      apply List.map_congr_left
      intro p hp
      have hgood' := hgood p hp
      simp only [Function.comp_apply, hown, hgood'.driveTo_there, hgood'.driveTo_back, Option.getD_some]
      rw [hgood'.gain]
      omega
    simp only [hown, Option.getD_some] at htotal hgains
    rw [hgains, sum_range_getD] at htotal
    show ∑ t ∈ Finset.range own.length, (driveTo own cross t (exchanges (pairsOfPicks picks) t)).getD 0 = _
    omega

end good

/-- **`pick_swaps` is a sound greedy exchange.** -/
theorem pickSwaps_sound (own : List ℤ) (cross : ℕ → ℕ → Option ℤ) (minGain : ℤ) :
    SoundSwaps own cross minGain (pickSwaps own cross minGain) := by
  set sorted := (swapPairs own cross minGain).insertionSort fun a b =>
    b.gain < a.gain ∨ a.gain = b.gain ∧ (a.i < b.i ∨ a.i = b.i ∧ a.j ≤ b.j) with hsorted
  have hmem : ∀ p, p ∈ sorted ↔ p ∈ swapPairs own cross minGain := fun p =>
    (List.perm_insertionSort _ _).mem_iff
  have hgood : ∀ p ∈ pickSwaps own cross minGain, GoodPick own cross minGain p := fun p hp =>
    goodPick_of_mem ((hmem p).mp (pickLoop_sub sorted _ p hp))
  have hdisj : (ends (pairsOfPicks (pickSwaps own cross minGain))).Nodup := by
    apply (pickLoop_disjoint sorted (fun _ => false) _).2
    intro c hc
    exact (goodPick_of_mem ((hmem c).mp hc)).lt.ne
  refine ⟨hdisj, hgood, fun p hp => destinations_pair hdisj hp, fun t ht => exchanges_of_notMem ht, ?_,
    drives_of_good hdisj hgood, ?_⟩
  · intro t ht
    exact Finset.mem_range.mp (exchanges_mem hdisj (ends_lt hgood) (Finset.mem_range.mpr ht))
  · intro i j ij ji hij hj hi' hj' hthere hback
    by_contra hgain
    have hgain' : minGain ≤ own.getD i 0 + own.getD j 0 - ij - ji := by omega
    obtain ⟨p, hp, rfl, rfl⟩ := exists_mem_swapPairs hij hj hthere hback hgain'
    obtain (h | h) | h | h := pickLoop_maximal sorted (fun _ => false) p ((hmem p).mpr hp)
    · exact absurd h (by decide)
    · exact absurd h (by decide)
    · exact hi' h
    · exact hj' h

end TtAiops.Dispatch
