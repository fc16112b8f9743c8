import Mathlib
import TtAiops.Stage2.Cover
import TtAiops.Stage2.Hungarian

/-!
# The assignment of trucks to slots (`assign_slots`)

The smaller side is put on the rows of a cost matrix; a pair without an edge costs `FORBIDDEN_COST` there and is
dropped from the result.

* `assignSlots` : the (truck, bundle) pairs;
* `Serves`, `totalCost` : a choice of an edge for every slot, no truck twice, and what it costs;
* `assignPairs_optimal` : where the slots are no more than the trucks, every slot gets a truck of its own at the least
  cost of the matrix, whichever side is on the rows;
* `assignSlots_optimal` : where the slots can all be served and the costs stay below the sentinel, the result serves
  them all at the least total cost.
-/

namespace TtAiops.Stage2
open TtAiops.Lib

def FORBIDDEN_COST : ℤ := 1000000000

/-- The body of the loop that fills `cost`: the least cost of the edges of a truck and a bundle. -/
def costStep (nTrucks : ℕ) (cost : ℕ × ℕ → Option ℤ) (e : Edge) : ℕ × ℕ → Option ℤ :=
  if e.1 < nTrucks then
    Function.update cost (e.1, e.2.1) (some (min ((cost (e.1, e.2.1)).getD e.2.2) e.2.2))
  else cost

def costOf (nTrucks : ℕ) (edges : List Edge) : ℕ × ℕ → Option ℤ := edges.foldl (costStep nTrucks) (fun _ => none)

def cOf (nTrucks : ℕ) (slotWpos : List ℕ) (edges : List Edge) (t s : ℕ) : ℤ :=
  (costOf nTrucks edges (t, slotWpos.getD s 0)).getD FORBIDDEN_COST

/-- `pairs`: (truck, slot). -/
def assignPairs (nTrucks : ℕ) (slotWpos : List ℕ) (edges : List Edge) : List (ℕ × ℕ) :=
  if nTrucks ≤ slotWpos.length then
    (hungarian ((List.range nTrucks).map fun t =>
      (List.range slotWpos.length).map fun s => cOf nTrucks slotWpos edges t s)).zipIdx.map fun st => (st.2, st.1)
  else
    (hungarian ((List.range slotWpos.length).map fun s =>
      (List.range nTrucks).map fun t => cOf nTrucks slotWpos edges t s)).zipIdx

/-- `assign_slots`: (truck, bundle). -/
def assignSlots (nTrucks : ℕ) (slotWpos : List ℕ) (edges : List Edge) : List (ℕ × ℕ) :=
  if nTrucks = 0 ∨ slotWpos.length = 0 then []
  else
    ((assignPairs nTrucks slotWpos edges).filter
      fun ts => cOf nTrucks slotWpos edges ts.1 ts.2 < FORBIDDEN_COST).map fun ts => (ts.1, slotWpos.getD ts.2 0)

/-! ## The cost table -/

section CostTable

variable {nTrucks : ℕ} {edges : List Edge}

theorem costStep_of_ne {cost : ℕ × ℕ → Option ℤ} {e : Edge} {t w : ℕ} (h : (t, w) ≠ (e.1, e.2.1)) :
    costStep nTrucks cost e (t, w) = cost (t, w) := by
  unfold costStep
  split_ifs
  · exact Function.update_of_ne h ..
  · rfl

theorem mem_of_costOf {t w : ℕ} {c : ℤ} (h : costOf nTrucks edges (t, w) = some c) : (t, w, c) ∈ edges := by
  have key : ∀ (l : List Edge) (cost : ℕ × ℕ → Option ℤ), l.foldl (costStep nTrucks) cost (t, w) = some c →
      cost (t, w) = some c ∨ (t, w, c) ∈ l := by
    intro l
    induction l with
    | nil => exact fun _ h => Or.inl h
    | cons e l ih =>
      intro cost h
      rcases ih _ h with h | h
      · by_cases he : (t, w) = (e.1, e.2.1)
        · unfold costStep at h
          split_ifs at h with ht
          · rw [he, Function.update_self] at h
            obtain ⟨h1, h2⟩ := Prod.mk.inj he
            rw [← he] at h
            cases hc : cost (t, w) with
            | none =>
              rw [hc, Option.getD_none, min_self] at h
              refine Or.inr (List.mem_cons.mpr (Or.inl ?_))
              rw [h1, h2, ← Option.some.inj h]
            | some c' =>
              rw [hc, Option.getD_some] at h
              rcases min_choice c' e.2.2 with hm | hm
              · exact Or.inl (by rw [← h, hm])
              · refine Or.inr (List.mem_cons.mpr (Or.inl ?_))
                rw [h1, h2, ← Option.some.inj h, hm]
          · exact Or.inl h
        · rw [costStep_of_ne he] at h
          exact Or.inl h
      · exact Or.inr (List.mem_cons_of_mem _ h)
  exact (key edges _ h).resolve_left (by simp)

theorem costOf_le {t w : ℕ} {c : ℤ} (ht : t < nTrucks) (h : (t, w, c) ∈ edges) :
    ∃ c' ≤ c, costOf nTrucks edges (t, w) = some c' := by
  have keep : ∀ (l : List Edge) (cost : ℕ × ℕ → Option ℤ) (c' : ℤ), cost (t, w) = some c' →
      ∃ c'' ≤ c', l.foldl (costStep nTrucks) cost (t, w) = some c'' := by
    intro l
    induction l with
    | nil => exact fun _ c' h => ⟨c', le_refl c', h⟩
    | cons e l ih =>
      intro cost c' hc
      by_cases he : (t, w) = (e.1, e.2.1)
      · obtain ⟨c'', hle, hfold⟩ := ih (costStep nTrucks cost e) (min c' e.2.2) (by
          obtain ⟨h1, h2⟩ := Prod.mk.inj he
          unfold costStep
          rw [if_pos (h1 ▸ ht), ← he, hc, Function.update_self, Option.getD_some])
        exact ⟨c'', hle.trans (min_le_left _ _), hfold⟩
      · exact ih _ c' (by rw [costStep_of_ne he, hc])
  have key : ∀ (l : List Edge) (cost : ℕ × ℕ → Option ℤ), (t, w, c) ∈ l →
      ∃ c' ≤ c, l.foldl (costStep nTrucks) cost (t, w) = some c' := by
    intro l
    induction l with
    | nil => exact fun _ h => absurd h List.not_mem_nil
    | cons e l ih =>
      intro cost h
      rcases List.mem_cons.mp h with rfl | h
      · obtain ⟨c'', hle, hfold⟩ := keep l (costStep nTrucks cost (t, w, c)) (min ((cost (t, w)).getD c) c) (by
          unfold costStep
          rw [if_pos ht, Function.update_self])
        exact ⟨c'', hle.trans (min_le_right _ _), hfold⟩
      · exact ih _ h
  exact key edges _ h

variable {slotWpos : List ℕ}

theorem cOf_le {t s : ℕ} {c : ℤ} (ht : t < nTrucks) (h : (t, slotWpos.getD s 0, c) ∈ edges) :
    cOf nTrucks slotWpos edges t s ≤ c := by
  obtain ⟨c', hle, hc⟩ := costOf_le ht h
  rw [cOf, hc]
  exact hle

theorem mem_of_cOf_lt {t s : ℕ} (h : cOf nTrucks slotWpos edges t s < FORBIDDEN_COST) :
    (t, slotWpos.getD s 0, cOf nTrucks slotWpos edges t s) ∈ edges := by
  unfold cOf at h ⊢
  cases hc : costOf nTrucks edges (t, slotWpos.getD s 0) with
  | none => rw [hc] at h; exact absurd h (lt_irrefl _)
  | some c => exact mem_of_costOf hc

theorem cOf_bounds (hcost : ∀ e ∈ edges, 0 ≤ e.2.2 ∧ e.2.2 < FORBIDDEN_COST) (t s : ℕ) :
    0 ≤ cOf nTrucks slotWpos edges t s ∧ cOf nTrucks slotWpos edges t s ≤ FORBIDDEN_COST := by
  unfold cOf
  cases hc : costOf nTrucks edges (t, slotWpos.getD s 0) with
  | none => exact ⟨by decide, le_refl _⟩
  | some c =>
    have := hcost _ (mem_of_costOf hc)
    exact ⟨this.1, this.2.le⟩

end CostTable

/-! ## The pairs -/

/-- Distinct numbers below `k`, `k` of them, are the numbers below `k`. -/
theorem perm_range_of_nodup {l : List ℕ} {k : ℕ} (hlen : l.length = k) (hlt : ∀ i < k, l.getD i 0 < k)
    (hinj : ∀ i < k, ∀ j < k, l.getD i 0 = l.getD j 0 → i = j) : l.Nodup ∧ l.Perm (List.range k) := by
  have hget : ∀ i (hi : i < l.length), l[i] = l.getD i 0 := fun i hi => (List.getD_eq_getElem _ _ hi).symm
  have hnodup : l.Nodup := by
    rw [List.nodup_iff_injective_getElem]
    intro i j he
    change l[i.1] = l[j.1] at he
    rw [hget, hget] at he
    exact Fin.ext (hinj i (hlen ▸ i.2) j (hlen ▸ j.2) he)
  have hsub : l ⊆ List.range k := by
    intro x hx
    obtain ⟨i, hi, rfl⟩ := List.getElem_of_mem hx
    rw [List.mem_range, hget]
    exact hlt i (hlen ▸ hi)
  refine ⟨hnodup, (hnodup.subperm hsub).perm_of_length_le ?_⟩
  rw [List.length_range, hlen]

theorem costAt_table {n m : ℕ} {f : ℕ → ℕ → ℤ} {i j : ℕ} (hi : i < n) (hj : j < m) :
    costAt ((List.range n).map fun x => (List.range m).map fun y => f x y) i j = f i j := by
  have hrow : ((List.range n).map fun x => (List.range m).map fun y => f x y).getD i [] =
      (List.range m).map fun y => f i y := by
    rw [List.getD_eq_getElem _ _ (by simpa using hi), List.getElem_map, List.getElem_range]
  rw [costAt, hrow, List.getD_eq_getElem _ _ (by simpa using hj), List.getElem_map, List.getElem_range]

theorem costMatrix_table {n m : ℕ} {f : ℕ → ℕ → ℤ} {M : ℤ} (h : ∀ i j, 0 ≤ f i j ∧ f i j ≤ M) :
    CostMatrix ((List.range n).map fun x => (List.range m).map fun y => f x y) n m M := by
  refine ⟨by simp, fun row hrow => ?_, fun row hrow x hx => ?_⟩
  · obtain ⟨i, -, rfl⟩ := List.mem_map.mp hrow
    simp
  · obtain ⟨i, -, rfl⟩ := List.mem_map.mp hrow
    obtain ⟨j, -, rfl⟩ := List.mem_map.mp hx
    exact h i j

/-- The pairs (truck, slot) where slot `s` has truck `f s`. -/
def pairsOf (f : ℕ → ℕ) (k : ℕ) : List (ℕ × ℕ) := (List.range k).map fun s => (f s, s)

theorem zipIdx_eq_map_range (l : List ℕ) : l.zipIdx = (List.range l.length).map fun i => (l.getD i 0, i) := by
  apply List.ext_getElem (by simp)
  intro i hi hi'
  rw [List.getElem_zipIdx, List.getElem_map, List.getElem_range, Nat.zero_add, List.getD_eq_getElem]

/-- The rows of a cost table get columns of their own at the least cost. -/
theorem hungarian_table {n m : ℕ} {f : ℕ → ℕ → ℤ} (hf : ∀ i j, 0 ≤ f i j ∧ f i j ≤ FORBIDDEN_COST) (hnm : n ≤ m)
    {res : List ℕ} (hres : res = hungarian ((List.range n).map fun x => (List.range m).map fun y => f x y)) :
    res.length = n ∧ (∀ i < n, res.getD i 0 < m) ∧
      (∀ i < n, ∀ j < n, res.getD i 0 = res.getD j 0 → i = j) ∧
      ∀ g : ℕ → ℕ, (∀ i < n, g i < m) → Set.InjOn g (Finset.range n) →
        ∑ i ∈ Finset.range n, f i (res.getD i 0) ≤ ∑ i ∈ Finset.range n, f i (g i) := by
  subst hres
  obtain ⟨hlen, hlt, hinj, hmin⟩ := hungarian_optimal (costMatrix_table (n := n) (m := m) hf) hnm (by decide)
  refine ⟨hlen, hlt, hinj, fun g hg hginj => ?_⟩
  have hsum : ∀ g : ℕ → ℕ, (∀ i < n, g i < m) →
      ∑ i ∈ Finset.range n, costAt ((List.range n).map fun x => (List.range m).map fun y => f x y) i (g i) =
        ∑ i ∈ Finset.range n, f i (g i) :=
    fun g hg => Finset.sum_congr rfl fun i hi => costAt_table (Finset.mem_range.mp hi) (hg i (Finset.mem_range.mp hi))
  have h := hmin g hg hginj
  rwa [hsum _ hlt, hsum g hg] at h

theorem sum_inverse (c : ℕ → ℕ → ℤ) {k : ℕ} {g g' : ℕ → ℕ} (hg : ∀ s < k, g s < k) (hg' : ∀ t < k, g' t < k)
    (hleft : ∀ s < k, g' (g s) = s) (hright : ∀ t < k, g (g' t) = t) :
    ∑ s ∈ Finset.range k, c (g s) s = ∑ t ∈ Finset.range k, c t (g' t) := by
  refine Finset.sum_bij' (fun s _ => g s) (fun t _ => g' t) (fun s hs => ?_) (fun t ht => ?_) (fun s hs => ?_)
    (fun t ht => ?_) (fun s hs => ?_)
  · exact Finset.mem_range.mpr (hg s (Finset.mem_range.mp hs))
  · exact Finset.mem_range.mpr (hg' t (Finset.mem_range.mp ht))
  · exact hleft s (Finset.mem_range.mp hs)
  · exact hright t (Finset.mem_range.mp ht)
  · rw [hleft s (Finset.mem_range.mp hs)]

theorem exists_inverse {k : ℕ} {g : ℕ → ℕ} (hg : ∀ s < k, g s < k) (hinj : Set.InjOn g (Finset.range k)) :
    ∃ g' : ℕ → ℕ, (∀ t < k, g' t < k) ∧ (∀ s < k, g' (g s) = s) ∧ ∀ t < k, g (g' t) = t := by
  have hsurj : ∀ t < k, ∃ s < k, g s = t := by
    intro t ht
    obtain ⟨s, hs, he⟩ := Finset.surj_on_of_inj_on_of_card_le (s := Finset.range k) (t := Finset.range k)
      (fun s _ => g s) (fun s hs => Finset.mem_range.mpr (hg s (Finset.mem_range.mp hs)))
      (fun s s' hs hs' he => hinj hs hs' he) (le_refl _) t (Finset.mem_range.mpr ht)
    exact ⟨s, Finset.mem_range.mp hs, he.symm⟩
  choose! g' hg' hgg' using hsurj
  refine ⟨g', hg', fun s hs => ?_, hgg'⟩
  exact hinj (Finset.mem_range.mpr (hg' _ (hg s hs))) (Finset.mem_range.mpr hs) (hgg' _ (hg s hs))

/-- Every slot gets a truck of its own, at the least total cost. -/
def OptimalPairs (nTrucks k : ℕ) (c : ℕ → ℕ → ℤ) (pairs : List (ℕ × ℕ)) : Prop :=
  ∃ f : ℕ → ℕ, pairs.Perm (pairsOf f k) ∧ (∀ s < k, f s < nTrucks) ∧ Set.InjOn f (Finset.range k) ∧
    ∀ g : ℕ → ℕ, (∀ s < k, g s < nTrucks) → Set.InjOn g (Finset.range k) →
      ∑ s ∈ Finset.range k, c (f s) s ≤ ∑ s ∈ Finset.range k, c (g s) s

section Pairs

variable {nTrucks k : ℕ} {c : ℕ → ℕ → ℤ} (hc : ∀ t s, 0 ≤ c t s ∧ c t s ≤ FORBIDDEN_COST)

include hc

theorem optimalPairs_slots (hfew : k ≤ nTrucks) :
    OptimalPairs nTrucks k c
      (hungarian ((List.range k).map fun s => (List.range nTrucks).map fun t => c t s)).zipIdx := by
  set res := hungarian ((List.range k).map fun s => (List.range nTrucks).map fun t => c t s) with hres
  obtain ⟨hlen, hlt, hinj, hmin⟩ := hungarian_table (f := fun s t => c t s) (fun s t => hc t s) hfew hres
  refine ⟨fun s => res.getD s 0, ?_, hlt, fun s hs s' hs' he => ?_, hmin⟩
  · rw [zipIdx_eq_map_range, hlen]
    exact List.Perm.refl _
  · exact hinj s (Finset.mem_range.mp hs) s' (Finset.mem_range.mp hs') he

/-- With as many trucks as slots, and the trucks on the rows: every slot is some truck's column. -/
theorem optimalPairs_trucks :
    OptimalPairs k k c ((hungarian ((List.range k).map fun t => (List.range k).map fun s => c t s)).zipIdx.map
      fun st => (st.2, st.1)) := by
  set res := hungarian ((List.range k).map fun t => (List.range k).map fun s => c t s) with hres
  obtain ⟨hlen, hlt, hinj, hmin⟩ := hungarian_table hc (le_refl k) hres
  obtain ⟨hnodup, hperm⟩ := perm_range_of_nodup hlen hlt hinj
  have hidx : ∀ t < k, res.idxOf (res.getD t 0) = t := by
    intro t ht
    rw [List.getD_eq_getElem _ _ (by rw [hlen]; exact ht), hnodup.idxOf_getElem]
  have hmem : ∀ s < k, s ∈ res := fun s hs => hperm.mem_iff.mpr (List.mem_range.mpr hs)
  have hget : ∀ s < k, res.getD (res.idxOf s) 0 = s := by
    intro s hs
    rw [List.getD_eq_getElem _ _ (List.idxOf_lt_length_of_mem (hmem s hs)), List.getElem_idxOf]
  have hidx_lt : ∀ s < k, res.idxOf s < k := by
    intro s hs
    rw [← hlen]
    exact List.idxOf_lt_length_of_mem (hmem s hs)
  refine ⟨fun s => res.idxOf s, ?_, hidx_lt, fun s hs s' hs' he => ?_, fun g hg hginj => ?_⟩
  · rw [zipIdx_eq_map_range, List.map_map, hlen]
    have hmap : (List.range k).map ((fun st : ℕ × ℕ => (st.2, st.1)) ∘ fun i => (res.getD i 0, i)) =
        res.map fun s => (res.idxOf s, s) := by
      apply List.ext_getElem (by simp [hlen])
      intro i hi hi'
      have hi'' : i < k := by simpa using hi
      simp only [List.getElem_map, List.getElem_range, Function.comp_apply]
      rw [hnodup.idxOf_getElem, List.getD_eq_getElem]
    rw [hmap]
    exact hperm.map _
  · have h1 := hget s (Finset.mem_range.mp hs)
    have h2 := hget s' (Finset.mem_range.mp hs')
    rw [← h1, ← h2]
    exact congrArg (res.getD · 0) he
  · -- the inverse of `g` is a competitor of the rows
    obtain ⟨g', hg', hleft, hright⟩ := exists_inverse hg hginj
    rw [sum_inverse c hidx_lt hlt hget hidx, sum_inverse c hg hg' hleft hright]
    apply hmin g' hg'
    intro t ht t' ht' he
    rw [← hright t (Finset.mem_range.mp ht), ← hright t' (Finset.mem_range.mp ht'), he]

end Pairs

/-- **Every slot gets a truck of its own at the least cost of the matrix**, whichever side is on the rows. -/
theorem assignPairs_optimal (nTrucks : ℕ) {slotWpos : List ℕ} {edges : List Edge}
    (hcost : ∀ e ∈ edges, 0 ≤ e.2.2 ∧ e.2.2 < FORBIDDEN_COST) (hfew : slotWpos.length ≤ nTrucks) :
    OptimalPairs nTrucks slotWpos.length (cOf nTrucks slotWpos edges) (assignPairs nTrucks slotWpos edges) := by
  have hbounds : ∀ t s, 0 ≤ cOf nTrucks slotWpos edges t s ∧ cOf nTrucks slotWpos edges t s ≤ FORBIDDEN_COST :=
    fun t s => cOf_bounds hcost t s
  unfold assignPairs
  split_ifs with hle
  · obtain rfl := le_antisymm hle hfew
    exact optimalPairs_trucks hbounds
  · exact optimalPairs_slots hbounds hfew

/-! ## `assign_slots` -/

/-- A choice of an edge (truck and cost) for every slot, no truck twice. -/
structure Serves (edges : List Edge) (slotWpos : List ℕ) (g : ℕ → ℕ × ℤ) : Prop where
  edge : ∀ s < slotWpos.length, ((g s).1, slotWpos.getD s 0, (g s).2) ∈ edges
  inj : Set.InjOn (fun s => (g s).1) (Finset.range slotWpos.length)

def totalCost (slotWpos : List ℕ) (g : ℕ → ℕ × ℤ) : ℤ := ∑ s ∈ Finset.range slotWpos.length, (g s).2

theorem Serves.length_le {edges : List Edge} {slotWpos : List ℕ} {g : ℕ → ℕ × ℤ} {nTrucks : ℕ}
    (h : Serves edges slotWpos g) (hrange : ∀ e ∈ edges, e.1 < nTrucks) : slotWpos.length ≤ nTrucks := by
  have := Finset.card_le_card_of_injOn (t := Finset.range nTrucks) (fun s => (g s).1)
    (fun s hs => Finset.mem_range.mpr (hrange _ (h.edge s (Finset.mem_range.mp hs)))) h.inj
  rwa [Finset.card_range, Finset.card_range] at this

/-- **Where all slots can be served below the sentinel, all are, at the least total cost.** -/
theorem assignSlots_optimal {nTrucks : ℕ} {slotWpos : List ℕ} {edges : List Edge} (hrange : ∀ e ∈ edges, e.1 < nTrucks)
    (hcost : ∀ e ∈ edges, 0 ≤ e.2.2)
    (hsmall : ∀ e ∈ edges, (min nTrucks slotWpos.length : ℕ) * e.2.2 < FORBIDDEN_COST) {h : ℕ → ℕ × ℤ}
    (hserves : Serves edges slotWpos h) :
    ∃ g, Serves edges slotWpos g ∧
      (assignSlots nTrucks slotWpos edges).Perm
        ((List.range slotWpos.length).map fun s => ((g s).1, slotWpos.getD s 0)) ∧
      ∀ g', Serves edges slotWpos g' → totalCost slotWpos g ≤ totalCost slotWpos g' := by
  have hfew := hserves.length_le hrange
  by_cases hk0 : slotWpos.length = 0
  · refine ⟨h, hserves, ?_, fun g' _ => ?_⟩
    · rw [assignSlots, if_pos (Or.inr hk0), hk0]
      exact List.Perm.refl _
    · rw [totalCost, totalCost, hk0]
      exact le_refl _
  have hn0 : nTrucks ≠ 0 := by omega
  rw [min_eq_right hfew] at hsmall
  have hpos : (1 : ℤ) ≤ (slotWpos.length : ℕ) := by omega
  have hlt : ∀ e ∈ edges, 0 ≤ e.2.2 ∧ e.2.2 < FORBIDDEN_COST := fun e he =>
    ⟨hcost e he, lt_of_le_of_lt (le_mul_of_one_le_left (hcost e he) hpos) (hsmall e he)⟩
  obtain ⟨f, hperm, hfn, hfinj, hmin⟩ := assignPairs_optimal nTrucks hlt hfew
  have hle : ∀ g', Serves edges slotWpos g' →
      ∑ s ∈ Finset.range slotWpos.length, cOf nTrucks slotWpos edges (f s) s ≤ totalCost slotWpos g' := by
    intro g' hg'
    refine (hmin (fun s => (g' s).1) (fun s hs => hrange _ (hg'.edge s hs)) hg'.inj).trans ?_
    exact Finset.sum_le_sum fun s hs =>
      cOf_le (hrange _ (hg'.edge s (Finset.mem_range.mp hs))) (hg'.edge s (Finset.mem_range.mp hs))
  -- the served slots cost less than the sentinel together, so no pair of the optimum is a forbidden one
  have hcheap : ∀ s ∈ Finset.range slotWpos.length, cOf nTrucks slotWpos edges (f s) s < FORBIDDEN_COST := by
    refine all_cheap_of_sum_le (fun s _ => (cOf_bounds hlt (f s) s).1) (hle h hserves) fun s hs => ?_
    rw [Finset.card_range]
    exact hsmall _ (hserves.edge s (Finset.mem_range.mp hs))
  refine ⟨fun s => (f s, cOf nTrucks slotWpos edges (f s) s),
    ⟨fun s hs => mem_of_cOf_lt (hcheap s (Finset.mem_range.mpr hs)), hfinj⟩, ?_, hle⟩
  rw [assignSlots, if_neg (by tauto)]
  have hall : (pairsOf f slotWpos.length).filter
      (fun ts => cOf nTrucks slotWpos edges ts.1 ts.2 < FORBIDDEN_COST) = pairsOf f slotWpos.length := by
    rw [List.filter_eq_self]
    intro ts hts
    obtain ⟨s, hs, rfl⟩ := List.mem_map.mp hts
    exact decide_eq_true (hcheap s (Finset.mem_range.mpr (List.mem_range.mp hs)))
  have := (hperm.filter fun ts => decide (cOf nTrucks slotWpos edges ts.1 ts.2 < FORBIDDEN_COST)).map
    fun ts => (ts.1, slotWpos.getD ts.2 0)
  rw [hall, pairsOf, List.map_map] at this
  exact this

end TtAiops.Stage2
