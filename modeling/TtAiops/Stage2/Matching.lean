import TtAiops.Stage2.Assign

/-!
# `assign_slots` where not every slot can be served

* `IsMatching`, `cost` : edges with distinct trucks and distinct slots, and what they cost;
* `Best` : a matching with as many edges as there can be, at the least cost of so many;
* `kept_best` : what the solver leaves below the sentinel is best, for either side on the rows;
* `assignSlots_best` : **the result is the pairs of a best matching.**
-/

namespace TtAiops.Stage2
open TtAiops.Lib

/-- Edges of trucks in range to slots of the list, no truck and no slot twice: (truck, slot, cost). -/
structure IsMatching (nTrucks : ℕ) (slotWpos : List ℕ) (edges : List Edge) (M : List (ℕ × ℕ × ℤ)) : Prop where
  edge : ∀ p ∈ M, p.1 < nTrucks ∧ p.2.1 < slotWpos.length ∧ (p.1, slotWpos.getD p.2.1 0, p.2.2) ∈ edges
  trucks : (M.map fun p => p.1).Nodup
  slots : (M.map fun p => p.2.1).Nodup

def cost (M : List (ℕ × ℕ × ℤ)) : ℤ := (M.map fun p => p.2.2).sum

/-- A matching that no other has more edges than, or as many at a smaller cost. -/
structure Best (nTrucks : ℕ) (slotWpos : List ℕ) (edges : List Edge) (M : List (ℕ × ℕ × ℤ)) : Prop where
  matching : IsMatching nTrucks slotWpos edges M
  most : ∀ M', IsMatching nTrucks slotWpos edges M' → M'.length ≤ M.length
  least : ∀ M', IsMatching nTrucks slotWpos edges M' → M'.length = M.length → cost M ≤ cost M'

/-! ## What the solver keeps -/

/-- The rows whose pair costs less than the sentinel. -/
def keptRows (n : ℕ) (f : ℕ → ℕ → ℤ) (res : List ℕ) : List ℕ :=
  (List.range n).filter fun i => f i (res.getD i 0) < FORBIDDEN_COST

theorem mem_keptRows {n : ℕ} {f : ℕ → ℕ → ℤ} {res : List ℕ} {i : ℕ} :
    i ∈ keptRows n f res ↔ i < n ∧ f i (res.getD i 0) < FORBIDDEN_COST := by
  simp [keptRows]

theorem nodup_keptRows {n : ℕ} {f : ℕ → ℕ → ℤ} {res : List ℕ} : (keptRows n f res).Nodup :=
  List.nodup_range.filter _

theorem toFinset_keptRows {n : ℕ} {f : ℕ → ℕ → ℤ} {res : List ℕ} :
    (keptRows n f res).toFinset = (Finset.range n).filter fun i => f i (res.getD i 0) < FORBIDDEN_COST := by
  ext i
  simp [mem_keptRows]

section kept
variable {n m : ℕ} {f : ℕ → ℕ → ℤ} {res : List ℕ} {row col : ℕ × ℕ × ℤ → ℕ} {M : List (ℕ × ℕ × ℤ)}

variable (row col) in
/-- A matching of small edges has no more of them than are kept, and is no cheaper if it has as many. -/
theorem kept_best (hf : ∀ i j, 0 ≤ f i j ∧ f i j ≤ FORBIDDEN_COST) (hnm : n ≤ m)
    (hres : res = hungarian ((List.range n).map fun x => (List.range m).map fun y => f x y))
    (hrow : ∀ p ∈ M, row p < n) (hcol : ∀ p ∈ M, col p < m) (hrows : (M.map row).Nodup) (hcols : (M.map col).Nodup)
    (hle : ∀ p ∈ M, f (row p) (col p) ≤ p.2.2) (hcheap : ∀ p ∈ M, (n : ℤ) * p.2.2 < FORBIDDEN_COST) :
    M.length ≤ (keptRows n f res).length ∧
      (M.length = (keptRows n f res).length → ((keptRows n f res).map fun i => f i (res.getD i 0)).sum ≤ cost M) := by
  obtain ⟨-, hlt, -, hmin⟩ := hungarian_table hf hnm hres
  have hnodup : M.Nodup := hrows.of_map row
  have hrange : (Finset.range n).card ≤ (Finset.range m).card := by simpa using hnm
  have hrow' : ∀ p ∈ M.toFinset, row p ∈ Finset.range n := fun p hp =>
    Finset.mem_range.mpr (hrow p (List.mem_toFinset.mp hp))
  have hcol' : ∀ p ∈ M.toFinset, col p ∈ Finset.range m := fun p hp =>
    Finset.mem_range.mpr (hcol p (List.mem_toFinset.mp hp))
  have hinj : ∀ g : ℕ × ℕ × ℤ → ℕ, (M.map g).Nodup → Set.InjOn g M.toFinset := by
    intro g hg p hp q hq he
    exact List.inj_on_of_nodup_map hg (List.mem_toFinset.mp hp) (List.mem_toFinset.mp hq) he
  have hr : ∀ i ∈ Finset.range n, res.getD i 0 ∈ Finset.range m := fun i hi =>
    Finset.mem_range.mpr (hlt i (Finset.mem_range.mp hi))
  have hopt : ∀ g : ℕ → ℕ, (∀ i ∈ Finset.range n, g i ∈ Finset.range m) → Set.InjOn g (Finset.range n) →
      ∑ i ∈ Finset.range n, f i (res.getD i 0) ≤ ∑ i ∈ Finset.range n, f i (g i) := by
    intro g hg hginj
    exact hmin g (fun i hi => Finset.mem_range.mp (hg i (Finset.mem_range.mpr hi))) hginj
  have hcheap' : ∀ p ∈ M.toFinset, ((Finset.range n).card : ℤ) * f (row p) (col p) < FORBIDDEN_COST := by
    intro p hp
    have hp' := List.mem_toFinset.mp hp
    rw [Finset.card_range]
    exact lt_of_le_of_lt (mul_le_mul_of_nonneg_left (hle p hp') (Int.natCast_nonneg n)) (hcheap p hp')
  rw [← List.toFinset_card_of_nodup hnodup, ← List.toFinset_card_of_nodup nodup_keptRows,
    ← List.sum_toFinset _ nodup_keptRows, toFinset_keptRows]
  constructor
  · exact card_le_of_big hrange (fun i _ j _ => hf i j) hr hopt hrow' hcol' (hinj row hrows) (hinj col hcols) hcheap'
  · intro hsame
    refine (sum_le_of_big hrange (fun i _ j _ => (hf i j).2) hr hopt hrow' hcol' (hinj row hrows) (hinj col hcols)
      hsame).trans ?_
    rw [cost, ← List.sum_toFinset _ hnodup]
    exact Finset.sum_le_sum fun p hp => hle p (List.mem_toFinset.mp hp)

end kept

/-! ## Both sides on the rows -/

section assign
variable {nTrucks : ℕ} {slotWpos : List ℕ} {edges : List Edge}

theorem IsMatching.cOf_le {M : List (ℕ × ℕ × ℤ)} (h : IsMatching nTrucks slotWpos edges M) {p : ℕ × ℕ × ℤ} (hp : p ∈ M) :
    cOf nTrucks slotWpos edges p.1 p.2.1 ≤ p.2.2 :=
  Stage2.cOf_le (h.edge p hp).1 (h.edge p hp).2.2

/-- What is kept is best, if it is a matching and no matching has more pairs than are kept, or as many at a smaller sum. -/
theorem best_of_kept {n : ℕ} {f : ℕ → ℕ → ℤ} {res : List ℕ} {pair : ℕ → ℕ × ℕ × ℤ}
    (hpair : ∀ i, (pair i).2.2 = f i (res.getD i 0)) (h : IsMatching nTrucks slotWpos edges ((keptRows n f res).map pair))
    (hkept : ∀ M', IsMatching nTrucks slotWpos edges M' → M'.length ≤ (keptRows n f res).length ∧
      (M'.length = (keptRows n f res).length → ((keptRows n f res).map fun i => f i (res.getD i 0)).sum ≤ cost M')) :
    Best nTrucks slotWpos edges ((keptRows n f res).map pair) := by
  refine ⟨h, ?_, ?_⟩
  · intro M' h'
    rw [List.length_map]
    exact (hkept M' h').1
  · intro M' h' hsame
    rw [List.length_map] at hsame
    rw [cost, List.map_map, show (fun p : ℕ × ℕ × ℤ => p.2.2) ∘ pair = fun i => f i (res.getD i 0) from funext hpair]
    exact (hkept M' h').2 hsame

theorem best_trucks (hcost : ∀ e ∈ edges, 0 ≤ e.2.2 ∧ e.2.2 < FORBIDDEN_COST)
    (hsmall : ∀ e ∈ edges, (nTrucks : ℤ) * e.2.2 < FORBIDDEN_COST) (hfew : nTrucks ≤ slotWpos.length) {res : List ℕ}
    (hres : res = hungarian ((List.range nTrucks).map fun t =>
      (List.range slotWpos.length).map fun s => cOf nTrucks slotWpos edges t s)) :
    Best nTrucks slotWpos edges ((keptRows nTrucks (cOf nTrucks slotWpos edges) res).map fun t =>
      (t, res.getD t 0, cOf nTrucks slotWpos edges t (res.getD t 0))) := by
  have hbounds : ∀ t s, 0 ≤ cOf nTrucks slotWpos edges t s ∧ cOf nTrucks slotWpos edges t s ≤ FORBIDDEN_COST :=
    fun t s => cOf_bounds hcost t s
  obtain ⟨-, hlt, hinj, -⟩ := hungarian_table hbounds hfew hres
  have hkept := fun M' (h : IsMatching nTrucks slotWpos edges M') =>
    kept_best (fun p => p.1) (fun p => p.2.1) hbounds hfew hres (fun p hp => (h.edge p hp).1)
      (fun p hp => (h.edge p hp).2.1) h.trucks h.slots (fun p hp => h.cOf_le hp)
      (fun p hp => hsmall (p.1, slotWpos.getD p.2.1 0, p.2.2) (h.edge p hp).2.2)
  apply best_of_kept (fun _ => rfl) _ hkept
  refine ⟨?_, ?_, ?_⟩
  · intro p hp
    obtain ⟨t, ht, rfl⟩ := List.mem_map.mp hp
    obtain ⟨htn, hcheap⟩ := mem_keptRows.mp ht
    exact ⟨htn, hlt t htn, mem_of_cOf_lt hcheap⟩
  · rw [List.map_map]
    exact nodup_keptRows.map_on fun _ _ _ _ h => h
  · rw [List.map_map]
    apply nodup_keptRows.map_on
    intro t ht t' ht' he
    exact hinj t (mem_keptRows.mp ht).1 t' (mem_keptRows.mp ht').1 he

theorem best_slots (hcost : ∀ e ∈ edges, 0 ≤ e.2.2 ∧ e.2.2 < FORBIDDEN_COST)
    (hsmall : ∀ e ∈ edges, (slotWpos.length : ℤ) * e.2.2 < FORBIDDEN_COST) (hfew : slotWpos.length ≤ nTrucks)
    {res : List ℕ}
    (hres : res = hungarian ((List.range slotWpos.length).map fun s =>
      (List.range nTrucks).map fun t => cOf nTrucks slotWpos edges t s)) :
    Best nTrucks slotWpos edges ((keptRows slotWpos.length (fun s t => cOf nTrucks slotWpos edges t s) res).map fun s =>
      (res.getD s 0, s, cOf nTrucks slotWpos edges (res.getD s 0) s)) := by
  have hbounds : ∀ s t, 0 ≤ cOf nTrucks slotWpos edges t s ∧ cOf nTrucks slotWpos edges t s ≤ FORBIDDEN_COST :=
    fun s t => cOf_bounds hcost t s
  obtain ⟨-, hlt, hinj, -⟩ := hungarian_table hbounds hfew hres
  have hkept := fun M' (h : IsMatching nTrucks slotWpos edges M') =>
    kept_best (fun p => p.2.1) (fun p => p.1) hbounds hfew hres (fun p hp => (h.edge p hp).2.1)
      (fun p hp => (h.edge p hp).1) h.slots h.trucks (fun p hp => h.cOf_le hp)
      (fun p hp => hsmall (p.1, slotWpos.getD p.2.1 0, p.2.2) (h.edge p hp).2.2)
  apply best_of_kept (fun _ => rfl) _ hkept
  refine ⟨?_, ?_, ?_⟩
  · intro p hp
    obtain ⟨s, hs, rfl⟩ := List.mem_map.mp hp
    obtain ⟨hsk, hcheap⟩ := mem_keptRows.mp hs
    exact ⟨hlt s hsk, hsk, mem_of_cOf_lt hcheap⟩
  · rw [List.map_map]
    apply nodup_keptRows.map_on
    intro s hs s' hs' he
    exact hinj s (mem_keptRows.mp hs).1 s' (mem_keptRows.mp hs').1 he
  · rw [List.map_map]
    exact nodup_keptRows.map_on fun _ _ _ _ h => h

theorem best_nil (h : nTrucks = 0 ∨ slotWpos.length = 0) : Best nTrucks slotWpos edges [] := by
  have hnil : ∀ M', IsMatching nTrucks slotWpos edges M' → M' = [] := by
    intro M' hM
    apply List.eq_nil_iff_forall_not_mem.mpr
    intro p hp
    obtain ⟨ht, hs, -⟩ := hM.edge p hp
    omega
  refine ⟨⟨by simp, by simp, by simp⟩, ?_, ?_⟩
  · intro M' hM
    rw [hnil M' hM]
  · intro M' hM _
    rw [hnil M' hM]

/-- **The result of `assign_slots` is the pairs of a best matching**: distinct trucks and slots, each pair an edge, as
many as there can be, at the least total cost of so many. -/
theorem assignSlots_best (nTrucks : ℕ) (slotWpos : List ℕ) (edges : List Edge) (hcost : ∀ e ∈ edges, 0 ≤ e.2.2)
    (hsmall : ∀ e ∈ edges, (min nTrucks slotWpos.length : ℕ) * e.2.2 < FORBIDDEN_COST) :
    ∃ M, Best nTrucks slotWpos edges M ∧
      assignSlots nTrucks slotWpos edges = M.map fun p => (p.1, slotWpos.getD p.2.1 0) := by
  by_cases hzero : nTrucks = 0 ∨ slotWpos.length = 0
  · exact ⟨[], best_nil hzero, by rw [assignSlots, if_pos hzero]; rfl⟩
  have hpos : (1 : ℤ) ≤ (min nTrucks slotWpos.length : ℕ) := by
    obtain ⟨h1, h2⟩ := not_or.mp hzero
    omega
  have hlt : ∀ e ∈ edges, 0 ≤ e.2.2 ∧ e.2.2 < FORBIDDEN_COST := fun e he =>
    ⟨hcost e he, lt_of_le_of_lt (le_mul_of_one_le_left (hcost e he) hpos) (hsmall e he)⟩
  have hbounds : ∀ t s, 0 ≤ cOf nTrucks slotWpos edges t s ∧ cOf nTrucks slotWpos edges t s ≤ FORBIDDEN_COST :=
    fun t s => cOf_bounds hlt t s
  rw [assignSlots, if_neg hzero]
  unfold assignPairs
  by_cases hfew : nTrucks ≤ slotWpos.length
  · rw [min_eq_left hfew] at hsmall
    rw [if_pos hfew]
    refine ⟨_, best_trucks hlt hsmall hfew rfl, ?_⟩
    obtain ⟨hlen, -⟩ := hungarian_table hbounds hfew rfl
    rw [zipIdx_eq_map_range, hlen, List.map_map, List.filter_map, List.map_map, List.map_map]
    rfl
  · rw [min_eq_right (by omega)] at hsmall
    rw [if_neg hfew]
    refine ⟨_, best_slots hlt hsmall (by omega) rfl, ?_⟩
    obtain ⟨hlen, -⟩ := hungarian_table (fun s t => hbounds t s) (by omega : slotWpos.length ≤ nTrucks) rfl
    rw [zipIdx_eq_map_range, hlen, List.filter_map, List.map_map, List.map_map]
    rfl

end assign

/-! ## One slot, one truck -/

theorem assignPairs_slots (nTrucks : ℕ) (slotWpos : List ℕ) (edges : List Edge)
    (hcost : ∀ e ∈ edges, 0 ≤ e.2.2 ∧ e.2.2 < FORBIDDEN_COST) :
    ((assignPairs nTrucks slotWpos edges).map Prod.snd).Nodup ∧
      ∀ s ∈ (assignPairs nTrucks slotWpos edges).map Prod.snd, s < slotWpos.length := by
  have hbounds : ∀ t s, 0 ≤ cOf nTrucks slotWpos edges t s ∧ cOf nTrucks slotWpos edges t s ≤ FORBIDDEN_COST :=
    fun t s => cOf_bounds hcost t s
  unfold assignPairs
  split_ifs with hle
  · obtain ⟨hlen, hlt, hinj, -⟩ := hungarian_table hbounds hle rfl
    rw [zipIdx_eq_map_range, hlen, List.map_map, List.map_map]
    constructor
    · refine List.Nodup.map_on ?_ List.nodup_range
      intro i hi j hj he
      exact hinj i (List.mem_range.mp hi) j (List.mem_range.mp hj) he
    · intro s hs
      obtain ⟨i, hi, rfl⟩ := List.mem_map.mp hs
      exact hlt i (List.mem_range.mp hi)
  · obtain ⟨hlen, -⟩ := hungarian_table (fun s t => hbounds t s) (by omega : slotWpos.length ≤ nTrucks) rfl
    rw [zipIdx_eq_map_range, hlen, List.map_map]
    constructor
    · exact List.Nodup.map_on (fun i _ j _ he => he) List.nodup_range
    · intro s hs
      obtain ⟨i, hi, rfl⟩ := List.mem_map.mp hs
      exact List.mem_range.mp hi

theorem eq_of_count_le_one {l : List ℕ} {a i j : ℕ} (hone : l.count a ≤ 1) (hi : i < l.length) (hj : j < l.length)
    (hia : l.getD i 0 = a) (hja : l.getD j 0 = a) : i = j := by
  have htwice : ∀ i j, i < j → j < l.length → l.getD i 0 = a → l.getD j 0 = a → False := by
    intro i j hij hj hia hja
    rw [List.getD_eq_getElem _ _ (hij.trans hj)] at hia
    rw [List.getD_eq_getElem _ _ hj] at hja
    have hdup : List.Duplicate a l := List.duplicate_iff_exists_distinct_get.mpr ⟨⟨i, hij.trans hj⟩, ⟨j, hj⟩, hij, hia.symm, hja.symm⟩
    have htwo := List.duplicate_iff_two_le_count.mp hdup
    omega
  obtain hlt | heq | hgt := Nat.lt_trichotomy i j
  · exact (htwice i j hlt hj hia hja).elim
  · exact heq
  · exact (htwice j i hgt hi hja hia).elim

theorem assignSlots_once {nTrucks : ℕ} {slotWpos : List ℕ} {edges : List Edge}
    (hcost : ∀ e ∈ edges, 0 ≤ e.2.2 ∧ e.2.2 < FORBIDDEN_COST) {w t t' : ℕ} (hone : slotWpos.count w ≤ 1)
    (h : (t, w) ∈ assignSlots nTrucks slotWpos edges) (h' : (t', w) ∈ assignSlots nTrucks slotWpos edges) : t = t' := by
  unfold assignSlots at h h'
  split_ifs at h h'
  · exact absurd h List.not_mem_nil
  obtain ⟨⟨u, s⟩, hus, he⟩ := List.mem_map.mp h
  obtain ⟨⟨u', s'⟩, hus', he'⟩ := List.mem_map.mp h'
  obtain ⟨rfl, hw⟩ := Prod.mk.inj he
  obtain ⟨rfl, hw'⟩ := Prod.mk.inj he'
  obtain ⟨hnodup, hlt⟩ := assignPairs_slots nTrucks slotWpos edges hcost
  have hus := List.mem_of_mem_filter hus
  have hus' := List.mem_of_mem_filter hus'
  have hslot : s = s' := eq_of_count_le_one hone (hlt s (List.mem_map_of_mem hus)) (hlt s' (List.mem_map_of_mem hus')) hw hw'
  exact congrArg Prod.fst (List.inj_on_of_nodup_map hnodup hus hus' hslot)

/-- Two trucks and two bundles, both trucks near the first one only, an edge twice and one of no truck. -/
def nearEdges : List Edge := [(0, 0, 120), (0, 0, 80), (1, 0, 60), (7, 1, 10)]

theorem assignSlots_best_nearEdges : (∃ M, Best 2 [0, 1, 0] nearEdges M ∧
      assignSlots 2 [0, 1, 0] nearEdges = M.map fun p => (p.1, [0, 1, 0].getD p.2.1 0)) ∧
    assignSlots 2 [0, 1, 0] nearEdges = [(0, 0), (1, 0)] :=
  ⟨assignSlots_best 2 [0, 1, 0] nearEdges (by decide) (by decide), by decide +kernel⟩

end TtAiops.Stage2
