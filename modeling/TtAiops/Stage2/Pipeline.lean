import Mathlib
import TtAiops.Stage2.Assign

/-!
# Stage 2: due works, cover, assignment

The works whose deadline has come give slots, the slots are cut to the number of candidate trucks (`allocate_due`),
the cover decides which of them are served, and the assignment decides by which truck.

* `coveredSlots`, `stage2Assign` : the composition of `deadline_cover` and `assign_slots`;
* `assign_serves_covered` : **every covered slot gets a truck of its own, along edges, at the least total cost**;
* `dueWorks`, `allocateDue`, `tickCover` : the due works of a tick, the cut, and the cover over the kept slots;
* `count_slotAll`, `mem_keepDue`, `nodup_dueWorks` : a work is kept once, with no more slots than it has;
* `tickCover_greedy` : the cover of a tick is the greedy cover, in slot order, of the works' edges.
-/

namespace TtAiops.Stage2
open TtAiops.Lib

/-- `slot_wpos`: the bundles of the covered slots. -/
def keptSlots (slotAll : List ℕ) (covered : List Bool) : List ℕ :=
  ((slotAll.zip covered).filter fun x => x.2).map fun x => x.1

def coveredSlots (nTrucks : ℕ) (slotAll : List ℕ) (edges : List Edge) : List ℕ :=
  keptSlots slotAll (deadlineCover nTrucks slotAll edges)

/-- `assign`: the (truck, bundle) pairs of a tick. -/
def stage2Assign (nTrucks : ℕ) (slotAll : List ℕ) (edges : List Edge) : List (ℕ × ℕ) :=
  assignSlots nTrucks (coveredSlots nTrucks slotAll edges) edges

/-! ## Cover, then assign -/

theorem keptSlots_eq {slotAll : List ℕ} {covered : List Bool} (h : covered.length = slotAll.length) :
    keptSlots slotAll covered =
      ((List.range slotAll.length).filter fun s => covered.getD s false).map fun s => slotAll.getD s 0 := by
  have hzip : slotAll.zip covered = (List.range slotAll.length).map fun s => (slotAll.getD s 0, covered.getD s false) := by
    apply List.ext_getElem (by simp [h])
    intro i hi hi'
    have hi1 : i < slotAll.length := by simpa using hi'
    simp only [List.getElem_zip, List.getElem_map, List.getElem_range]
    rw [List.getD_eq_getElem _ _ hi1, List.getD_eq_getElem _ _ (h ▸ hi1)]
  rw [keptSlots, hzip, List.filter_map, List.map_map]
  rfl

theorem exists_serves_covered (nTrucks : ℕ) (slotAll : List ℕ) (edges : List Edge) :
    ∃ g, Serves edges (coveredSlots nTrucks slotAll edges) g := by
  obtain ⟨f, hinj, htake⟩ := (deadlineCover_greedy nTrucks slotAll edges).servable
  set covered := deadlineCover nTrucks slotAll edges with hcov
  set idx := (List.range slotAll.length).filter fun s => covered.getD s false with hidx
  have hkept : coveredSlots nTrucks slotAll edges = idx.map fun s => slotAll.getD s 0 :=
    keptSlots_eq (length_deadlineCover nTrucks slotAll edges)
  have hmem : ∀ s ∈ idx, s ∈ {r | r < slotAll.length ∧ covered.getD r false = true} := by
    intro s hs
    obtain ⟨h1, h2⟩ := List.mem_filter.mp hs
    exact ⟨List.mem_range.mp h1, h2⟩
  have hnodup : idx.Nodup := List.Nodup.filter _ List.nodup_range
  choose! cost hcost using fun s (hs : s ∈ {r | r < slotAll.length ∧ covered.getD r false = true}) => (htake s hs).2
  rw [hkept]
  have hlen : ∀ i, i < (idx.map fun s => slotAll.getD s 0).length → i < idx.length := fun i hi => by simpa using hi
  refine ⟨fun i => (f (idx.getD i 0), cost (idx.getD i 0)), fun i hi => ?_, fun i hi j hj he => ?_⟩
  · have hi' := hlen i hi
    rw [List.getD_eq_getElem _ _ hi, List.getElem_map, List.getD_eq_getElem _ _ hi']
    exact hcost _ (hmem _ (List.getElem_mem hi'))
  · have hi' := hlen i (Finset.mem_range.mp hi)
    have hj' := hlen j (Finset.mem_range.mp hj)
    simp only [List.getD_eq_getElem _ _ hi', List.getD_eq_getElem _ _ hj'] at he
    exact (hnodup.getElem_inj_iff).mp (hinj (hmem _ (List.getElem_mem hi')) (hmem _ (List.getElem_mem hj')) he)

/-- **Every covered slot is served exactly once, by a truck of its own and along an edge, every bundle gets as many
trucks as it has covered slots, and no choice of edges that serves all covered slots is cheaper.** -/
theorem assign_serves_covered (nTrucks : ℕ) (slotAll : List ℕ) (edges : List Edge)
    (hrange : ∀ e ∈ edges, e.1 < nTrucks) (hcost : ∀ e ∈ edges, 0 ≤ e.2.2)
    (hsmall : ∀ e ∈ edges, (min nTrucks (coveredSlots nTrucks slotAll edges).length : ℕ) * e.2.2 < FORBIDDEN_COST) :
    ∃ g, Serves edges (coveredSlots nTrucks slotAll edges) g ∧
      (stage2Assign nTrucks slotAll edges).Perm ((List.range (coveredSlots nTrucks slotAll edges).length).map
        fun s => ((g s).1, (coveredSlots nTrucks slotAll edges).getD s 0)) ∧
      ((stage2Assign nTrucks slotAll edges).map Prod.fst).Nodup ∧
      (∀ tw ∈ stage2Assign nTrucks slotAll edges, ∃ c, (tw.1, tw.2, c) ∈ edges) ∧
      (∀ w, ((stage2Assign nTrucks slotAll edges).map Prod.snd).count w =
        (coveredSlots nTrucks slotAll edges).count w) ∧
      ∀ h, Serves edges (coveredSlots nTrucks slotAll edges) h →
        totalCost (coveredSlots nTrucks slotAll edges) g ≤ totalCost (coveredSlots nTrucks slotAll edges) h := by
  obtain ⟨h, hh⟩ := exists_serves_covered nTrucks slotAll edges
  obtain ⟨g, hg, hperm, hmin⟩ := assignSlots_optimal hrange hcost hsmall hh
  set kept := coveredSlots nTrucks slotAll edges
  refine ⟨g, hg, hperm, ?_, fun tw htw => ?_, fun w => ?_, hmin⟩
  · refine (hperm.map Prod.fst).nodup_iff.mpr ?_
    rw [List.map_map]
    refine List.Nodup.map_on (fun s hs s' hs' he => ?_) List.nodup_range
    exact hg.inj (Finset.mem_range.mpr (List.mem_range.mp hs)) (Finset.mem_range.mpr (List.mem_range.mp hs')) he
  · obtain ⟨s, hs, rfl⟩ := List.mem_map.mp (hperm.mem_iff.mp htw)
    exact ⟨(g s).2, hg.edge s (List.mem_range.mp hs)⟩
  · refine ((hperm.map Prod.snd).count_eq w).trans ?_
    rw [List.map_map]
    congr 1
    apply List.ext_getElem (by simp)
    intro i hi hi'
    simp only [List.getElem_map, List.getElem_range, Function.comp_apply]
    exact List.getD_eq_getElem _ _ hi'

/-- Two trucks, three slots of two bundles. -/
theorem assign_serves_covered_three :
    coveredSlots 2 [0, 1, 1] [(0, 0, 30), (0, 1, 10), (1, 1, 20)] = [0, 1] ∧
      ((stage2Assign 2 [0, 1, 1] [(0, 0, 30), (0, 1, 10), (1, 1, 20)]).map Prod.snd).count 1 = 1 := by
  have hkept : coveredSlots 2 [0, 1, 1] [(0, 0, 30), (0, 1, 10), (1, 1, 20)] = [0, 1] := by decide
  obtain ⟨-, -, -, -, -, hcount, -⟩ :=
    assign_serves_covered 2 [0, 1, 1] [(0, 0, 30), (0, 1, 10), (1, 1, 20)] (by decide) (by decide)
      (by rw [hkept]; decide)
  exact ⟨hkept, by rw [hcount, hkept]; decide⟩

theorem count_keptSlots_le {slots : List ℕ} {covered : List Bool} (h : covered.length = slots.length) (w : ℕ) :
    (keptSlots slots covered).count w ≤ slots.count w := by
  have hsub : List.Sublist (keptSlots slots covered) ((slots.zip covered).map Prod.fst) :=
    List.Sublist.map _ List.filter_sublist
  rw [List.map_fst_zip h.ge] at hsub
  exact hsub.count_le w

/-! ## The due works -/

/-- What Stage 2 reads of a work: `tos_assigned`, `dispatch_deadline_ts` in milliseconds, `n`, and the seconds between
its slots (`LD_MOVE_S` or `DS_MOVE_S`). -/
structure DueInput where
  tosAssigned : Bool
  deadline : Option ℤ
  n : ℤ
  loading : Bool

def moveS (w : DueInput) : ℤ := if w.loading then 132 else 90

/-- The due slots of a work: its leading slots that lie before the cutoff. -/
def dueSlots (cutoff : ℤ) (w : DueInput) (base : ℤ) : ℤ :=
  ((List.range w.n.toNat).takeWhile fun (j : ℕ) => base + j * moveS w * 1000 ≤ cutoff).length

/-- A due work: its number in the tick, its due slots, the deadline of the first of them. -/
abbrev Due := ℕ × ℤ × ℤ

/-- `due`: the works of the tick that TOS has not assigned and that have a due slot. -/
def dueWorks (cutoff : ℤ) (works : List DueInput) : List Due :=
  works.zipIdx.filterMap fun x =>
    if x.1.tosAssigned then none
    else x.1.deadline.bind fun base =>
      if 0 < dueSlots cutoff x.1 base then some (x.2, dueSlots cutoff x.1 base, base) else none

/-- The stable sort of `allocate_due`. -/
def byDeadline (due : List Due) : List Due := due.insertionSort fun a b => a.2.2 ≤ b.2.2

/-- The loop of `allocate_due`. -/
def keepDue (truckN : ℤ) : ℤ → List Due → List (ℕ × ℤ)
  | _, [] => []
  | acc, (oi, slots, _) :: rest =>
    if truckN ≤ acc then []
    else if min slots (truckN - acc) ≤ 0 then keepDue truckN acc rest
    else (oi, min slots (truckN - acc)) :: keepDue truckN (acc + min slots (truckN - acc)) rest

/-- `allocate_due`: the kept works with the number of their slots that are kept. -/
def allocateDue (due : List Due) (truckN : ℤ) : List (ℕ × ℤ) := keepDue truckN 0 (byDeadline due)

/-- `slot_all`: the bundle number of every slot of the driving works. -/
def slotAll (driving : List (ℕ × ℤ)) : List ℕ := driving.zipIdx.flatMap fun x => List.replicate x.1.2.toNat x.2

/-- `edges`: those of the driving works, under their bundle numbers. `workEdges` gives the trucks a work may get and
their costs. -/
def drivingEdges (workEdges : ℕ → List (ℕ × ℤ)) (driving : List (ℕ × ℤ)) : List Edge :=
  driving.zipIdx.flatMap fun x => (workEdges x.1.1).map fun e => (e.1, x.2, e.2)

/-- The covered flag of every slot of the driving works. -/
def tickCover (nTrucks : ℕ) (workEdges : ℕ → List (ℕ × ℤ)) (driving : List (ℕ × ℤ)) : List Bool :=
  deadlineCover nTrucks (slotAll driving) (drivingEdges workEdges driving)

def slotWorks (driving : List (ℕ × ℤ)) : List ℕ := driving.flatMap fun d => List.replicate d.2.toNat d.1

/-- A truck can reach slot `s` when its work has an edge for it. -/
def CanReach (nTrucks : ℕ) (workEdges : ℕ → List (ℕ × ℤ)) (driving : List (ℕ × ℤ)) (s t : ℕ) : Prop :=
  t < nTrucks ∧ ∃ c, (t, c) ∈ workEdges ((slotWorks driving).getD s 0)

/-! ## The slots of the driving works -/

theorem count_bundles (works : List (ℕ × ℤ)) (k w : ℕ) :
    ((works.zipIdx k).flatMap fun x => List.replicate x.1.2.toNat x.2).count w =
      if k ≤ w then (works.getD (w - k) (0, 0)).2.toNat else 0 := by
  induction works generalizing k with
  | nil => simp
  | cons d rest ih =>
    rw [List.zipIdx_cons, List.flatMap_cons, List.count_append, ih, List.count_replicate]
    obtain hlt | rfl | hgt := Nat.lt_trichotomy k w
    · have hsucc : w - k = (w - (k + 1)) + 1 := by omega
      rw [if_pos (by omega : k + 1 ≤ w), if_pos hlt.le, hsucc, List.getD_cons_succ]
      simp [hlt.ne]
    · simp
    · rw [if_neg (by omega : ¬ k + 1 ≤ w), if_neg (by omega : ¬ k ≤ w)]
      simp [hgt.ne']

theorem count_slotAll (driving : List (ℕ × ℤ)) (w : ℕ) : (slotAll driving).count w = (driving.getD w (0, 0)).2.toNat := by
  rw [slotAll, count_bundles, if_pos (Nat.zero_le w), Nat.sub_zero]

/-- The works that are kept are due works, none twice, and no slot of theirs is new. -/
theorem mem_keepDue {truckN acc : ℤ} {due : List Due} {d : ℕ × ℤ} (h : d ∈ keepDue truckN acc due) :
    ∃ e ∈ due, e.1 = d.1 ∧ d.2 ≤ e.2.1 := by
  induction due generalizing acc with
  | nil => exact absurd h List.not_mem_nil
  | cons e rest ih =>
    obtain ⟨oi, slots, base⟩ := e
    rw [keepDue] at h
    split_ifs at h
    · exact absurd h List.not_mem_nil
    · obtain ⟨e, he, hd⟩ := ih h
      exact ⟨e, List.mem_cons_of_mem _ he, hd⟩
    · obtain rfl | h := List.mem_cons.mp h
      · exact ⟨_, List.mem_cons_self, rfl, min_le_left _ _⟩
      · obtain ⟨e, he, hd⟩ := ih h
        exact ⟨e, List.mem_cons_of_mem _ he, hd⟩

theorem keepDue_sublist (truckN acc : ℤ) (due : List Due) :
    List.Sublist ((keepDue truckN acc due).map Prod.fst) (due.map Prod.fst) := by
  induction due generalizing acc with
  | nil => exact List.Sublist.refl _
  | cons e rest ih =>
    obtain ⟨oi, slots, base⟩ := e
    rw [keepDue]
    split_ifs
    · exact List.nil_sublist _
    · exact (ih acc).cons _
    · exact (ih _).cons_cons _

theorem nodup_dueWorks (cutoff : ℤ) (works : List DueInput) : ((dueWorks cutoff works).map Prod.fst).Nodup := by
  have hidx : works.zipIdx.Pairwise fun x y => x.2 ≠ y.2 := by
    rw [← List.pairwise_map, List.zipIdx_map_snd]
    exact List.nodup_range'
  have hname : ∀ (x : DueInput × ℕ) d, (if x.1.tosAssigned then none else x.1.deadline.bind fun base =>
      if 0 < dueSlots cutoff x.1 base then some (x.2, dueSlots cutoff x.1 base, base) else none) = some d → d.1 = x.2 := by
    intro x d hd
    split_ifs at hd
    obtain ⟨base, -, hd⟩ := Option.bind_eq_some_iff.mp hd
    split_ifs at hd
    obtain rfl := Option.some.inj hd
    rfl
  rw [List.Nodup, List.pairwise_map, dueWorks, List.pairwise_filterMap]
  refine hidx.imp fun {x y} hne d hd d' hd' => ?_
  rw [hname x d hd, hname y d' hd']
  exact hne

theorem getD_of_mem_zipIdx {driving : List (ℕ × ℤ)} {d : ℕ × ℤ} {w : ℕ} (h : (d, w) ∈ driving.zipIdx) :
    w < driving.length ∧ driving.getD w (0, 0) = d := by
  obtain ⟨hw, hd⟩ := List.mem_zipIdx' h
  exact ⟨hw, (List.getD_eq_getElem _ _ hw).trans hd.symm⟩

theorem slotWorks_eq (driving : List (ℕ × ℤ)) :
    slotWorks driving = (slotAll driving).map fun w => (driving.getD w (0, 0)).1 := by
  have hbundle : ∀ x ∈ driving.zipIdx, (List.replicate x.1.2.toNat x.2).map (fun w => (driving.getD w (0, 0)).1) =
      List.replicate x.1.2.toNat x.1.1 := by
    rintro ⟨d, w⟩ hx
    rw [List.map_replicate, (getD_of_mem_zipIdx hx).2]
  rw [slotAll, List.map_flatMap, List.flatMap_congr hbundle, slotWorks]
  conv_lhs => rw [← List.zipIdx_map_fst 0 driving, List.flatMap_map]

theorem mem_drivingEdges {workEdges : ℕ → List (ℕ × ℤ)} {driving : List (ℕ × ℤ)} {t w : ℕ} {c : ℤ} :
    (t, w, c) ∈ drivingEdges workEdges driving ↔
      w < driving.length ∧ (t, c) ∈ workEdges (driving.getD w (0, 0)).1 := by
  rw [drivingEdges, List.mem_flatMap]
  constructor
  · rintro ⟨⟨d, w'⟩, hx, he⟩
    obtain ⟨⟨t', c'⟩, hmem, heq⟩ := List.mem_map.mp he
    obtain ⟨rfl, rfl, rfl⟩ : t' = t ∧ w' = w ∧ c' = c := by simpa using heq
    obtain ⟨hw, hd⟩ := getD_of_mem_zipIdx hx
    exact ⟨hw, by rw [hd]; exact hmem⟩
  · rintro ⟨hw, he⟩
    refine ⟨(driving.getD w (0, 0), w), ?_, List.mem_map.mpr ⟨(t, c), he, rfl⟩⟩
    rw [List.mem_zipIdx_iff_getElem?, List.getD_eq_getElem _ _ hw]
    exact List.getElem?_eq_getElem hw

theorem length_slotWorks (driving : List (ℕ × ℤ)) : (slotWorks driving).length = (slotAll driving).length := by
  rw [slotWorks_eq, List.length_map]

theorem slotAll_lt {driving : List (ℕ × ℤ)} {w : ℕ} (h : w ∈ slotAll driving) : w < driving.length := by
  obtain ⟨x, hx, hw⟩ := List.mem_flatMap.mp h
  obtain ⟨-, rfl⟩ := List.mem_replicate.mp hw
  exact (List.mem_zipIdx' hx).1

/-- Below the number of slots, the edges of the tick are those of the works. -/
theorem canTake_iff_canReach {nTrucks : ℕ} {workEdges : ℕ → List (ℕ × ℤ)} {driving : List (ℕ × ℤ)} {s t : ℕ}
    (hs : s < (slotAll driving).length) :
    CanTake nTrucks (slotAll driving) (drivingEdges workEdges driving) s t ↔ CanReach nTrucks workEdges driving s t := by
  have hw : (slotAll driving)[s] < driving.length := slotAll_lt (List.getElem_mem hs)
  have hwork : (slotWorks driving).getD s 0 = (driving.getD (slotAll driving)[s] (0, 0)).1 := by
    rw [List.getD_eq_getElem _ _ (by rw [length_slotWorks]; exact hs)]
    simp only [slotWorks_eq, List.getElem_map]
  rw [CanTake, CanReach, hwork, List.getD_eq_getElem _ _ hs]
  refine and_congr_right fun _ => exists_congr fun c => ?_
  rw [mem_drivingEdges]
  exact ⟨fun h => h.2, fun h => ⟨hw, h⟩⟩

/-- The cover of a tick is the greedy cover, in slot order, of the works' edges. -/
theorem tickCover_greedy (nTrucks : ℕ) (workEdges : ℕ → List (ℕ × ℤ)) (driving : List (ℕ × ℤ)) :
    GreedyCover (CanReach nTrucks workEdges driving) (slotWorks driving).length
      (fun s => (tickCover nTrucks workEdges driving).getD s false = true) := by
  have h := deadlineCover_greedy nTrucks (slotAll driving) (drivingEdges workEdges driving)
  rw [length_slotWorks]
  intro s hs
  have hbelow : ∀ r ∈ ({r | r < s ∧ (tickCover nTrucks workEdges driving).getD r false = true} ∪ {s} : Set ℕ),
      r < (slotAll driving).length := by
    rintro r (⟨hr, -⟩ | rfl)
    · exact hr.trans hs
    · exact hs
  refine (h s hs).trans ⟨fun hA => hA.congr fun r hr t => (canTake_iff_canReach (hbelow r hr)).mp,
    fun hA => hA.congr fun r hr t => (canTake_iff_canReach (hbelow r hr)).mpr⟩

theorem length_tickCover (nTrucks : ℕ) (workEdges : ℕ → List (ℕ × ℤ)) (driving : List (ℕ × ℤ)) :
    (tickCover nTrucks workEdges driving).length = (slotWorks driving).length := by
  rw [tickCover, length_deadlineCover, length_slotWorks]

end TtAiops.Stage2
