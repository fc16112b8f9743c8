import TtAiops.Stage2.Pipeline

/-!
# Which slots `allocate_due` takes

* `slotsOf` : the slots of works one after the other, a slot being a work and a place in it;
* `MostUrgent` : as many slots as there are trucks, none left out that is due before a taken one, in the order of their
  deadlines;
* `TakenFirst`, `takenFirst_append` : the first slots of a list of blocks;
* `BucketsFollow` : a work's taken slots are due no later than the first slots of the works behind it;
* `allocateDue_mostUrgent_iff` : **the works taken whole give the most urgent slots exactly when the buckets follow**;
* `edfSlots`, `edfCover` : all due slots in the order of their deadlines, and the greedy cover over them;
* `tickCover_cut` : **then the slots that a tick serves are those of this cover that lie before the cut.**
-/

namespace TtAiops.Stage2
open TtAiops.Lib

/-- The slots of works, one work after the other. -/
def slotsOf (works : List (ℕ × ℤ)) : List (ℕ × ℕ) :=
  works.flatMap fun w => (List.range w.2.toNat).map fun j => (w.1, j)

def dueSlotsAll (due : List Due) : List (ℕ × ℕ) := slotsOf (due.map fun d => (d.1, d.2.1))

/-- The deadlines of the slots of works: they do not go back within a work, whose first one is the work's. -/
structure SlotTimes (slotTs : ℕ → ℕ → ℤ) (due : List Due) : Prop where
  mono : ∀ oi, Monotone (slotTs oi)
  first : ∀ d ∈ due, slotTs d.1 0 = d.2.2

/-- `taken` are the most urgent of the due slots, for `truckN` trucks. -/
structure MostUrgent (slotTs : ℕ → ℕ → ℤ) (due : List Due) (truckN : ℤ) (taken : List (ℕ × ℕ)) : Prop where
  nodup : taken.Nodup
  subset : ∀ x ∈ taken, x ∈ dueSlotsAll due
  size : taken.length = min truckN.toNat (dueSlotsAll due).length
  urgent : ∀ x ∈ dueSlotsAll due, x ∉ taken → ∀ y ∈ taken, slotTs y.1 y.2 ≤ slotTs x.1 x.2
  ordered : taken.Pairwise fun x y => slotTs x.1 x.2 ≤ slotTs y.1 y.2

/-- The works in the order of their first deadlines, `n` slots still to be taken: what is taken of a work is due no
later than the first slot of any work behind it. -/
def BucketsFollow (slotTs : ℕ → ℕ → ℤ) : ℕ → List Due → Prop
  | _, [] => True
  | n, d :: rest =>
    (∀ j < d.2.1.toNat, j < n → ∀ e ∈ rest, 0 < e.2.1 → slotTs d.1 j ≤ e.2.2) ∧
      BucketsFollow slotTs (n - d.2.1.toNat) rest

instance decidableBucketsFollow (slotTs : ℕ → ℕ → ℤ) : ∀ n due, Decidable (BucketsFollow slotTs n due)
  | _, [] => .isTrue trivial
  | n, d :: rest =>
    have := decidableBucketsFollow slotTs (n - d.2.1.toNat) rest
    inferInstanceAs (Decidable (_ ∧ _))

/-! ## The first slots of blocks -/

section blocks
variable {α : Type*} (key : α → ℤ)

/-- The first `n` entries are in order, and not behind the others. -/
def TakenFirst (n : ℕ) (l : List α) : Prop :=
  (l.take n).Pairwise (fun x y => key x ≤ key y) ∧ ∀ x ∈ l.take n, ∀ y ∈ l.drop n, key x ≤ key y

theorem takenFirst_append {n : ℕ} {b r : List α} (hb : b.Pairwise fun x y => key x ≤ key y) :
    TakenFirst key n (b ++ r) ↔ (∀ x ∈ b.take n, ∀ y ∈ r, key x ≤ key y) ∧ TakenFirst key (n - b.length) r := by
  have hsplit : ∀ y, y ∈ r ↔ y ∈ r.take (n - b.length) ∨ y ∈ r.drop (n - b.length) := by
    intro y
    rw [← List.mem_append, List.take_append_drop]
  unfold TakenFirst
  rw [List.take_append, List.drop_append, List.pairwise_append]
  constructor
  · intro ⟨⟨_, hrest, hcross⟩, hdrop⟩
    refine ⟨?_, hrest, ?_⟩
    · intro x hx y hy
      obtain hy | hy := (hsplit y).mp hy
      · exact hcross x hx y hy
      · exact hdrop x (List.mem_append_left _ hx) y (List.mem_append_right _ hy)
    · intro x hx y hy
      exact hdrop x (List.mem_append_right _ hx) y (List.mem_append_right _ hy)
  · intro ⟨hcross, hrest, hdrop⟩
    refine ⟨⟨hb.sublist (List.take_sublist n b), hrest, fun x hx y hy => hcross x hx y ((hsplit y).mpr (Or.inl hy))⟩, ?_⟩
    intro x hx y hy
    obtain hx | hx := List.mem_append.mp hx <;> obtain hy | hy := List.mem_append.mp hy
    · -- both in the block, which is in order
      have hblock := hb
      rw [← List.take_append_drop n b, List.pairwise_append] at hblock
      exact hblock.2.2 x hx y hy
    · exact hcross x hx y ((hsplit y).mpr (Or.inr hy))
    · -- the block ends before anything of the rest is taken
      obtain hlt | hle := Nat.lt_or_ge n b.length
      · rw [Nat.sub_eq_zero_of_le hlt.le, List.take_zero] at hx
        exact absurd hx List.not_mem_nil
      · rw [List.drop_eq_nil_of_le hle] at hy
        exact absurd hy List.not_mem_nil
    · exact hdrop x hx y hy

end blocks

/-! ## The slots of works -/

theorem slotsOf_cons (w : ℕ × ℤ) (works : List (ℕ × ℤ)) :
    slotsOf (w :: works) = ((List.range w.2.toNat).map fun j => (w.1, j)) ++ slotsOf works := rfl

theorem mem_slotsOf {works : List (ℕ × ℤ)} {x : ℕ × ℕ} :
    x ∈ slotsOf works ↔ ∃ w ∈ works, x.1 = w.1 ∧ x.2 < w.2.toNat := by
  unfold slotsOf
  simp only [List.mem_flatMap, List.mem_map, List.mem_range]
  constructor
  · intro ⟨w, hw, j, hj, he⟩
    subst he
    exact ⟨w, hw, rfl, hj⟩
  · intro ⟨w, hw, he, hj⟩
    exact ⟨w, hw, x.2, hj, Prod.ext he.symm rfl⟩

theorem nodup_slotsOf {works : List (ℕ × ℤ)} (h : (works.map Prod.fst).Nodup) : (slotsOf works).Nodup := by
  induction works with
  | nil => exact List.nodup_nil
  | cons w works ih =>
    rw [List.map_cons, List.nodup_cons] at h
    rw [slotsOf_cons]
    refine List.Nodup.append (List.nodup_range.map fun j k hjk => (Prod.mk.inj hjk).2) (ih h.2) ?_
    intro x hx hx'
    obtain ⟨j, -, rfl⟩ := List.mem_map.mp hx
    obtain ⟨w', hw', he, -⟩ := mem_slotsOf.mp hx'
    exact h.1 (List.mem_map.mpr ⟨w', hw', he.symm⟩)

/-- The loop keeps the first slots of the works, one work after the other. -/
theorem slotsOf_keepDue (truckN acc : ℤ) (due : List Due) :
    slotsOf (keepDue truckN acc due) = (dueSlotsAll due).take (truckN - acc).toNat := by
  unfold dueSlotsAll
  induction due generalizing acc with
  | nil => simp [keepDue, slotsOf]
  | cons d rest ih =>
    obtain ⟨oi, slots, base⟩ := d
    rw [List.map_cons, slotsOf_cons, keepDue]
    dsimp only
    split_ifs with hfull hnone
    · have h0 : (truckN - acc).toNat = 0 := by omega
      rw [h0, List.take_zero]
      rfl
    · have h0 : slots.toNat = 0 := by omega
      rw [ih, h0, List.range_zero, List.map_nil, List.nil_append]
    · have hhead : min (truckN - acc).toNat slots.toNat = (min slots (truckN - acc)).toNat := by omega
      have htail : (truckN - acc).toNat - slots.toNat = (truckN - (acc + min slots (truckN - acc))).toNat := by omega
      rw [slotsOf_cons, ih, List.take_append, ← List.map_take, List.take_range, List.length_map, List.length_range, hhead,
        htail]

theorem slotsOf_allocateDue (due : List Due) (truckN : ℤ) :
    slotsOf (allocateDue due truckN) = (dueSlotsAll (byDeadline due)).take truckN.toNat := by
  rw [allocateDue, slotsOf_keepDue, sub_zero]

/-- The slots of the works do not change when the works are sorted. -/
theorem dueSlotsAll_perm (due : List Due) : (dueSlotsAll (byDeadline due)).Perm (dueSlotsAll due) :=
  List.Perm.flatMap_right _ ((List.perm_insertionSort _ due).map _)

/-- The first slots of the works are in order and not behind the others exactly when the buckets follow. -/
theorem takenFirst_iff_bucketsFollow {slotTs : ℕ → ℕ → ℤ} {due : List Due} (h : SlotTimes slotTs due) (n : ℕ) :
    TakenFirst (fun x : ℕ × ℕ => slotTs x.1 x.2) n (dueSlotsAll due) ↔ BucketsFollow slotTs n due := by
  induction due generalizing n with
  | nil => simp [TakenFirst, BucketsFollow, dueSlotsAll, slotsOf]
  | cons d rest ih =>
    have hrest : SlotTimes slotTs rest := ⟨h.mono, fun e he => h.first e (List.mem_cons_of_mem d he)⟩
    have hblock : ((List.range d.2.1.toNat).map fun j => (d.1, j)).Pairwise
        fun x y : ℕ × ℕ => slotTs x.1 x.2 ≤ slotTs y.1 y.2 := by
      rw [List.pairwise_map]
      exact List.pairwise_lt_range.imp fun hij => h.mono d.1 hij.le
    show TakenFirst _ n (((List.range d.2.1.toNat).map fun j => (d.1, j)) ++ dueSlotsAll rest) ↔ _
    rw [takenFirst_append _ hblock, List.length_map, List.length_range, ih hrest, BucketsFollow]
    apply and_congr_left'
    constructor
    · intro hall j hj hjn e he hpos
      rw [← hrest.first e he]
      apply hall (d.1, j) _ (e.1, 0)
      · exact mem_slotsOf.mpr ⟨(e.1, e.2.1), List.mem_map.mpr ⟨e, he, rfl⟩, rfl, by simpa using hpos⟩
      · rw [← List.map_take, List.take_range]
        exact List.mem_map.mpr ⟨j, List.mem_range.mpr (by omega), rfl⟩
    · intro hfollow x hx y hy
      rw [← List.map_take, List.take_range] at hx
      obtain ⟨j, hj, rfl⟩ := List.mem_map.mp hx
      have hj' := List.mem_range.mp hj
      obtain ⟨w, hw, hy1, hy2⟩ := mem_slotsOf.mp hy
      obtain ⟨e, he, rfl⟩ := List.mem_map.mp hw
      dsimp only at hy1 hy2 ⊢
      have hle := hfollow j (by omega) (by omega) e he (by omega)
      have hmono := h.mono y.1 (Nat.zero_le y.2)
      have hfirst := hrest.first e he
      rw [hy1] at hmono ⊢
      omega

/-- **`allocate_due` takes the most urgent slots exactly when the buckets follow** in the order of their first
deadlines. -/
theorem allocateDue_mostUrgent_iff {slotTs : ℕ → ℕ → ℤ} {due : List Due} (hwork : (due.map Prod.fst).Nodup)
    (h : SlotTimes slotTs due) (truckN : ℤ) :
    MostUrgent slotTs due truckN (slotsOf (allocateDue due truckN)) ↔
      BucketsFollow slotTs truckN.toNat (byDeadline due) := by
  have hsorted : SlotTimes slotTs (byDeadline due) :=
    ⟨h.mono, fun d hd => h.first d ((List.perm_insertionSort _ due).mem_iff.mp hd)⟩
  have hperm := dueSlotsAll_perm due
  have hnodup : (dueSlotsAll (byDeadline due)).Nodup := by
    apply hperm.nodup_iff.mpr
    apply nodup_slotsOf
    rw [List.map_map]
    exact hwork
  rw [← takenFirst_iff_bucketsFollow hsorted, slotsOf_allocateDue]
  set all := dueSlotsAll (byDeadline due) with hall
  have hdrop : ∀ x ∈ all, x ∉ all.take truckN.toNat ↔ x ∈ all.drop truckN.toNat := by
    intro x hx
    have hdisj := List.disjoint_take_drop hnodup (le_refl truckN.toNat)
    have hor : x ∈ all.take truckN.toNat ∨ x ∈ all.drop truckN.toNat := by
      rwa [← List.mem_append, List.take_append_drop]
    exact ⟨hor.resolve_left, fun hd ht => hdisj ht hd⟩
  constructor
  · intro hurgent
    refine ⟨hurgent.ordered, ?_⟩
    intro x hx y hy
    have hyall := List.mem_of_mem_drop hy
    exact hurgent.urgent y (hperm.mem_iff.mp hyall) ((hdrop y hyall).mpr hy) x hx
  · intro hfirst
    refine ⟨hnodup.sublist (List.take_sublist _ _), ?_, ?_, ?_, hfirst.1⟩
    · intro x hx
      exact hperm.mem_iff.mp (List.mem_of_mem_take hx)
    · rw [List.length_take, hperm.length_eq]
    · intro x hx hnot y hy
      have hxall := hperm.mem_iff.mpr hx
      exact hfirst.2 y hy x ((hdrop x hxall).mp hnot)

/-! ## The cover over all due slots -/

/-- All due slots, the earliest deadline first. -/
def edfSlots (slotTs : ℕ → ℕ → ℤ) (due : List Due) : List (ℕ × ℕ) :=
  (dueSlotsAll (byDeadline due)).insertionSort fun x y => slotTs x.1 x.2 ≤ slotTs y.1 y.2

def dueEdges (workEdges : ℕ → List (ℕ × ℤ)) (due : List Due) : List Edge :=
  due.flatMap fun d => (workEdges d.1).map fun e => (e.1, d.1, e.2)

/-- `deadline_cover` over all due slots, before anything is cut. -/
def edfCover (nTrucks : ℕ) (workEdges : ℕ → List (ℕ × ℤ)) (slotTs : ℕ → ℕ → ℤ) (due : List Due) : List Bool :=
  deadlineCover nTrucks ((edfSlots slotTs due).map Prod.fst) (dueEdges workEdges due)

/-- First slots that are in order and not behind the others stay in front when all are sorted. -/
theorem take_insertionSort {α : Type*} {key : α → ℤ} {n : ℕ} {l : List α} (h : TakenFirst key n l) :
    (l.insertionSort fun x y => key x ≤ key y).take n = l.take n := by
  induction l generalizing n with
  | nil => rfl
  | cons a l ih =>
    cases n with
    | zero => rfl
    | succ n =>
      obtain ⟨hord, hdrop⟩ := h
      rw [List.take_succ_cons, List.pairwise_cons] at hord
      rw [List.take_succ_cons, List.drop_succ_cons] at hdrop
      have hfirst : ∀ x ∈ l.insertionSort fun x y => key x ≤ key y, key a ≤ key x := by
        intro x hx
        have hx := (List.mem_insertionSort _).mp hx
        rw [← List.take_append_drop n l] at hx
        obtain hx | hx := List.mem_append.mp hx
        · exact hord.1 x hx
        · exact hdrop a List.mem_cons_self x hx
      have hhead : (a :: l).insertionSort (fun x y => key x ≤ key y) = a :: l.insertionSort fun x y => key x ≤ key y := by
        rw [List.insertionSort_cons]
        cases hsort : l.insertionSort fun x y => key x ≤ key y with
        | nil => rfl
        | cons b sorted => exact if_pos (hfirst b (hsort ▸ List.mem_cons_self))
      rw [hhead, List.take_succ_cons, List.take_succ_cons, ih ⟨hord.2, fun x hx => hdrop x (List.mem_cons_of_mem _ hx)⟩]

theorem map_fst_slotsOf (works : List (ℕ × ℤ)) : (slotsOf works).map Prod.fst = slotWorks works := by
  rw [slotsOf, List.map_flatMap, slotWorks]
  apply List.flatMap_congr
  intro w _
  rw [List.map_map, List.eq_replicate_iff]
  exact ⟨by simp, by simp⟩

/-- **The kept slots are the first of all due slots**, where the buckets follow. -/
theorem slotWorks_allocateDue {slotTs : ℕ → ℕ → ℤ} {due : List Due} (h : SlotTimes slotTs due) {truckN : ℤ}
    (hfollow : BucketsFollow slotTs truckN.toNat (byDeadline due)) :
    slotWorks (allocateDue due truckN) = ((edfSlots slotTs due).map Prod.fst).take truckN.toNat := by
  have hsorted : SlotTimes slotTs (byDeadline due) :=
    ⟨h.mono, fun d hd => h.first d ((List.perm_insertionSort _ due).mem_iff.mp hd)⟩
  have hfirst := (takenFirst_iff_bucketsFollow hsorted truckN.toNat).mpr hfollow
  rw [← map_fst_slotsOf, slotsOf_allocateDue, ← List.map_take, edfSlots, take_insertionSort hfirst]

theorem mem_dueEdges {workEdges : ℕ → List (ℕ × ℤ)} {due : List Due} {t oi : ℕ} {c : ℤ} :
    (t, oi, c) ∈ dueEdges workEdges due ↔ oi ∈ due.map Prod.fst ∧ (t, c) ∈ workEdges oi := by
  rw [dueEdges, List.mem_flatMap]
  constructor
  · intro ⟨d, hd, he⟩
    obtain ⟨⟨t', c'⟩, hmem, heq⟩ := List.mem_map.mp he
    obtain ⟨rfl, rfl, rfl⟩ : t' = t ∧ d.1 = oi ∧ c' = c := by simpa using heq
    exact ⟨List.mem_map_of_mem hd, hmem⟩
  · intro ⟨hoi, he⟩
    obtain ⟨d, hd, rfl⟩ := List.mem_map.mp hoi
    exact ⟨d, hd, List.mem_map.mpr ⟨(t, c), he, rfl⟩⟩

/-- Truck `t` has an edge to the work of the `s`-th of all due slots. -/
def EdfReach (nTrucks : ℕ) (workEdges : ℕ → List (ℕ × ℤ)) (slotTs : ℕ → ℕ → ℤ) (due : List Due) (s t : ℕ) : Prop :=
  t < nTrucks ∧ ∃ c, (t, c) ∈ workEdges (((edfSlots slotTs due).map Prod.fst).getD s 0)

section cover
variable {nTrucks : ℕ} {workEdges : ℕ → List (ℕ × ℤ)} {slotTs : ℕ → ℕ → ℤ} {due : List Due} {truckN : ℤ}

variable (nTrucks workEdges slotTs due) in
theorem edfCover_greedy : GreedyCover (EdfReach nTrucks workEdges slotTs due) (edfSlots slotTs due).length
    (fun s => (edfCover nTrucks workEdges slotTs due).getD s false = true) := by
  have h := deadlineCover_greedy nTrucks ((edfSlots slotTs due).map Prod.fst) (dueEdges workEdges due)
  rw [List.length_map] at h
  have hreach : ∀ s < (edfSlots slotTs due).length, ∀ t,
      CanTake nTrucks ((edfSlots slotTs due).map Prod.fst) (dueEdges workEdges due) s t ↔
        EdfReach nTrucks workEdges slotTs due s t := by
    intro s hs t
    have hwork : ((edfSlots slotTs due).map Prod.fst).getD s 0 ∈ due.map Prod.fst := by
      rw [List.getD_eq_getElem _ _ (by rwa [List.length_map]), List.getElem_map]
      have hmem := (List.mem_insertionSort _).mp (List.getElem_mem (l := edfSlots slotTs due) hs)
      obtain ⟨w, hw, heq, -⟩ := mem_slotsOf.mp ((dueSlotsAll_perm due).mem_iff.mp hmem)
      obtain ⟨d, hd, rfl⟩ := List.mem_map.mp hw
      rw [heq]
      exact List.mem_map_of_mem hd
    rw [CanTake, EdfReach]
    refine and_congr_right fun _ => exists_congr fun c => ?_
    rw [mem_dueEdges]
    exact ⟨And.right, fun he => ⟨hwork, he⟩⟩
  intro s hs
  have hbelow : ∀ r ∈ ({r | r < s ∧ (edfCover nTrucks workEdges slotTs due).getD r false = true} ∪ {s} : Set ℕ),
      r < (edfSlots slotTs due).length := by
    rintro r (⟨hr, -⟩ | rfl)
    · exact hr.trans hs
    · exact hs
  refine (h s hs).trans ⟨fun hA => hA.congr fun r hr t => (hreach r (hbelow r hr) t).mp,
    fun hA => hA.congr fun r hr t => (hreach r (hbelow r hr) t).mpr⟩

theorem length_edfCover : (edfCover nTrucks workEdges slotTs due).length = (edfSlots slotTs due).length := by
  rw [edfCover, length_deadlineCover, List.length_map]

/-- The cover over the kept slots is the cover over all due slots up to the cut. -/
theorem tickCover_allocateDue (h : SlotTimes slotTs due) (hfollow : BucketsFollow slotTs truckN.toNat (byDeadline due)) :
    tickCover nTrucks workEdges (allocateDue due truckN) = (edfCover nTrucks workEdges slotTs due).take truckN.toNat := by
  have hcut := slotWorks_allocateDue h hfollow
  have hlen : (slotWorks (allocateDue due truckN)).length = min truckN.toNat (edfSlots slotTs due).length := by
    rw [hcut, List.length_take, List.length_map]
  have hsame : ∀ s < (slotWorks (allocateDue due truckN)).length, ∀ t,
      CanReach nTrucks workEdges (allocateDue due truckN) s t ↔ EdfReach nTrucks workEdges slotTs due s t := by
    intro s hs t
    have hget : (slotWorks (allocateDue due truckN)).getD s 0 = ((edfSlots slotTs due).map Prod.fst).getD s 0 := by
      rw [List.getD_eq_getElem _ _ hs, List.getD_eq_getElem _ _ (by rw [List.length_map]; omega)]
      simp only [hcut, List.getElem_take]
    rw [CanReach, EdfReach, hget]
  have hunique := (tickCover_greedy nTrucks workEdges (allocateDue due truckN)).unique
    ((edfCover_greedy nTrucks workEdges slotTs due).prefix_of_le (by omega)) hsame
  apply List.ext_getElem
  · rw [length_tickCover, List.length_take, length_edfCover, hlen]
  · intro s hs hs'
    rw [length_tickCover] at hs
    have hiff := hunique s hs
    rw [List.getElem_take]
    rw [List.getD_eq_getElem _ _ (by rw [length_tickCover]; exact hs),
      List.getD_eq_getElem _ _ (by rw [length_edfCover]; omega)] at hiff
    exact Bool.eq_iff_iff.mpr hiff

/-- Where every kept slot is served and no more trucks have edges than were counted, no truck is left for the others. -/
theorem edfCover_behind (h : SlotTimes slotTs due) (hfollow : BucketsFollow slotTs truckN.toNat (byDeadline due))
    {trucks : Finset ℕ} (hcount : trucks.card ≤ truckN.toNat) (hedges : ∀ oi, ∀ e ∈ workEdges oi, e.1 ∈ trucks)
    (hserved : ∀ b ∈ tickCover nTrucks workEdges (allocateDue due truckN), b = true) {s : ℕ} (hs : truckN.toNat ≤ s) :
    (edfCover nTrucks workEdges slotTs due).getD s false = false := by
  by_contra hcov
  rw [Bool.not_eq_false] at hcov
  have hlt : s < (edfCover nTrucks workEdges slotTs due).length := by
    by_contra hge
    rw [List.getD_eq_default _ _ (by omega)] at hcov
    exact absurd hcov (by decide)
  have hfirst : ∀ r < truckN.toNat, (edfCover nTrucks workEdges slotTs due).getD r false = true := by
    intro r hr
    rw [tickCover_allocateDue h hfollow] at hserved
    rw [List.getD_eq_getElem _ _ (by omega)]
    exact hserved _ (List.getElem_take ▸ List.getElem_mem (by rw [List.length_take]; omega))
  -- the kept slots and this one would need a truck each
  have hall : Servable (EdfReach nTrucks workEdges slotTs due) ((insert s (Finset.range truckN.toNat) : Finset ℕ) : Set ℕ) := by
    refine (edfCover_greedy nTrucks workEdges slotTs due).servable.mono ?_
    intro r hr
    rw [Finset.coe_insert, Finset.coe_range] at hr
    obtain rfl | hr := hr
    · exact ⟨by rw [← length_edfCover]; exact hlt, hcov⟩
    · have hr : r < truckN.toNat := hr
      refine ⟨?_, hfirst r hr⟩
      rw [length_edfCover] at hlt
      omega
  have hcard := hall.card_le (N := trucks) fun r _ t ht => by
    obtain ⟨-, c, hc⟩ := ht
    exact hedges _ _ hc
  rw [Finset.card_insert_of_notMem (by simpa using hs), Finset.card_range] at hcard
  omega

end cover

/-- **Stage 2 is work-conserving over the slots it keeps.** Where the buckets follow, the served slots are those of the
earliest-deadline cover over all due slots that lie before the cut, and nothing is lost where all of them are served and
no more trucks have edges than were counted. For every list of due works, no kept slot can be added to the served ones,
and the assignment gives every bundle one truck for each of its served slots. -/
theorem tickCover_cut {slotTs : ℕ → ℕ → ℤ} {due : List Due} (h : SlotTimes slotTs due) (nTrucks : ℕ)
    (workEdges : ℕ → List (ℕ × ℤ)) (truckN : ℤ) :
    (BucketsFollow slotTs truckN.toNat (byDeadline due) →
      tickCover nTrucks workEdges (allocateDue due truckN) = (edfCover nTrucks workEdges slotTs due).take truckN.toNat ∧
        ∀ trucks : Finset ℕ, trucks.card ≤ truckN.toNat → (∀ oi, ∀ e ∈ workEdges oi, e.1 ∈ trucks) →
          (∀ b ∈ tickCover nTrucks workEdges (allocateDue due truckN), b = true) →
            ∀ s, truckN.toNat ≤ s → (edfCover nTrucks workEdges slotTs due).getD s false = false) ∧
      (∀ s < (slotWorks (allocateDue due truckN)).length,
        (tickCover nTrucks workEdges (allocateDue due truckN)).getD s false = false →
        ¬ Servable (CanReach nTrucks workEdges (allocateDue due truckN))
          ({r | r < (slotWorks (allocateDue due truckN)).length ∧
            (tickCover nTrucks workEdges (allocateDue due truckN)).getD r false = true} ∪ {s})) ∧
      ((∀ oi, ∀ e ∈ workEdges oi, e.1 < nTrucks ∧ 0 ≤ e.2 ∧ nTrucks * e.2 < FORBIDDEN_COST) →
        ∀ w, ((stage2Assign nTrucks (slotAll (allocateDue due truckN))
            (drivingEdges workEdges (allocateDue due truckN))).map Prod.snd).count w =
          (keptSlots (slotAll (allocateDue due truckN))
            (tickCover nTrucks workEdges (allocateDue due truckN))).count w) := by
  refine ⟨fun hfollow => ⟨tickCover_allocateDue h hfollow, ?_⟩, fun s hs hno => ?_, fun hedges w => ?_⟩
  · intro trucks hcount hedges hserved s hs
    exact edfCover_behind h hfollow hcount hedges hserved hs
  · exact (tickCover_greedy nTrucks workEdges (allocateDue due truckN)).maximal hs (by rw [hno]; decide)
  · have hmem : ∀ e ∈ drivingEdges workEdges (allocateDue due truckN), ∃ oi, (e.1, e.2.2) ∈ workEdges oi := by
      rintro ⟨t, w, c⟩ he
      exact ⟨_, (mem_drivingEdges.mp he).2⟩
    obtain ⟨-, -, -, -, -, hcount, -⟩ := assign_serves_covered nTrucks (slotAll (allocateDue due truckN))
      (drivingEdges workEdges (allocateDue due truckN))
      (fun e he => by obtain ⟨oi, h⟩ := hmem e he; exact (hedges oi _ h).1)
      (fun e he => by obtain ⟨oi, h⟩ := hmem e he; exact (hedges oi _ h).2.1)
      (fun e he => by
        obtain ⟨oi, h⟩ := hmem e he
        obtain ⟨-, h0, hlt⟩ := hedges oi _ h
        refine lt_of_le_of_lt (mul_le_mul_of_nonneg_right ?_ h0) hlt
        exact_mod_cast min_le_left _ _)
    exact hcount w

/-- Two works with a slot each, due at 100 ms and at 200 ms. -/
def twoWorks : List Due := [(0, 1, 100), (1, 1, 200)]

def twoWorksTs (oi j : ℕ) : ℤ := 100 + oi * 100 + j * 132000

theorem twoWorks_slotTimes : SlotTimes twoWorksTs twoWorks := by
  refine ⟨fun oi => monotone_nat_of_le_succ fun j => ?_, by decide⟩
  unfold twoWorksTs
  push_cast
  omega

/-- One truck that reaches both works: the first slot is served, and the cover over both slots serves no other. -/
theorem tickCover_cut_two :
    (tickCover 1 (fun _ => [(0, 60)]) (allocateDue twoWorks 1) =
        (edfCover 1 (fun _ => [(0, 60)]) twoWorksTs twoWorks).take 1 ∧
      (edfCover 1 (fun _ => [(0, 60)]) twoWorksTs twoWorks).getD 1 false = false) ∧
      ∀ w, ((stage2Assign 1 (slotAll (allocateDue twoWorks 1))
          (drivingEdges (fun _ => [(0, 60)]) (allocateDue twoWorks 1))).map Prod.snd).count w =
        (keptSlots (slotAll (allocateDue twoWorks 1)) (tickCover 1 (fun _ => [(0, 60)]) (allocateDue twoWorks 1))).count w := by
  obtain ⟨hcut, -, hassign⟩ := tickCover_cut twoWorks_slotTimes 1 (fun _ => [(0, 60)]) 1
  obtain ⟨hcover, hbehind⟩ := hcut (by decide)
  exact ⟨⟨hcover, hbehind {0} (by decide) (by simp) (by decide) 1 le_rfl⟩, hassign fun _ => by simp [FORBIDDEN_COST]⟩

/-- The cut drops a slot that the cover over all due slots serves: the only candidate truck reaches the second work
alone, and the first one takes its place. -/
theorem allocateDue_drops_reachable :
    tickCover 1 (fun oi => if oi = 1 then [(0, 60)] else []) (allocateDue twoWorks 1) = [false] ∧
      edfCover 1 (fun oi => if oi = 1 then [(0, 60)] else []) twoWorksTs twoWorks = [false, true] := by
  decide

/-! ## Two loads and one between them -/

/-- A work with slots at 0 and 132 s, and one with a slot at 60 s. -/
def apart : List Due := [(0, 2, 0), (1, 1, 60000)]

def apartTs (oi j : ℕ) : ℤ := if oi = 0 then j * 132000 else 60000 + j * 132000

theorem apart_slotTimes : SlotTimes apartTs apart := by
  refine ⟨fun oi => monotone_nat_of_le_succ fun j => ?_, by decide⟩
  unfold apartTs
  split <;> push_cast <;> omega

theorem allocateDue_mostUrgent_one : MostUrgent apartTs apart 1 (slotsOf (allocateDue apart 1)) :=
  (allocateDue_mostUrgent_iff (by decide) apart_slotTimes 1).mpr (by decide)

/-- For two trucks the slot at 132 s is taken, and the one at 60 s is left out. -/
theorem not_mostUrgent_two : ¬ MostUrgent apartTs apart 2 (slotsOf (allocateDue apart 2)) :=
  fun h => absurd (h.urgent (1, 0) (by decide) (by decide) (0, 1) (by decide)) (by decide)

end TtAiops.Stage2
