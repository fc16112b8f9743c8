import TtAiops.Cycle.Tracker

/-!
# The chain of the stamps in a row of `tt_cycle_v2`

* `V2Row.Chain` : the stamps of a row are in the order of the phases, and none is after the drop;
* `chain_repairLeft`, `repairArrivals_iff` : when the repairs of the flusher are enough;
* `start_le_dropLeg`, `legFacts` : what the legs of a record say;
* `v2_row_chain` : **in a run of clear frames every row is a chain**;
* `chain_broken` : an arrival after the drop, and a first movement after the departure from a pickup not reached.
-/

namespace TtAiops.Cycle
open TtAiops.Lib

/-- The stamps of the row are in order, and not after the drop. -/
def V2Row.Chain (r : V2Row) : Prop :=
  ([r.emptyTravelStartAt, r.emptyArrivedAt, r.pickupLeftAt, r.ladenArrivedAt].reduceOption ++ [r.droppedAt]).Pairwise
    (· ≤ ·)

instance (r : V2Row) : Decidable r.Chain := inferInstanceAs (Decidable (List.Pairwise _ _))

/-! ## The repairs of the flusher -/

theorem toTs_pos {ms : ℤ} (h : 0 < ms) : toTs ms = some ms := if_pos h

theorem chain_toTs (e p l d dropped : ℤ) :
    ([toTs e, toTs p, toTs l, toTs d].reduceOption ++ [dropped]).Pairwise (· ≤ ·) ↔
      (0 < e → (0 < p → e ≤ p) ∧ (0 < l → e ≤ l) ∧ (0 < d → e ≤ d) ∧ e ≤ dropped) ∧
        (0 < p → (0 < l → p ≤ l) ∧ (0 < d → p ≤ d) ∧ p ≤ dropped) ∧
        (0 < l → (0 < d → l ≤ d) ∧ l ≤ dropped) ∧ (0 < d → d ≤ dropped) := by
  by_cases he : 0 < e <;> by_cases hp : 0 < p <;> by_cases hl : 0 < l <;> by_cases hd : 0 < d <;>
    simp [toTs, he, hp, hl, hd, List.reduceOption, and_assoc]

structure StampsOk (dropped : ℤ) (s : Stamps) : Prop where
  pArr : 0 ≤ s.pArrMs
  dArr : 0 ≤ s.dArrMs
  pLeft : 0 ≤ s.pLeft ∧ s.pLeft ≤ dropped
  pV1 : s.pArrSrc = .v1 → s.pArrMs ≤ dropped
  dV1 : s.dArrSrc = .v1 → s.dArrMs ≤ dropped

/-- With the arrivals in place, the departure and the start of the travel are repaired. -/
theorem chain_repairLeft {c : CompletedV2} {a : Stamps} (hp : 0 ≤ a.pArrMs) (hd : 0 ≤ a.dArrMs)
    (hl : 0 ≤ a.pLeft ∧ a.pLeft ≤ c.droppedMs) (hstart : 0 ≤ c.emptyTravelStartMs ∧ c.emptyTravelStartMs ≤ c.droppedMs) :
    ([toTs (travelStart c (repairLeft a)), toTs (repairLeft a).pArrMs, toTs (repairLeft a).pLeft,
        toTs (repairLeft a).dArrMs].reduceOption ++ [c.droppedMs]).Pairwise (· ≤ ·) ↔
      a.pArrMs ≤ c.droppedMs ∧ a.dArrMs ≤ c.droppedMs ∧ (0 < a.pArrMs → 0 < a.dArrMs → a.pArrMs ≤ a.dArrMs) ∧
        (a.pArrMs = 0 → ∀ t ∈ [a.pLeft, a.dArrMs], 0 < t → c.emptyTravelStartMs ≤ t) := by
  have hfields : (repairLeft a).pArrMs = a.pArrMs ∧ (repairLeft a).dArrMs = a.dArrMs ∧ (repairLeft a).pLeft =
      if 0 < a.pLeft ∧ (0 < a.pArrMs ∧ a.pLeft < a.pArrMs ∨ 0 < a.dArrMs ∧ a.dArrMs < a.pLeft) then 0 else a.pLeft := by
    unfold repairLeft
    simp only
    split_ifs <;> simp_all
    omega
  obtain ⟨h1, h2, h3⟩ := hfields
  simp only [chain_toTs, travelStart, h1, h2, h3, List.mem_cons, List.not_mem_nil, or_false, forall_eq_or_imp, forall_eq]
  split_ifs <;> omega

/-- Of the arrivals only one of v1 goes, and only if the other one is before it. -/
theorem repairArrivals_iff {dropped : ℤ} {s : Stamps} (hs : StampsOk dropped s) :
    ((repairArrivals s).pArrMs ≤ dropped ∧ (repairArrivals s).dArrMs ≤ dropped ∧
        (0 < (repairArrivals s).pArrMs → 0 < (repairArrivals s).dArrMs →
          (repairArrivals s).pArrMs ≤ (repairArrivals s).dArrMs)) ↔
      s.pArrMs ≤ dropped ∧ s.dArrMs ≤ dropped ∧
        (s.pArrSrc ≠ .v1 → s.dArrSrc ≠ .v1 → 0 < s.pArrMs → 0 < s.dArrMs → s.pArrMs ≤ s.dArrMs) := by
  obtain ⟨hp, hd, hl, hpv, hdv⟩ := hs
  unfold repairArrivals
  split_ifs with hwrong hpsrc hdsrc
  · have := hpv hpsrc
    simp only [hpsrc, ne_eq, not_true_eq_false, false_imp_iff, and_true]
    omega
  · have := hdv hdsrc
    simp only [hdsrc, ne_eq, not_true_eq_false, false_imp_iff, imp_true_iff, and_true]
    omega
  · simp only [ne_eq, hpsrc, not_false_eq_true, hdsrc, forall_const]
  · constructor
    · rintro ⟨h1, h2, h3⟩
      exact ⟨h1, h2, fun _ _ => h3⟩
    · rintro ⟨h1, h2, -⟩
      refine ⟨h1, h2, fun h3 h4 => ?_⟩
      by_contra hno
      exact hwrong ⟨h3, h4, not_le.mp hno⟩

theorem start_le_dropLeg {c : CompletedV2} (hc : RecordOk c) : ∀ l ∈ dropLeg c, c.emptyTravelStartMs ≤ l.assignedMs := by
  intro l hl
  unfold dropLeg at hl
  cases hlegs : c.legs with
  | nil => simp [hlegs] at hl
  | cons a rest =>
    cases hsplit : splitLegs c with
    | zero =>
      -- then the first leg does not lead to the pickup
      rw [hsplit, List.drop_zero, hlegs] at hl
      obtain rfl := Option.some.inj hl
      rcases hc.first a (by rw [hlegs]; rfl) with hle | hside
      · exact hle
      · have hno : (a.crane != (c.jobtype == some "DS")) = false := by simpa [pickupSide] using hside
        unfold splitLegs at hsplit
        simp only [hlegs, List.findIdx?_cons, hno, Bool.false_eq_true, if_false] at hsplit
        cases hfind : rest.findIdx? fun l => l.crane != (c.jobtype == some "DS") with
        | some n => simp [hfind] at hsplit
        | none =>
          simp only [hfind, Option.map_none, List.length_cons] at hsplit
          split_ifs at hsplit
          omega
    | succ n =>
      rw [hsplit, hlegs, List.drop_succ_cons] at hl
      apply hc.after.later l
      rw [hlegs]
      exact List.mem_of_mem_drop (List.mem_of_mem_head? hl)

theorem pArr_cases (c : CompletedV2) : ((legStamps c).pArrMs = 0 ∧ (legStamps c).pArrSrc = .unset) ∨
    ∃ l ∈ pickupLegs c, (legStamps c).pArrMs = l.arrivedMs ∧ (legStamps c).pArrSrc = l.arrSrc := by
  unfold legStamps
  cases hfind : (pickupLegs c).find? fun l => 0 < l.arrivedMs with
  | none => exact Or.inl ⟨rfl, rfl⟩
  | some l => exact Or.inr ⟨l, List.mem_of_find?_eq_some hfind, rfl, rfl⟩

theorem dArr_cases (c : CompletedV2) : ((legStamps c).dArrMs = 0 ∧ (legStamps c).dArrSrc = .unset) ∨
    ∃ l ∈ dropLeg c, (legStamps c).dArrMs = l.arrivedMs ∧ (legStamps c).dArrSrc = l.arrSrc := by
  unfold legStamps
  cases hleg : dropLeg c with
  | none => exact Or.inl ⟨rfl, rfl⟩
  | some l => exact Or.inr ⟨l, rfl, rfl, rfl⟩

/-- The departure from the pickup is that of a leg to it, or the assignment of the leg to the drop stands in for it. -/
theorem pLeft_cases (c : CompletedV2) : (legStamps c).pLeft = 0 ∨
    (∃ l ∈ pickupLegs c, l.leftMs ≠ 0 ∧ (legStamps c).pLeft = l.leftMs) ∨
    ∃ l ∈ dropLeg c, (legStamps c).pLeft = l.assignedMs := by
  have hdropLeg : ((dropLeg c).map V2Leg.assignedMs).getD 0 = 0 ∨
      ∃ l ∈ dropLeg c, ((dropLeg c).map V2Leg.assignedMs).getD 0 = l.assignedMs := by
    cases dropLeg c with
    | none => exact Or.inl rfl
    | some l => exact Or.inr ⟨l, rfl, rfl⟩
  unfold legStamps
  simp only
  split_ifs with hzero
  · exact hdropLeg.imp_right Or.inr
  · cases hlast : (pickupLegs c).getLast? with
    | none => simp [hlast] at hzero
    | some l =>
      rw [hlast] at hzero
      exact Or.inr (Or.inl ⟨l, List.mem_of_getLast? hlast, hzero, rfl⟩)

structure LegFacts (c : CompletedV2) : Prop where
  pArr : 0 ≤ (legStamps c).pArrMs ∧ (legStamps c).pArrMs ≤ c.droppedMs
  dArr : 0 ≤ (legStamps c).dArrMs ∧ (legStamps c).dArrMs ≤ c.droppedMs
  src : (legStamps c).pArrSrc ≠ .v1 ∧ (legStamps c).dArrSrc ≠ .v1
  order : 0 < (legStamps c).pArrMs → 0 < (legStamps c).dArrMs → (legStamps c).pArrMs ≤ (legStamps c).dArrMs
  pLeft : 0 ≤ (legStamps c).pLeft ∧ (legStamps c).pLeft ≤ c.droppedMs
  startLeft : 0 < (legStamps c).pLeft → c.emptyTravelStartMs ≤ (legStamps c).pLeft
  startDrop : 0 < (legStamps c).dArrMs → c.emptyTravelStartMs ≤ (legStamps c).dArrMs

theorem legFacts {c : CompletedV2} (hc : RecordOk c) : LegFacts c := by
  have hpos := hc.dropped
  have hpick : ∀ l ∈ pickupLegs c, LegOk c.droppedMs l ∧ l.arrivedMs ≤ c.droppedMs := fun l hl =>
    hc.legs.each l (List.mem_of_mem_take hl)
  have hdrop : ∀ l ∈ dropLeg c, LegOk c.droppedMs l ∧ l.arrivedMs ≤ c.droppedMs := fun l hl =>
    hc.legs.each l (List.mem_of_mem_drop (List.mem_of_mem_head? hl))
  have hfollow : ∀ l ∈ pickupLegs c, ∀ l' ∈ dropLeg c, Follows l l' := by
    have hall := hc.legs.follow
    rw [← List.take_append_drop (splitLegs c) c.legs, List.pairwise_append] at hall
    exact fun l hl l' hl' => hall.2.2 l hl l' (List.mem_of_mem_head? hl')
  have hp := pArr_cases c
  have hd := dArr_cases c
  have hl := pLeft_cases c
  refine ⟨?_, ?_, ⟨?_, ?_⟩, fun h1 h2 => ?_, ?_, fun h => ?_, fun h => ?_⟩
  · rcases hp with ⟨h, -⟩ | ⟨l, hl, h, -⟩ <;> rw [h]
    · exact ⟨le_rfl, hpos.le⟩
    · exact ⟨(hpick l hl).1.arrived, (hpick l hl).2⟩
  · rcases hd with ⟨h, -⟩ | ⟨l, hl, h, -⟩ <;> rw [h]
    · exact ⟨le_rfl, hpos.le⟩
    · exact ⟨(hdrop l hl).1.arrived, (hdrop l hl).2⟩
  · rcases hp with ⟨-, h⟩ | ⟨l, hl, -, h⟩ <;> rw [h]
    · decide
    · exact (hpick l hl).1.src
  · rcases hd with ⟨-, h⟩ | ⟨l, hl, -, h⟩ <;> rw [h]
    · decide
    · exact (hdrop l hl).1.src
  · -- the pickup was reached before the leg to the drop was assigned
    obtain ⟨l, hl, h, -⟩ := hp.resolve_left fun hno => h1.ne' hno.1
    obtain ⟨l', hl', h', -⟩ := hd.resolve_left fun hno => h2.ne' hno.1
    have hbefore := hfollow l hl l' hl'
    have hreached := (hdrop l' hl').1.order (by omega)
    unfold Follows at hbefore
    omega
  · rcases hl with h | ⟨l, hl, -, h⟩ | ⟨l, hl, h⟩ <;> rw [h]
    · exact ⟨le_rfl, hpos.le⟩
    · exact (hpick l hl).1.left
    · exact ⟨(hdrop l hl).1.assigned.1.le, (hdrop l hl).1.assigned.2⟩
  · rcases hl with hno | ⟨l, hl, hleft, heq⟩ | ⟨l, hl, heq⟩
    · omega
    · rw [heq]
      exact hc.after.left l (List.mem_of_mem_take hl) hleft
    · rw [heq]
      exact start_le_dropLeg hc l hl
  · obtain ⟨l, hl, heq, -⟩ := hd.resolve_left fun hno => h.ne' hno.1
    have hassigned := start_le_dropLeg hc l hl
    have hreached := (hdrop l hl).1.order (by omega)
    omega

/-- An arrival of a row is that of the legs, or one of v1 that is not after the drop. -/
theorem backfilled_cases (c : CompletedV2) :
    ((backfilled c).dArrSrc = .v1 ∧ (backfilled c).dArrMs = c.v1DropArrivedMs ∧ 0 < c.v1DropArrivedMs ∧
        c.v1DropArrivedMs ≤ c.droppedMs ∨
      (backfilled c).dArrSrc = (legStamps c).dArrSrc ∧ (backfilled c).dArrMs = (legStamps c).dArrMs) ∧
    ((backfilled c).pArrSrc = .v1 ∧ 0 < (backfilled c).pArrMs ∧ (backfilled c).pArrMs ≤ c.droppedMs ∨
      (backfilled c).pArrSrc = (legStamps c).pArrSrc ∧ (backfilled c).pArrMs = (legStamps c).pArrMs) ∧
    (backfilled c).pLeft = (legStamps c).pLeft := by
  unfold backfilled backfillPickup backfillDrop
  split_ifs with hd hp hp
  · exact ⟨Or.inl ⟨rfl, rfl, hd.1, hd.2.1⟩, Or.inl ⟨rfl, hp.1, hp.2.1⟩, rfl⟩
  · exact ⟨Or.inl ⟨rfl, rfl, hd.1, hd.2.1⟩, Or.inr ⟨rfl, rfl⟩, rfl⟩
  · exact ⟨Or.inr ⟨rfl, rfl⟩, Or.inl ⟨rfl, hp.1, hp.2.1⟩, rfl⟩
  · exact ⟨Or.inr ⟨rfl, rfl⟩, Or.inr ⟨rfl, rfl⟩, rfl⟩

theorem repairArrivals_sub (s : Stamps) :
    ((repairArrivals s).pArrMs = s.pArrMs ∨ (repairArrivals s).pArrMs = 0) ∧
      ((repairArrivals s).dArrMs = s.dArrMs ∨ (repairArrivals s).dArrMs = 0) ∧ (repairArrivals s).pLeft = s.pLeft := by
  unfold repairArrivals
  split_ifs
  · exact ⟨Or.inr rfl, Or.inl rfl, rfl⟩
  · exact ⟨Or.inl rfl, Or.inr rfl, rfl⟩
  · exact ⟨Or.inl rfl, Or.inl rfl, rfl⟩
  · exact ⟨Or.inl rfl, Or.inl rfl, rfl⟩

/-- **The row of a record that is in order is a chain.** -/
theorem chain_of_recordOk {c : CompletedV2} (hc : RecordOk c) {r : V2Row} (hr : v2Row c = some r) : r.Chain := by
  have hlegs := legFacts hc
  obtain ⟨hd, hp, hleft⟩ := backfilled_cases c
  have hdpos : 0 ≤ (backfilled c).dArrMs ∧ (backfilled c).dArrMs ≤ c.droppedMs := by
    rcases hd with ⟨-, heq, h1, h2⟩ | ⟨-, heq⟩ <;> rw [heq]
    · exact ⟨h1.le, h2⟩
    · exact hlegs.dArr
  have hppos : 0 ≤ (backfilled c).pArrMs ∧ (backfilled c).pArrMs ≤ c.droppedMs := by
    rcases hp with ⟨-, h1, h2⟩ | ⟨-, heq⟩
    · exact ⟨h1.le, h2⟩
    · rw [heq]
      exact hlegs.pArr
  have hstamps : StampsOk c.droppedMs (backfilled c) :=
    ⟨hppos.1, hdpos.1, hleft ▸ hlegs.pLeft, fun _ => hppos.2, fun _ => hdpos.2⟩
  obtain ⟨hpast, hdpast, hord⟩ := (repairArrivals_iff hstamps).mpr ⟨hppos.2, hdpos.2, fun hpsrc hdsrc => by
    rcases hd with ⟨hv1, -⟩ | ⟨-, hdeq⟩
    · exact absurd hv1 hdsrc
    · rcases hp with ⟨hv1, -⟩ | ⟨-, hpeq⟩
      · exact absurd hv1 hpsrc
      · rw [hdeq, hpeq]
        exact hlegs.order⟩
  obtain ⟨hpsub, hdsub, hlsub⟩ := repairArrivals_sub (backfilled c)
  have hstart : ∀ t ∈ [(repairArrivals (backfilled c)).pLeft, (repairArrivals (backfilled c)).dArrMs], 0 < t →
      c.emptyTravelStartMs ≤ t := by
    simp only [List.mem_cons, List.not_mem_nil, or_false, forall_eq_or_imp, forall_eq]
    constructor
    · rw [hlsub, hleft]
      exact hlegs.startLeft
    · intro hpos
      rcases hdsub with heq | heq
      · rw [heq] at hpos ⊢
        rcases hd with ⟨-, hv1, h1, -⟩ | ⟨-, hleg⟩
        · rw [hv1]
          exact hc.v1.resolve_left h1.ne'
        · rw [hleg] at hpos ⊢
          exact hlegs.startDrop hpos
      · omega
  unfold v2Row at hr
  simp only [toTs_pos hc.dropped, Option.map_some, Option.some.injEq] at hr
  subst hr
  refine (chain_repairLeft ?_ ?_ ?_ hc.start).mpr ⟨hpast, hdpast, hord, fun _ => hstart⟩
  · rcases hpsub with heq | heq
    · rw [heq]
      exact hppos.1
    · rw [heq]
  · rcases hdsub with heq | heq
    · rw [heq]
      exact hdpos.1
    · rw [heq]
  · rw [hlsub, hleft]
    exact hlegs.pLeft

/-- **In every run of clear frames every row that the flusher writes is a chain.** -/
theorem v2_row_chain (dist : ℚ × ℚ → ℚ × ℚ → ℚ) (inputs : List Input)
    (hclear : Steps dist (RowClear dist) inputs unseen) :
    ∀ x ∈ runInputs dist inputs unseen, ∀ c ∈ x.1.completedV2, ∀ r ∈ v2Row c, r.Chain :=
  fun x hx c hc _ hr => chain_of_recordOk (recordOk_run hclear x hx c hc) hr

/-- A loading job: the truck is sent to the block and moves there, the box comes, the truck is sent to the crane, reports
its arrival ten seconds late, and the box is gone. -/
def blockToCrane : List Input :=
  let frame := fun (now : ℤ) (now_pos : 0 < now) (container1 : Option String) (topos : String) =>
    { emptyFrame now now_pos 1 with jobtype := some "LD", container1 := container1, topos1 := some topos }
  [.frame (frame 1000 one_second_pos none "01A-01"), .frame (frame 2000 two_seconds_pos none "01A-01"),
    .frame (frame 3000 three_seconds_pos (some "X") "01A-01"), .frame (frame 4000 four_seconds_pos (some "X") "C46"),
    .frame { frame 60000 one_minute_pos (some "X") "C46" with arrDtime := some "08:00:50" },
    .frame (emptyFrame 70000 seventy_seconds_pos 201)]

theorem v2_row_chain_crane :
    ((events (runInputs northDist blockToCrane unseen)).map fun o => (o.completedV2.bind v2Row).map fun r =>
        [r.emptyTravelStartAt, r.emptyArrivedAt, r.pickupLeftAt, r.ladenArrivedAt, some r.droppedAt]) =
        [none, none, none, none, none, some [some 2000, some 3000, some 4000, some 50000, some 70000]] ∧
      ∀ x ∈ runInputs northDist blockToCrane unseen, ∀ c ∈ x.1.completedV2, ∀ r ∈ v2Row c, r.Chain :=
  ⟨by decide +kernel, v2_row_chain northDist blockToCrane (by decide +kernel)⟩

/-- A loading job: the box comes at the block, the truck goes to the crane, reports its arrival, and the box is gone. -/
def craneInputs (arrDtime : Option String) : List Input :=
  let frame := fun (now : ℤ) (now_pos : 0 < now) (topos : String) =>
    { emptyFrame now now_pos 1 with jobtype := some "LD", container1 := some "X", topos1 := some topos }
  [.frame (frame 1000 one_second_pos "01A-01"), .frame (frame 2000 two_seconds_pos "C46"),
    .frame { frame 60000 one_minute_pos "C46" with arrDtime := arrDtime }, .frame (emptyFrame 70000 seventy_seconds_pos 201)]

/-- A discharging job whose only target is a block: the truck moves, and the box comes and goes there. -/
def blockInputs : List Input :=
  let frame := fun (now : ℤ) (now_pos : 0 < now) (container1 : Option String) =>
    { emptyFrame now now_pos 1 with jobtype := some "DS", container1 := container1, topos1 := some "01A-01" }
  [.frame (frame 1000 one_second_pos none), .frame (frame 2000 two_seconds_pos none),
    .frame (frame 3000 three_seconds_pos (some "X")),
    .frame (emptyFrame 63000 (by decide) 201)]

/-- An arrival that the truck reports ahead of the clock is later than the drop, and a start of the empty travel is later
than the departure from a pickup that was not reached. -/
theorem chain_broken :
    ((events (runInputs northDist (craneInputs (some "08:02:00")) unseen)).map fun o =>
        (o.completedV2.bind v2Row).map fun r => (r.ladenArrivedAt, r.droppedAt)) =
        [none, none, none, some (some 120000, 70000)] ∧
      ((events (runInputs northDist blockInputs unseen)).map fun o =>
        (o.completedV2.bind v2Row).map fun r => (r.emptyTravelStartAt, r.emptyArrivedAt, r.pickupLeftAt)) =
        [none, none, none, some (some 2000, none, some 1000)] ∧
      (¬ ∀ x ∈ runInputs northDist (craneInputs (some "08:02:00")) unseen, ∀ c ∈ x.1.completedV2, ∀ r ∈ v2Row c, r.Chain) ∧
      ¬ ∀ x ∈ runInputs northDist blockInputs unseen, ∀ c ∈ x.1.completedV2, ∀ r ∈ v2Row c, r.Chain := by
  decide +kernel

end TtAiops.Cycle
