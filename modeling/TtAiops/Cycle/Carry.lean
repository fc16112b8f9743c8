import TtAiops.Cycle.Legs

/-!
# Boxes that are carried and delivered

* `boxes`, `MovesOut`, `MovesIn` : the boxes of a frame, and the two moves of a lone box between the fields;
* `same_boxes_goes_on` : **a frame with the boxes of the last one is no delivery, unless its box leaves field 1**;
* `Carrying`, `CarryInv` : a box in field 1 is carried since a pickup that opened the cycle;
* `carryOk_step`, `delivers_ingest` : what an input does to the invariant, and what a frame delivers;
* `deliveries_well_formed` : **deliveries are real and do not overlap exactly when no lone box moves into field 1**.
-/

namespace TtAiops.Cycle
open TtAiops.Lib

variable {dist : ℚ × ℚ → ℚ × ℚ → ℚ}

/-! ## The same boxes -/

/-- The boxes of the two fields. -/
def boxes (c1 c2 : String) : Multiset String := ({c1, c2} : Multiset String).filter (· ≠ "")

theorem sortPair_comm (a b : String) : sortPair a b = sortPair b a := by
  unfold sortPair
  rcases lt_trichotomy a b with h | rfl | h
  · rw [if_pos h.le, if_neg (not_le.mpr h)]
  · rfl
  · rw [if_neg (not_le.mpr h), if_pos h.le]

theorem sortPair_eq_iff {a b c d : String} : sortPair a b = sortPair c d ↔ a = c ∧ b = d ∨ a = d ∧ b = c := by
  constructor
  · unfold sortPair
    intro h
    split_ifs at h <;> obtain ⟨rfl, rfl⟩ := Prod.mk.inj h <;> simp
  · rintro (⟨rfl, rfl⟩ | ⟨rfl, rfl⟩)
    · rfl
    · exact sortPair_comm _ _

theorem pair_eq_iff {a b c d : String} : ({a, b} : Multiset String) = {c, d} ↔ a = c ∧ b = d ∨ a = d ∧ b = c := by
  constructor
  · intro h
    rcases Multiset.cons_eq_cons.mp h with ⟨hac, hbd⟩ | ⟨-, s, hb, hd⟩
    · exact Or.inl ⟨hac, Multiset.singleton_inj.mp hbd⟩
    · obtain ⟨hbc, -⟩ := (Multiset.singleton_eq_cons_iff _).mp hb
      obtain ⟨hda, -⟩ := (Multiset.singleton_eq_cons_iff _).mp hd
      exact Or.inr ⟨hda.symm, hbc⟩
  · rintro (⟨rfl, rfl⟩ | ⟨rfl, rfl⟩)
    · rfl
    · exact Multiset.pair_comm _ _

theorem boxes_eq_iff {a b c d : String} : boxes a b = boxes c d ↔ a = c ∧ b = d ∨ a = d ∧ b = c := by
  rw [← pair_eq_iff]
  refine ⟨fun h => ?_, fun h => congrArg _ h⟩
  -- the empty fields are those that are left of the two
  have hempty : ∀ x y : String, ({x, y} : Multiset String) = boxes x y + Multiset.replicate (2 - (boxes x y).card) "" := by
    intro x y
    have hpart := Multiset.filter_add_not (· ≠ "") ({x, y} : Multiset String)
    have hrep : ({x, y} : Multiset String).filter (fun z => ¬ z ≠ "") =
        Multiset.replicate (2 - (boxes x y).card) "" := by
      refine Multiset.eq_replicate.mpr ⟨?_, fun z hz => by simpa using (Multiset.mem_filter.mp hz).2⟩
      have hcard := congrArg Multiset.card hpart
      rw [Multiset.card_add, Multiset.card_pair] at hcard
      change (boxes x y).card + _ = 2 at hcard
      omega
    rw [hrep] at hpart
    exact hpart.symm
  rw [hempty a b, hempty c d, h]

/-- A lone box moves out of field 1: it is now in field 2. -/
def MovesOut (prev : Option Pos) (f : Frame) : Prop := oldC1 prev ≠ "" ∧ f.c1 = ""

/-- A lone box moves from field 2 into the empty field 1. -/
def MovesIn (prev : Option Pos) (f : Frame) : Prop :=
  oldC1 prev = "" ∧ f.c1 ≠ "" ∧ f.c1 = oldC2 prev ∧ f.c2 = ""

/-- The guard sees every exchange of the fields that leaves a box in field 1. -/
theorem slotSwap_iff {prev : Option Pos} {f : Frame} :
    slotSwap prev f = true ↔ f.c1 ≠ oldC1 prev ∧ f.c1 ≠ "" ∧ oldC1 prev = f.c2 ∧ oldC2 prev = f.c1 := by
  simp only [slotSwap, Bool.and_eq_true, bne_iff_ne, beq_iff_eq, ne_eq, sortPair_eq_iff, and_assoc]
  constructor
  · rintro ⟨hne, hload, ⟨h, -⟩ | h⟩
    · exact absurd h.symm hne
    · exact ⟨hne, hload, h⟩
  · rintro ⟨hne, hload, h⟩
    exact ⟨hne, hload, Or.inr h⟩

/-- The cycle without the stamps of arrivals and departures. -/
def OpenCycle.unstamped (oc : OpenCycle) : OpenCycle :=
  { oc with
    pickupArrivedAtMs := 0
    pickupLeftAtMs := 0
    arrivedAtMs := 0
    pickupArrivedCraneMs := 0
    arrivedCraneMs := 0
    craneArrMethod := none }

theorem phaseStamp_unstamped (prev : Option Pos) (f : Frame) (pos : Pos) (oc : OpenCycle) :
    (phaseStamp prev f pos oc).unstamped = oc.unstamped := by
  unfold phaseStamp stampCycle
  split_ifs <;> rfl

theorem craneStamp_unstamped (f : Frame) (pos : Pos) (oc : OpenCycle) :
    (craneStamp dist f pos oc).unstamped = oc.unstamped := by
  unfold craneStamp
  split
  · split
    · simp only [stampCraneCycle]
      split_ifs <;> rfl
    · rfl
  · rfl

variable (dist) in
/-- Before the container fields are looked at, the open cycle gets stamps only. -/
theorem arrive_unstamped (prev : Option Pos) (f : Frame) :
    (arrive dist prev f).cycleOpen.map OpenCycle.unstamped = (prev.bind Pos.cycleOpen).map OpenCycle.unstamped := by
  have hsight : (sight dist prev f).cycleOpen = prev.bind Pos.cycleOpen := by cases prev <;> rfl
  rw [← hsight]
  change (((sight dist prev f).cycleOpen.map _).map _).map _ = _
  rw [Option.map_map, Option.map_map]
  refine congrFun (congrArg Option.map (funext fun oc => ?_)) _
  exact (craneStamp_unstamped _ _ _).trans (phaseStamp_unstamped _ _ _ _)

/-- The frame delivers nothing, and the carry and the open cycle go on: the distance grows by the path driven, and the
cycle gets stamps only. -/
structure GoesOn (dist : ℚ × ℚ → ℚ × ℚ → ℚ) (p : Pos) (f : Frame) : Prop where
  noDrop : (ingest dist (some p) f).2.fleetDrop = false ∧ (ingest dist (some p) f).2.completed = none
  noArtifact : (ingest dist (some p) f).2.artifact = false
  since : (ingest dist (some p) f).1.carrySinceMs = p.carrySinceMs
  trip : (ingest dist (some p) f).1.carryTripM = p.carryTripM + fixStep dist p f
  cycle : (ingest dist (some p) f).1.cycleOpen.map OpenCycle.unstamped = p.cycleOpen.map OpenCycle.unstamped

/-- **A frame with the boxes of the last one goes on with the carry, unless a box moves out of field 1.** -/
theorem same_boxes_goes_on (dist : ℚ × ℚ → ℚ × ℚ → ℚ) (p : Pos) (f : Frame)
    (hboxes : boxes (oldC1 (some p)) (oldC2 (some p)) = boxes f.c1 f.c2) :
    GoesOn dist p f ↔ ¬ MovesOut (some p) f := by
  rcases containerEdge_cases (some p) f (arrive dist (some p) f) with
    ⟨hquiet, h⟩ | ⟨hold, hload, hswap, -⟩ | ⟨hold, hne, hswap, h⟩
  · have hv1 : ingestV1 dist (some p) f = (arrive dist (some p) f, Out.quiet) := h
    refine ⟨fun _ hmove => ?_, fun _ => ?_⟩
    · rcases hquiet with hsame | hswap
      · exact hmove.1 (hsame.symm.trans hmove.2)
      · exact (slotSwap_iff.mp hswap).2.1 hmove.2
    · refine ⟨?_, ?_, ?_, ?_, ?_⟩ <;> simp only [ingest, hv1]
      · exact ⟨rfl, rfl⟩
      · rfl
      · rfl
      · rfl
      · exact arrive_unstamped dist (some p) f
  · -- a box that comes into the empty field 1 was in field 2, and the guard sees that
    exfalso
    rcases boxes_eq_iff.mp hboxes with ⟨hsame, -⟩ | ⟨h12, h21⟩
    · exact hload (hsame.symm.trans hold)
    · have hne : f.c1 ≠ oldC1 (some p) := fun he => hload (he.trans hold)
      exact absurd (slotSwap_iff.mpr ⟨hne, hload, h12, h21⟩) (by simp [hswap])
  · -- a box that leaves field 1 without the guard leaves it empty
    have hempty : f.c1 = "" := by
      by_contra hload
      rcases boxes_eq_iff.mp hboxes with ⟨hsame, -⟩ | ⟨h12, h21⟩
      · exact hne hsame.symm
      · exact absurd (slotSwap_iff.mpr ⟨hne, hload, h12, h21⟩) (by simp [hswap])
    refine ⟨fun hon => absurd hon ?_, fun hno => absurd ⟨hold, hempty⟩ hno⟩
    have hv1 : ingestV1 dist (some p) f = (load true f (unload f (arrive dist (some p) f)).1,
      (unload f (arrive dist (some p) f)).2) := h
    rintro ⟨⟨-, hdone⟩, hartifact, hsince, -, -⟩
    rcases unload_cases f (arrive dist (some p) f) with ⟨-, -, hu⟩ | ⟨-, -, hu⟩ | ⟨hheld, hu⟩
    · simp [ingest, hv1, hu] at hdone
    · simp [ingest, hv1, hu] at hartifact
    · -- a flicker: the carry was on, and it ends
      have hpos : 0 < p.carrySinceMs := by
        by_contra hno
        have hmax : heldMs f.now (arrive dist (some p) f) = i64Max := if_neg hno
        rw [hmax] at hheld
        exact absurd hheld (by decide)
      simp only [ingest, hv1, hu, load_carrySinceMs, if_pos hempty] at hsince
      omega

/-- Box `X` is in field 1. -/
def firstField : Frame := { emptyFrame 1000 one_second_pos 1 with container1 := some "X" }

/-- A minute and 200 m later box `X` is in field 2. -/
def secondField : Frame := { emptyFrame 61000 (by decide) 201 with container2 := some "X" }

/-- Boxes `X` and `Y` are in the fields, and 200 m on they have changed them. -/
def bothFields : Frame := { firstField with container2 := some "Y" }

def changedFields : Frame := { secondField with container1 := some "Y" }

theorem same_boxes_goes_on_changed : GoesOn northDist (ingest northDist none bothFields).1 changedFields :=
  (same_boxes_goes_on northDist (ingest northDist none bothFields).1 changedFields (by decide +kernel)).mpr
    fun h => absurd h.2 (by decide)

/-- A box that is reported in field 2 instead of field 1 is delivered. -/
theorem moved_box_delivers :
    boxes firstField.c1 firstField.c2 = boxes secondField.c1 secondField.c2 ∧
      (events (runInputs northDist [.frame firstField, .frame secondField] unseen)).map
        (fun o => (o.fleetDrop, o.completed.map fun c => (c.pickupAtMs, c.droppedAtMs))) =
        [(false, none), (true, some (1000, 61000))] := by
  decide +kernel

/-! ## The carry along a run -/

/-- A box is in field 1 exactly while a carry is on, and a carry has an open cycle. -/
def Carrying (p : Pos) : Prop :=
  (p.container1.getD "" ≠ "" ↔ p.carrySinceMs ≠ 0) ∧ (p.carrySinceMs ≠ 0 → p.cycleOpen.isSome = true)

/-- The carry began at the pickup of the open cycle. -/
structure CarryInv (clock : ℤ) (p : Pos) : Prop where
  loaded : p.container1.getD "" ≠ "" ↔ p.carrySinceMs ≠ 0
  since : p.carrySinceMs ≠ 0 → 0 < p.carrySinceMs ∧ p.carrySinceMs ≤ clock
  cycle : p.carrySinceMs ≠ 0 → ∃ oc, p.cycleOpen = some oc ∧ oc.pickupAtMs = p.carrySinceMs

theorem CarryInv.carrying {clock : ℤ} {p : Pos} (h : CarryInv clock p) : Carrying p :=
  ⟨h.loaded, fun hc => by
    obtain ⟨oc, hoc, -⟩ := h.cycle hc
    rw [hoc]
    rfl⟩

/-- A delivery of a box that was picked up at `pickupMs`. -/
structure Delivers (pickupMs now : ℤ) (c : CompletedCycle) : Prop where
  pickup : c.pickupAtMs = pickupMs
  dropped : c.droppedAtMs = now
  carried : 0 < c.pickupAtMs ∧ MIN_LOADED_MS ≤ c.droppedAtMs - c.pickupAtMs
  leg : c.ladenLegMs = c.droppedAtMs - c.pickupAtMs
  trip : MIN_CARRY_TRIP_M ≤ c.ladenLegM

variable (dist) in
/-- The open cycle still has its pickup when the container fields are looked at. -/
theorem arrive_cycle {p : Pos} {f : Frame} {oc : OpenCycle} (h : p.cycleOpen = some oc) :
    ∃ oc', (arrive dist (some p) f).cycleOpen = some oc' ∧ oc'.unstamped = oc.unstamped := by
  have hmap := arrive_unstamped dist (some p) f
  rw [Option.bind_some, h, Option.map_some, Option.map_eq_some_iff] at hmap
  exact hmap

theorem carryInv_load {f : Frame} {pos : Pos} (wasLoaded : Bool) (hc1 : pos.container1 = f.container1) (v2 : V2State) :
    CarryInv f.now { load wasLoaded f pos with v2 := v2 } := by
  have hnow := f.now_pos
  by_cases hempty : f.c1 = ""
  · have hsince : (load wasLoaded f pos).carrySinceMs = 0 := by rw [load_carrySinceMs, if_pos hempty]
    refine ⟨?_, fun h => absurd hsince h, fun h => absurd hsince h⟩
    change (load wasLoaded f pos).container1.getD "" ≠ "" ↔ (load wasLoaded f pos).carrySinceMs ≠ 0
    rw [load_container1, hc1, hsince]
    exact ⟨fun h => absurd hempty h, fun h => absurd rfl h⟩
  · have hsince : (load wasLoaded f pos).carrySinceMs = f.now := by rw [load_carrySinceMs, if_neg hempty]
    refine ⟨?_, fun _ => ?_, fun _ => ?_⟩
    · change (load wasLoaded f pos).container1.getD "" ≠ "" ↔ (load wasLoaded f pos).carrySinceMs ≠ 0
      rw [load_container1, hc1, hsince]
      exact ⟨fun _ => hnow.ne', fun _ => hempty⟩
    · change 0 < (load wasLoaded f pos).carrySinceMs ∧ (load wasLoaded f pos).carrySinceMs ≤ f.now
      rw [hsince]
      exact ⟨hnow, le_rfl⟩
    · change ∃ oc, (load wasLoaded f pos).cycleOpen = some oc ∧ oc.pickupAtMs = (load wasLoaded f pos).carrySinceMs
      rw [hsince]
      unfold load
      rw [if_neg hempty]
      exact ⟨_, rfl, rfl⟩

variable (dist) in
theorem ingest_since (prev : Option Pos) (f : Frame) :
    (ingest dist prev f).1.carrySinceMs = (prev.map Pos.carrySinceMs).getD 0 ∨
      (ingest dist prev f).1.carrySinceMs = 0 ∨ (ingest dist prev f).1.carrySinceMs = f.now := by
  have hload : ∀ wasLoaded pos, (load wasLoaded f pos).carrySinceMs = 0 ∨ (load wasLoaded f pos).carrySinceMs = f.now := by
    intro wasLoaded pos
    rw [load_carrySinceMs]
    split_ifs
    · exact Or.inl rfl
    · exact Or.inr rfl
  change (ingestV1 dist prev f).1.carrySinceMs = _ ∨ (ingestV1 dist prev f).1.carrySinceMs = 0 ∨
    (ingestV1 dist prev f).1.carrySinceMs = f.now
  rcases containerEdge_cases prev f (arrive dist prev f) with ⟨-, h⟩ | ⟨-, -, -, h⟩ | ⟨-, -, -, h⟩ <;>
    rw [ingestV1, h]
  · left
    cases prev <;> rfl
  · exact Or.inr (hload _ _)
  · exact Or.inr (hload _ _)

/-- **A frame that moves no lone box into field 1 keeps the carry in order.** -/
theorem carryInv_ingest {prev : Option Pos} {f : Frame} {clock : ℤ} (hprev : ∀ p, prev = some p → CarryInv clock p)
    (hclock : clock ≤ f.now) (hmove : ¬ MovesIn prev f) : CarryInv f.now (ingest dist prev f).1 := by
  have hc1 : (arrive dist prev f).container1 = f.container1 := by cases prev <;> rfl
  rcases containerEdge_cases prev f (arrive dist prev f) with ⟨hquiet, h⟩ | ⟨-, -, -, h⟩ | ⟨-, -, -, h⟩
  · have hv1 : ingestV1 dist prev f = (arrive dist prev f, Out.quiet) := h
    -- the box in field 1 was there before, or it was exchanged with another one
    have hsame : f.c1 ≠ "" ↔ oldC1 prev ≠ "" := by
      rcases hquiet with hsame | hswap
      · rw [hsame]
      · obtain ⟨-, hload, h12, h21⟩ := slotSwap_iff.mp hswap
        refine ⟨fun _ hold => hmove ⟨hold, hload, h21.symm, h12 ▸ hold⟩, fun _ => hload⟩
    have hafter : (ingest dist prev f).1.container1 = f.container1 := by
      rw [← hc1]
      simp only [ingest, hv1]
    have hloaded : (ingest dist prev f).1.container1.getD "" ≠ "" ↔ oldC1 prev ≠ "" := by
      rw [hafter]
      exact hsame
    cases prev with
    | none =>
      have hsince : (ingest dist none f).1.carrySinceMs = 0 := by
        simp only [ingest, hv1]
        rfl
      exact ⟨hloaded.trans ⟨fun h => absurd rfl h, fun h => absurd hsince h⟩, fun h => absurd hsince h,
        fun h => absurd hsince h⟩
    | some p =>
      have hinv := hprev p rfl
      have hsince : (ingest dist (some p) f).1.carrySinceMs = p.carrySinceMs := by
        simp only [ingest, hv1]
        rfl
      refine ⟨hloaded.trans (hinv.loaded.trans (by rw [hsince])), fun h => ?_, fun h => ?_⟩ <;> rw [hsince] at h ⊢
      · exact ⟨(hinv.since h).1, (hinv.since h).2.trans hclock⟩
      · obtain ⟨oc, hoc, hpickup⟩ := hinv.cycle h
        obtain ⟨oc', hoc', he⟩ := arrive_cycle dist (f := f) hoc
        refine ⟨oc', ?_, (congrArg OpenCycle.pickupAtMs he).trans hpickup⟩
        simp only [ingest, hv1]
        exact hoc'
  · have hv1 : ingestV1 dist prev f = (load false f (arrive dist prev f), Out.quiet) := h
    simp only [ingest, hv1]
    exact carryInv_load false hc1 _
  · have hv1 : ingestV1 dist prev f = (load true f (unload f (arrive dist prev f)).1,
      (unload f (arrive dist prev f)).2) := h
    simp only [ingest, hv1]
    exact carryInv_load true ((unload_container1 f _).trans hc1) _

/-- **A delivery ends a carry**: its pickup is the beginning of the carry, long enough ago and far enough away. -/
theorem delivers_ingest {prev : Option Pos} {f : Frame} {clock : ℤ} (hprev : ∀ p, prev = some p → CarryInv clock p)
    {c : CompletedCycle} (hc : (ingest dist prev f).2.completed = some c) :
    (∃ p, prev = some p ∧ p.carrySinceMs ≠ 0 ∧ Delivers p.carrySinceMs f.now c) ∧
      ((ingest dist prev f).1.carrySinceMs = 0 ∨ (ingest dist prev f).1.carrySinceMs = f.now) := by
  rcases containerEdge_cases prev f (arrive dist prev f) with ⟨-, h⟩ | ⟨-, -, -, h⟩ | ⟨hold, -, -, h⟩
  · simp [ingest, ingestV1, h, Out.quiet] at hc
  · simp [ingest, ingestV1, h, Out.quiet] at hc
  · have hv1 : ingestV1 dist prev f = (load true f (unload f (arrive dist prev f)).1,
      (unload f (arrive dist prev f)).2) := h
    constructor
    · cases prev with
      | none => exact absurd rfl hold
      | some p =>
        have hinv := hprev p rfl
        have hsince : p.carrySinceMs ≠ 0 := hinv.loaded.mp hold
        obtain ⟨hpos, hle⟩ := hinv.since hsince
        obtain ⟨oc, hoc, hpickup⟩ := hinv.cycle hsince
        obtain ⟨oc', hoc', he⟩ := arrive_cycle dist (f := f) hoc
        have hpickup' : oc'.pickupAtMs = p.carrySinceMs := (congrArg OpenCycle.pickupAtMs he).trans hpickup
        rcases unload_cases f (arrive dist (some p) f) with ⟨hheld, htrip, hu⟩ | ⟨-, -, hu⟩ | ⟨-, hu⟩
        · simp only [ingest, hv1, hu] at hc
          obtain rfl := Option.some.inj hc
          have hheld' : MIN_LOADED_MS ≤ f.now - p.carrySinceMs := by
            have hms : heldMs f.now (arrive dist (some p) f) = f.now - p.carrySinceMs := if_pos hpos
            rwa [hms] at hheld
          have hmin : 0 < MIN_LOADED_MS := by decide
          refine ⟨p, rfl, hsince, ?_⟩
          have hfinal : (finalizeCycle { arrive dist (some p) f with lastDropMs := f.now } f.now
              (f.c1 != "")).pickupAtMs = p.carrySinceMs := by
            simp only [finalizeCycle, hoc', Option.getD_some, hpickup', if_pos hpos]
          refine ⟨hfinal, rfl, ?_, ?_, htrip⟩
          · rw [hfinal]
            exact ⟨hpos, hheld'⟩
          · rw [hfinal]
            simp only [finalizeCycle, hoc', Option.getD_some, hpickup', if_pos hpos]
            exact max_eq_left (by omega)
        · simp [ingest, hv1, hu, Out.quiet] at hc
        · simp [ingest, hv1, hu, Out.quiet] at hc
    · simp only [ingest, hv1, load_carrySinceMs]
      split_ifs
      · exact Or.inl rfl
      · exact Or.inr rfl

/-! ## Runs -/

/-- The carry of the truck is in order, if the truck is on the map. -/
def CarryOk (s : Truck) : Prop := 0 ≤ s.clock ∧ ∀ p, s.pos = some p → CarryInv s.clock p

def NoMoveIn (i : Input) (s : Truck) : Prop := ∀ f, i = .frame f → ¬ MovesIn s.pos f

theorem carryOk_step {i : Input} {s : Truck} (hs : CarryOk s) (hclock : s.clock ≤ i.now) (hmove : NoMoveIn i s) :
    CarryOk (step dist i s).2 := by
  cases i with
  | frame f =>
    refine ⟨f.now_pos.le, fun p hp => ?_⟩
    obtain rfl := Option.some.inj hp
    exact carryInv_ingest hs.2 hclock (hmove f rfl)
  | prune now =>
    refine ⟨hs.1.trans hclock, fun p hp => ?_⟩
    obtain ⟨hmem, -⟩ := Option.filter_eq_some_iff.mp hp
    have hinv := hs.2 p hmem
    exact ⟨hinv.loaded, fun h => ⟨(hinv.since h).1, (hinv.since h).2.trans hclock⟩, hinv.cycle⟩

def nextPickup (s : Truck) : ℤ :=
  match s.pos with
  | some p => if p.carrySinceMs ≠ 0 then p.carrySinceMs else s.clock
  | none => s.clock

theorem nextPickup_le {s : Truck} (hs : CarryOk s) : nextPickup s ≤ s.clock := by
  unfold nextPickup
  split
  · rename_i p hp
    split_ifs with h
    · exact ((hs.2 p hp).since h).2
    · exact le_rfl
  · exact le_rfl

variable (dist) in
/-- A delivery has at least this pickup, and the pickups to come are after it. -/
theorem nextPickup_step {i : Input} {s : Truck} (hs : CarryOk s) (hclock : s.clock ≤ i.now) (hmove : NoMoveIn i s) :
    nextPickup s ≤ nextPickup (step dist i s).2 ∧ ∀ c, (step dist i s).1.completed = some c →
      nextPickup s = c.pickupAtMs ∧ c.droppedAtMs ≤ nextPickup (step dist i s).2 := by
  cases i with
  | frame f =>
    have hnext : nextPickup (step dist (.frame f) s).2 =
        if (ingest dist s.pos f).1.carrySinceMs ≠ 0 then (ingest dist s.pos f).1.carrySinceMs else f.now := rfl
    have hle := (nextPickup_le hs).trans hclock
    refine ⟨?_, fun c hc => ?_⟩
    · rw [hnext]
      split_ifs with h
      · rcases ingest_since dist s.pos f with hold | hzero | hnow
        · cases hp : s.pos with
          | none => rw [hp] at hold h; exact absurd hold h
          | some p =>
            rw [hp] at hold h
            simp only [Option.map_some, Option.getD_some] at hold
            rw [hold] at h ⊢
            simp only [nextPickup, hp, if_pos h, le_refl]
        · exact absurd hzero h
        · rw [hnow]
          exact hle
      · exact hle
    · obtain ⟨⟨p, hp, hsince, hdel⟩, hafter⟩ := delivers_ingest hs.2 hc
      constructor
      · simp only [nextPickup, hp, if_pos hsince, hdel.pickup]
      · rw [hnext, hdel.dropped]
        rcases hafter with h | h
        · rw [if_neg (not_not.mpr h)]
        · rw [h, if_pos f.now_pos.ne']
  | prune now =>
    refine ⟨?_, fun c hc => by simp [step, Out.quiet] at hc⟩
    have hle := (nextPickup_le hs).trans hclock
    change nextPickup s ≤ nextPickup ⟨s.pos.filter _, now⟩
    cases hp : s.pos.filter (fun p => now - LOST_AFTER_S * 1000 ≤ p.lastSeenMs) with
    | none => exact hle
    | some p =>
      obtain ⟨hmem, -⟩ := Option.filter_eq_some_iff.mp hp
      simp only [nextPickup, hmem] at hle ⊢
      split_ifs at hle ⊢
      · exact le_rfl
      · exact hle

/-- A delivery is real: the box was picked up, carried long enough and driven far enough. -/
structure RealDelivery (c : CompletedCycle) : Prop where
  carried : 0 < c.pickupAtMs ∧ MIN_LOADED_MS ≤ c.droppedAtMs - c.pickupAtMs
  leg : c.ladenLegMs = c.droppedAtMs - c.pickupAtMs
  trip : MIN_CARRY_TRIP_M ≤ c.ladenLegM

/-- If no lone box moves into field 1, the deliveries of a run do not overlap. -/
theorem deliveries_apart {inputs : List Input} {s : Truck} (hs : CarryOk s) (hsteps : Steps dist NoMoveIn inputs s) :
    (events (runInputs dist inputs s)).Pairwise fun o o' =>
      ∀ c ∈ o.completed, ∀ c' ∈ o'.completed, c.droppedAtMs ≤ c'.pickupAtMs := by
  have hpair := events_pairwise (P := CarryOk) (B := fun s o => ∀ c ∈ o.completed, nextPickup s ≤ c.pickupAtMs)
    (R := fun o o' => ∀ c ∈ o.completed, ∀ c' ∈ o'.completed, c.droppedAtMs ≤ c'.pickupAtMs) ?_ hs hsteps
  · rw [List.map_map] at hpair
    exact hpair.1
  · intro fc hfc s hs hc
    obtain ⟨i, -, rfl⟩ := List.mem_map.mp hfc
    obtain ⟨hle, hnow⟩ := nextPickup_step dist hs hc.1 hc.2
    refine ⟨carryOk_step hs hc.1 hc.2, List.pairwise_singleton _ _, fun o ho => ?_, fun o ho c hcm => ?_⟩
    · rw [List.mem_singleton.mp ho]
      exact ⟨fun c hcm => (hnow c hcm).1.le, fun o' ho' c hcm c' hcm' => (hnow c hcm).2.trans (ho' c' hcm')⟩
    · exact hle.trans (ho c hcm)

theorem movesIn_not_carrying {p : Pos} {f : Frame} (hp : Carrying p) (hmove : MovesIn (some p) f) :
    ¬ Carrying (ingest dist (some p) f).1 := by
  obtain ⟨hold, hload, h21, h12⟩ := hmove
  have hne : f.c1 ≠ oldC1 (some p) := fun he => hload (he.trans hold)
  have hswap : slotSwap (some p) f = true := slotSwap_iff.mpr ⟨hne, hload, hold.trans h12.symm, h21.symm⟩
  have hv1 : ingestV1 dist (some p) f = (arrive dist (some p) f, Out.quiet) :=
    if_neg fun h => by simp [hswap] at h
  have hzero : p.carrySinceMs = 0 := by
    by_contra h
    exact hp.1.mpr h hold
  intro hafter
  simp only [ingest, hv1] at hafter
  exact hafter.1.mp hload hzero

theorem moveIn_seen {i : Input} {s : Truck} (hs : ∀ p, s.pos = some p → Carrying p)
    (hafter : ∀ p, (step dist i s).2.pos = some p → Carrying p) : NoMoveIn i s := by
  rintro f rfl hmove
  cases hp : s.pos with
  | none =>
    rw [hp] at hmove
    exact hmove.2.1 hmove.2.2.1
  | some p =>
    rw [hp] at hmove
    have hcarry := hafter (ingest dist s.pos f).1 rfl
    rw [hp] at hcarry
    exact movesIn_not_carrying (hs p hp) hmove hcarry

theorem carrying_steps {inputs : List Input} {s : Truck} (hs : ∀ p, s.pos = some p → Carrying p)
    (hclock : Steps dist (fun _ _ => True) inputs s)
    (h : ∀ x ∈ runInputs dist inputs s, ∀ p, x.2.pos = some p → Carrying p) : Steps dist NoMoveIn inputs s := by
  induction inputs generalizing s with
  | nil => trivial
  | cons i inputs ih =>
    obtain ⟨⟨hle, -⟩, hrest⟩ := steps_cons.mp hclock
    rw [runInputs_cons] at h
    obtain ⟨hnow, hlater⟩ := List.forall_mem_cons.mp h
    exact steps_cons.mpr ⟨⟨hle, moveIn_seen hs hnow⟩, ih hnow hrest hlater⟩

/-- **Carries and deliveries are well formed exactly in the runs in which no lone box moves into field 1**: a box is in
field 1 exactly while it is carried, in an open cycle; every delivery is real; and no delivery was picked up before the
last one was dropped. -/
theorem deliveries_well_formed (dist : ℚ × ℚ → ℚ × ℚ → ℚ) (inputs : List Input)
    (hclock : Steps dist (fun _ _ => True) inputs unseen) :
    ((∀ x ∈ runInputs dist inputs unseen, ∀ p, x.2.pos = some p → Carrying p) ∧
      (∀ x ∈ runInputs dist inputs unseen, ∀ c ∈ x.1.completed, RealDelivery c) ∧
      (events (runInputs dist inputs unseen)).Pairwise fun o o' =>
        ∀ c ∈ o.completed, ∀ c' ∈ o'.completed, c.droppedAtMs ≤ c'.pickupAtMs) ↔
      Steps dist NoMoveIn inputs unseen := by
  have hunseen : CarryOk unseen := ⟨le_rfl, fun p hp => by simp [unseen] at hp⟩
  constructor
  · rintro ⟨hcarry, -, -⟩
    exact carrying_steps (fun p hp => by simp [unseen] at hp) hclock hcarry
  · intro hsteps
    have hrun := runInputs_inv (P := CarryOk) (Q := fun o => ∀ c ∈ o.completed, RealDelivery c)
      (fun i s hs hle hmove => ⟨carryOk_step hs hle hmove, fun c hc => ?_⟩) hunseen hsteps
    · refine ⟨fun x hx p hp => ((hrun x hx).1.2 p hp).carrying, fun x hx => (hrun x hx).2, ?_⟩
      exact deliveries_apart hunseen hsteps
    · cases i with
      | frame f =>
        obtain ⟨⟨p, -, -, hdel⟩, -⟩ := delivers_ingest hs.2 hc
        exact ⟨hdel.carried, hdel.leg, hdel.trip⟩
      | prune now => simp [step, Out.quiet] at hc

/-- Box `X` is in field 1, and two minutes and 400 m later it is gone. -/
def deliveryInputs : List Input := [.frame firstField, .frame (emptyFrame 121000 (by decide) 401)]

theorem deliveries_well_formed_two :
    (events (runInputs northDist deliveryInputs unseen)).map (fun o => o.completed.isSome) = [false, true] ∧
      ∀ x ∈ runInputs northDist deliveryInputs unseen, ∀ c ∈ x.1.completed, RealDelivery c := by
  refine ⟨by decide +kernel, ((deliveries_well_formed northDist deliveryInputs ?_).mpr ?_).2.1⟩
  · exact steps_of_sorted (by decide) fun _ _ _ => trivial
  · refine steps_cons.mpr ⟨⟨by decide, fun f hf hmove => ?_⟩, steps_cons.mpr ⟨⟨by decide, fun f hf hmove => ?_⟩, trivial⟩⟩
    · obtain rfl := Input.frame.inj hf
      exact absurd hmove.2.2.1 (by decide)
    · obtain rfl := Input.frame.inj hf
      exact absurd rfl hmove.2.1

/-- Box `X` moves from field 2 into field 1, and is gone later. -/
def moveInInputs : List Input :=
  [.frame { emptyFrame 1000 one_second_pos 1 with container2 := some "X" },
    .frame { emptyFrame 2000 two_seconds_pos 1 with container1 := some "X" },
    .frame (emptyFrame 3000 three_seconds_pos 201)]

/-- A lone box that moves into field 1 is there without a carry and without an open cycle, and it is delivered without a
pickup. -/
theorem moved_in_box_not_carried :
    Steps northDist (fun _ _ => True) moveInInputs unseen ∧
      (runInputs northDist moveInInputs unseen).map
        (fun x => (x.2.pos.map fun p => (p.container1, p.carrySinceMs, p.cycleOpen.isSome),
          x.1.completed.map fun c => (c.pickupAtMs, c.ladenLegMs))) =
        [(some (none, 0, false), none), (some (some "X", 0, false), none), (some (none, 0, false), some (0, 0))] :=
  ⟨steps_of_sorted (by decide) fun _ _ _ => trivial, by decide +kernel⟩

end TtAiops.Cycle
