import TtAiops.Cycle.Legs

/-!
# The order of the phases of a cycle

* `PhaseOrder` : the stamps of a delivery that were observed are in the order of the phases;
* `LeavesLate` : the truck leaves the pickup for the first time after it was seen at the drop;
* `InOrder`, `PhaseInv` : the stamps of the open cycle are in order, and in the past;
* `inOrder_stampCycle`, `phaseInv_ingest` : a frame without a late departure keeps that;
* `cycle_phase_order` : **without late departures every delivery has its phases in order.**
-/

namespace TtAiops.Cycle
open TtAiops.Lib

variable {dist : ℚ × ℚ → ℚ × ℚ → ℚ}

/-- The observed stamps of the delivery are in the order of its phases. -/
def PhaseOrder (c : CompletedCycle) : Prop :=
  ([c.assignedAtMs, c.pickupArrivedAtMs, c.pickupLeftAtMs, c.arrivedAtMs, c.droppedAtMs].filter (· ≠ 0)).Pairwise (· ≤ ·)

instance (c : CompletedCycle) : Decidable (PhaseOrder c) := inferInstanceAs (Decidable (List.Pairwise _ _))

/-- The truck drives, its departure from the pickup is not stamped yet, and it arrived at the drop earlier. -/
def LeavesLate (f : Frame) (oc : OpenCycle) : Prop :=
  isArrived f.arrival = false ∧ IDLE_SPEED_KMH ≤ f.speed ∧ oc.pickupArrivedAtMs ≠ 0 ∧ oc.pickupLeftAtMs = 0 ∧
    oc.arrivedAtMs ≠ 0 ∧ oc.arrivedAtMs < f.now

def NoLateLeave (i : Input) (s : Truck) : Prop :=
  ∀ f, i = .frame f → ∀ oc ∈ s.pos.bind Pos.cycleOpen, ¬ LeavesLate f oc

/-- The stamps of an open cycle are in order, and not after the clock. -/
structure InOrder (clock : ℤ) (oc : OpenCycle) : Prop where
  assigned : 0 < oc.assignedAtMs ∧ oc.assignedAtMs ≤ clock
  pickup : oc.pickupArrivedAtMs ≠ 0 → oc.assignedAtMs ≤ oc.pickupArrivedAtMs ∧ oc.pickupArrivedAtMs ≤ clock
  left : oc.pickupLeftAtMs ≠ 0 →
    oc.pickupArrivedAtMs ≠ 0 ∧ oc.pickupArrivedAtMs ≤ oc.pickupLeftAtMs ∧ oc.pickupLeftAtMs ≤ clock
  arrived : oc.arrivedAtMs ≠ 0 →
    oc.assignedAtMs ≤ oc.arrivedAtMs ∧ oc.pickupArrivedAtMs ≤ oc.arrivedAtMs ∧ oc.arrivedAtMs ≤ clock
  leftFirst : oc.pickupLeftAtMs ≠ 0 → oc.arrivedAtMs ≠ 0 → oc.pickupLeftAtMs ≤ oc.arrivedAtMs

/-- The stamps of the truck are in order, and not after the clock. -/
structure PhaseInv (clock : ℤ) (p : Pos) : Prop where
  cycle : ∀ oc, p.cycleOpen = some oc → InOrder clock oc
  emptySince : p.emptySinceMs ≤ clock
  emptyArrived : p.emptyArrivedMs ≤ clock
  carrySince : p.carrySinceMs ≤ clock

theorem InOrder.mono {clock clock' : ℤ} {oc : OpenCycle} (h : InOrder clock oc) (hle : clock ≤ clock') :
    InOrder clock' oc :=
  ⟨⟨h.assigned.1, h.assigned.2.trans hle⟩, fun hp => ⟨(h.pickup hp).1, (h.pickup hp).2.trans hle⟩,
    fun hl => ⟨(h.left hl).1, (h.left hl).2.1, (h.left hl).2.2.trans hle⟩,
    fun ha => ⟨(h.arrived ha).1, (h.arrived ha).2.1, (h.arrived ha).2.2.trans hle⟩, h.leftFirst⟩

theorem PhaseInv.mono {clock clock' : ℤ} {p : Pos} (h : PhaseInv clock p) (hle : clock ≤ clock') : PhaseInv clock' p :=
  ⟨fun oc hoc => (h.cycle oc hoc).mono hle, h.emptySince.trans hle, h.emptyArrived.trans hle, h.carrySince.trans hle⟩

/-- **A frame without a late departure stamps the open cycle in order.** -/
theorem inOrder_stampCycle {edge side : Bool} {f : Frame} {oc : OpenCycle} (h : InOrder f.now oc)
    (hleave : ¬ LeavesLate f oc) : InOrder f.now (stampCycle edge side f oc) := by
  have hnow := f.now_pos
  obtain ⟨hassigned, hpickup, hleft, harrived, hfirst⟩ := h
  have hpickup_le : oc.pickupArrivedAtMs ≤ f.now := by
    by_cases hp : oc.pickupArrivedAtMs = 0
    · omega
    · exact (hpickup hp).2
  have hleft_le : oc.pickupLeftAtMs ≤ f.now := by
    by_cases hl : oc.pickupLeftAtMs = 0
    · omega
    · exact (hleft hl).2.2
  unfold stampCycle
  split_ifs with hedge hside hzero hboth hmoving
  · -- the arrival at the drop
    exact ⟨hassigned, hpickup, hleft, fun _ => ⟨hassigned.2, hpickup_le, le_rfl⟩, fun _ _ => hleft_le⟩
  · exact ⟨hassigned, hpickup, hleft, harrived, hfirst⟩
  · -- the arrival at the pickup, before any other phase
    have hnoleft : oc.pickupLeftAtMs = 0 := by
      by_contra hl
      exact (hleft hl).1 hboth.1
    exact ⟨hassigned, fun _ => ⟨hassigned.2, le_rfl⟩, fun hl => absurd hnoleft hl, fun ha => absurd hboth.2 ha,
      fun hl => absurd hnoleft hl⟩
  · exact ⟨hassigned, hpickup, hleft, harrived, hfirst⟩
  · -- the departure from the pickup
    refine ⟨hassigned, hpickup, fun _ => ⟨hmoving.2.1, hpickup_le, le_rfl⟩, harrived, fun _ ha => ?_⟩
    by_contra hlate
    exact hleave ⟨hmoving.1, hmoving.2.2.2, hmoving.2.1, hmoving.2.2.1, ha, not_le.mp hlate⟩
  · exact ⟨hassigned, hpickup, hleft, harrived, hfirst⟩

theorem inOrder_craneStamp {f : Frame} {pos : Pos} {clock : ℤ} {oc : OpenCycle} (h : InOrder clock oc) :
    InOrder clock (craneStamp dist f pos oc) := by
  obtain ⟨h1, h2, h3, h4, h5⟩ := h
  unfold craneStamp
  split
  · split
    · simp only [stampCraneCycle]
      split_ifs <;> exact ⟨h1, h2, h3, h4, h5⟩
    · exact ⟨h1, h2, h3, h4, h5⟩
  · exact ⟨h1, h2, h3, h4, h5⟩

variable (dist) in
theorem phaseInv_arrive {prev : Option Pos} {f : Frame} {clock : ℤ} (hprev : ∀ p, prev = some p → PhaseInv clock p)
    (hclock : clock ≤ f.now) (hleave : ∀ oc ∈ prev.bind Pos.cycleOpen, ¬ LeavesLate f oc) :
    PhaseInv f.now (arrive dist prev f) := by
  have hnow := f.now_pos
  have hsight : PhaseInv f.now (sight dist prev f) := by
    cases prev with
    | none => exact ⟨fun oc hoc => by simp [sight] at hoc, hnow.le, hnow.le, hnow.le⟩
    | some p =>
      obtain ⟨h1, h2, h3, h4⟩ := (hprev p rfl).mono hclock
      exact ⟨h1, h2, h3, h4⟩
  have hcycle : (sight dist prev f).cycleOpen = prev.bind Pos.cycleOpen := by cases prev <;> rfl
  refine ⟨fun oc hoc => ?_, hsight.emptySince, ?_, hsight.carrySince⟩
  · obtain ⟨oc1, hoc1, rfl⟩ := Option.map_eq_some_iff.mp hoc
    obtain ⟨oc0, hoc0, rfl⟩ := Option.map_eq_some_iff.mp hoc1
    exact inOrder_craneStamp (inOrder_stampCycle (hsight.cycle oc0 hoc0) (hleave oc0 (hcycle ▸ hoc0)))
  · change (if _ then f.now else (sight dist prev f).emptyArrivedMs) ≤ f.now
    split_ifs
    · exact le_rfl
    · exact hsight.emptyArrived

/-- A pickup opens a cycle whose arrival at the pickup, if there was one, is after the assignment. -/
theorem inOrder_openCycle {now : ℤ} {p : Pos} (hnow : 0 < now) (hsince : p.emptySinceMs ≤ now)
    (harrived : p.emptyArrivedMs ≤ now) (aj : Option AssignedJob) : InOrder now (openCycle now p aj) := by
  refine ⟨?_, fun hp => ?_, fun hl => absurd rfl hl, fun ha => absurd rfl ha, fun hl => absurd rfl hl⟩
  · simp only [openCycle]
    split_ifs with h
    · exact ⟨h, hsince⟩
    · exact ⟨hnow, le_rfl⟩
  · -- the arrival counts only if the beginning of the empty leg was seen before it
    by_cases h : 0 < p.emptySinceMs ∧ p.emptySinceMs < p.emptyArrivedMs
    · simp only [openCycle, if_pos h, if_pos h.1]
      exact ⟨h.2.le, harrived⟩
    · exact absurd (if_neg h) hp

theorem phaseInv_load {f : Frame} {pos : Pos} (wasLoaded : Bool) (h : PhaseInv f.now pos) :
    PhaseInv f.now (load wasLoaded f pos) := by
  have hnow := f.now_pos
  obtain ⟨hcycle, hsince, harrived, -⟩ := h
  unfold load
  split_ifs
  · exact ⟨hcycle, le_rfl, hnow.le, hnow.le⟩
  · refine ⟨fun oc hoc => ?_, le_rfl, hnow.le, le_rfl⟩
    obtain rfl := Option.some.inj hoc
    refine inOrder_openCycle hnow ?_ ?_ f.job
    · exact le_rfl
    · exact harrived
  · refine ⟨fun oc hoc => ?_, hsince, hnow.le, le_rfl⟩
    obtain rfl := Option.some.inj hoc
    refine inOrder_openCycle hnow ?_ ?_ f.job
    · exact hsince
    · exact harrived

theorem phaseInv_unload {f : Frame} {pos : Pos} (h : PhaseInv f.now pos) : PhaseInv f.now (unload f pos).1 := by
  rcases unload_cases f pos with ⟨-, -, hu⟩ | ⟨-, -, hu⟩ | ⟨-, hu⟩ <;> rw [hu]
  · exact ⟨fun oc hoc => by simp at hoc, h.emptySince, h.emptyArrived, h.carrySince⟩
  · exact h
  · exact h

/-- **A frame without a late departure keeps the stamps in order.** -/
theorem phaseInv_ingest {prev : Option Pos} {f : Frame} {clock : ℤ} (hprev : ∀ p, prev = some p → PhaseInv clock p)
    (hclock : clock ≤ f.now) (hleave : ∀ oc ∈ prev.bind Pos.cycleOpen, ¬ LeavesLate f oc) :
    PhaseInv f.now (ingest dist prev f).1 := by
  have harrive := phaseInv_arrive dist hprev hclock hleave
  have hv1 : PhaseInv f.now (ingestV1 dist prev f).1 := by
    rcases containerEdge_cases prev f (arrive dist prev f) with ⟨-, h⟩ | ⟨-, -, -, h⟩ | ⟨-, -, -, h⟩ <;>
      rw [ingestV1, h]
    · exact harrive
    · exact phaseInv_load false harrive
    · exact phaseInv_load true (phaseInv_unload harrive)
  exact ⟨hv1.cycle, hv1.emptySince, hv1.emptyArrived, hv1.carrySince⟩

theorem phaseOrder_finalize {p : Pos} {now : ℤ} (hnow : 0 < now) (h : PhaseInv now p) (c2c : Bool) :
    PhaseOrder (finalizeCycle p now c2c) := by
  unfold PhaseOrder finalizeCycle
  cases hoc : p.cycleOpen with
  | none =>
    -- without an open cycle only the beginning of the carry is known
    have hcarry := h.carrySince
    by_cases hzero : p.carrySinceMs = 0 <;>
      simp [OpenCycle.default, hzero, hnow.ne', hcarry]
  | some oc =>
    obtain ⟨⟨hpos, hle⟩, hpickup, hleft, harrived, hfirst⟩ := h.cycle oc hoc
    have hpickup' := or_iff_not_imp_left.mpr hpickup
    have hleft' := or_iff_not_imp_left.mpr hleft
    have harrived' := or_iff_not_imp_left.mpr harrived
    have hfirst' : oc.pickupLeftAtMs = 0 ∨ oc.arrivedAtMs = 0 ∨ oc.pickupLeftAtMs ≤ oc.arrivedAtMs :=
      or_iff_not_imp_left.mpr fun hl => or_iff_not_imp_left.mpr fun ha => hfirst hl ha
    simp only [Option.getD_some, if_pos hpos]
    by_cases hp : oc.pickupArrivedAtMs = 0 <;> by_cases hl : oc.pickupLeftAtMs = 0 <;>
      by_cases ha : oc.arrivedAtMs = 0 <;> simp [hp, hl, ha, hpos.ne', hnow.ne'] <;> omega

theorem phaseOrder_ingest {prev : Option Pos} {f : Frame} {clock : ℤ} (hprev : ∀ p, prev = some p → PhaseInv clock p)
    (hclock : clock ≤ f.now) (hleave : ∀ oc ∈ prev.bind Pos.cycleOpen, ¬ LeavesLate f oc) {c : CompletedCycle}
    (hc : (ingest dist prev f).2.completed = some c) : PhaseOrder c := by
  obtain ⟨h1, h2, h3, h4⟩ := phaseInv_arrive dist hprev hclock hleave
  rcases containerEdge_cases prev f (arrive dist prev f) with ⟨-, h⟩ | ⟨-, -, -, h⟩ | ⟨-, -, -, h⟩
  · simp [ingest, ingestV1, h, Out.quiet] at hc
  · simp [ingest, ingestV1, h, Out.quiet] at hc
  · rcases unload_cases f (arrive dist prev f) with ⟨-, -, hu⟩ | ⟨-, -, hu⟩ | ⟨-, hu⟩
    · simp only [ingest, ingestV1, h, hu] at hc
      obtain rfl := Option.some.inj hc
      exact phaseOrder_finalize f.now_pos ⟨h1, h2, h3, h4⟩ _
    · simp [ingest, ingestV1, h, hu, Out.quiet] at hc
    · simp [ingest, ingestV1, h, hu, Out.quiet] at hc

/-- **In every run in which the truck never leaves late, every delivery has its phases in order.** -/
theorem cycle_phase_order (dist : ℚ × ℚ → ℚ × ℚ → ℚ) (inputs : List Input)
    (hsteps : Steps dist NoLateLeave inputs unseen) :
    ∀ x ∈ runInputs dist inputs unseen, ∀ c ∈ x.1.completed, PhaseOrder c := by
  have hrun := runInputs_inv (P := fun s => ∀ p, s.pos = some p → PhaseInv s.clock p)
    (Q := fun o => ∀ c ∈ o.completed, PhaseOrder c) ?_ (fun p hp => by simp [unseen] at hp) hsteps
  · exact fun x hx => (hrun x hx).2
  · intro i s hs hle hleave
    cases i with
    | frame f =>
      refine ⟨fun p hp => ?_, fun c hc => phaseOrder_ingest hs hle (hleave f rfl) hc⟩
      obtain rfl := Option.some.inj hp
      exact phaseInv_ingest hs hle (hleave f rfl)
    | prune now =>
      refine ⟨fun p hp => ?_, fun c hc => by simp [step, Out.quiet] at hc⟩
      obtain ⟨hmem, -⟩ := Option.filter_eq_some_iff.mp hp
      exact (hs p hmem).mono hle

/-- A loading job: the truck is at the block, then at the crane, then it moves at `speed`, and then the box is gone. -/
def loadingInputs (speed : ℚ) : List Input :=
  let frame := fun (now : ℤ) (now_pos : 0 < now) (topos : String) (arrival : Option String) =>
    { emptyFrame now now_pos 1 with
      speed := 0
      jobtype := some "LD"
      container1 := some "X"
      topos1 := some topos
      arrival := arrival }
  [.frame (frame 1000 one_second_pos "01A-01" none), .frame (frame 2000 two_seconds_pos "01A-01" (some "ARRIVED")),
    .frame (frame 3000 three_seconds_pos "C46" none), .frame (frame 4000 (by decide) "C46" (some "ARRIVED")),
    .frame { frame 5000 (by decide) "C46" none with speed := speed },
    .frame { emptyFrame 65000 (by decide) 201 with speed := 0 }]

theorem cycle_phase_order_loading :
    Steps northDist NoLateLeave (loadingInputs 0) unseen ∧
      ∀ x ∈ runInputs northDist (loadingInputs 0) unseen, ∀ c ∈ x.1.completed, PhaseOrder c := by
  -- a frame either says that the truck has arrived, or finds it standing
  have hstand : ∀ i ∈ loadingInputs 0, ∀ s, NoLateLeave i s := by
    intro i hi s f hf oc _ hlate
    subst hf
    simp only [loadingInputs, List.mem_cons, List.not_mem_nil, or_false, Input.frame.injEq] at hi
    obtain ⟨harrival, hspeed, -⟩ := hlate
    rcases hi with rfl | rfl | rfl | rfl | rfl | rfl <;> revert harrival hspeed <;> decide
  have hsteps : Steps northDist NoLateLeave (loadingInputs 0) unseen := steps_of_sorted (by decide) hstand
  exact ⟨hsteps, cycle_phase_order northDist (loadingInputs 0) hsteps⟩

/-- The truck moves after it has arrived at the crane: its departure from the block is stamped then. -/
theorem late_leave_out_of_order :
    (events (runInputs northDist (loadingInputs 10) unseen)).map (fun o => o.completed.map fun c =>
        (c.pickupArrivedAtMs, c.pickupLeftAtMs, c.arrivedAtMs, c.droppedAtMs)) =
      [none, none, none, none, none, some (2000, 5000, 4000, 65000)] ∧
      ¬ ∀ x ∈ runInputs northDist (loadingInputs 10) unseen, ∀ c ∈ x.1.completed, PhaseOrder c := by
  decide +kernel

end TtAiops.Cycle
