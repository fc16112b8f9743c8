import TtAiops.Lib.Runs
import TtAiops.Cycle.Frame

/-!
# The leg tracker (`ingest_text`, v2), the handler and the flusher

A leg is one target of the truck: assignment, arrival, departure. The legs between two deliveries are a v2 cycle.

* `startTravel`, `progressLeg`, `pickupLeg`, `closeV2`, `assignLeg` : the steps of the tracker, in its order;
* `ingest` : the whole handler of a frame;
* `Input`, `inputStage`, `runInputs` : frames and prunes of one truck, as stages;
* `v2Row` : the row of `tt_cycle_v2` that the flusher writes for a finished v2 cycle.
-/

namespace TtAiops.Cycle
open TtAiops.Lib

def V2_LEGS_MAX : ℕ := 6

def blockPrefix (s : String) : String := String.ofList (s.toList.takeWhile (· != '-'))

def prepositionedArrival (crane : Bool) (target : String) (stopped : Bool) (curLoc : String) : Bool :=
  !crane && stopped && curLoc != "" && blockPrefix curLoc == blockPrefix target

def Frame.stopped (f : Frame) : Bool := f.speed < IDLE_SPEED_KMH

section Tracker

variable (dist : ℚ × ℚ → ℚ × ℚ → ℚ)

/-- The first movement of an open v2 cycle before its first arrival. -/
def startTravel (f : Frame) (v2 : V2State) : V2State :=
  if 0 < v2.openedMs ∧ v2.emptyTravelStartMs = 0 ∧ IDLE_SPEED_KMH ≤ f.speed ∧ v2.legs = [] ∧
      v2.cur.all (fun l => l.arrivedMs = 0) = true then
    { v2 with emptyTravelStartMs := f.now }
  else v2

/-- The stopped truck is at the target by its location, or near the crane. -/
def stoppedAt (f : Frame) (leg : V2Leg) : Option ArrSrc :=
  let cl := f.curLoc.getD ""
  let atTarget :=
    if leg.crane then "WHARF".toList.isPrefixOf cl.toList else cl != "" && blockPrefix cl == blockPrefix leg.target
  let near := (f.device leg.target).any fun cr =>
    cr.lat ≠ 0 && (f.now - cr.lastSeenMs) / 1000 ≤ STALE_AFTER_S && dist (f.lat, f.lon) (cr.lat, cr.lon) ≤ 60
  if atTarget then some .curLoc else if leg.crane && near then some .gps else none

/-- The arrival of the leg: it is set once, and a coarse one is set again when a better one is known. -/
def arriveLeg (edge : Bool) (arrDtimeMs : ℤ) (f : Frame) (leg : V2Leg) : V2Leg :=
  let coarse := leg.arrSrc = .curLoc
  if leg.arrivedMs = 0 ∨ coarse then
    let better := fun (ms : ℤ) (src : ArrSrc) =>
      -- the departure of an early coarse arrival is derived anew
      let left := if coarse ∧ leg.leftMs ≠ 0 ∧ leg.leftMs ≤ ms then 0 else leg.leftMs
      { leg with arrivedMs := ms, arrSrc := src, leftMs := left }
    if 0 < arrDtimeMs ∧ leg.assignedMs ≤ arrDtimeMs then better arrDtimeMs .arrDtime
    else if edge then better f.now .arrived
    else if leg.arrivedMs = 0 ∧ f.stopped = true then
      match stoppedAt dist f leg with
      | some src => { leg with arrivedMs := f.now, arrSrc := src }
      | none => leg
    else leg
  else leg

def leaveLeg (f : Frame) (leg : V2Leg) : V2Leg :=
  if 0 < leg.arrivedMs ∧ leg.leftMs = 0 ∧ IDLE_SPEED_KMH ≤ f.speed ∧ 5000 < f.now - leg.arrivedMs then
    { leg with leftMs := f.now }
  else leg

def progressLeg (edge : Bool) (arrDtimeMs : ℤ) (f : Frame) (leg : V2Leg) : V2Leg :=
  leaveLeg f (arriveLeg dist edge arrDtimeMs f leg)

def openV2 (now : ℤ) (jobtype : Option String) (v2 : V2State) : V2State :=
  if v2.openedMs = 0 then { v2 with openedMs := now, jobtype := jobtype } else v2

/-- A box in the empty field 1 is a pickup: the current leg has arrived, or there is one now. -/
def pickupLeg (prev : Option Pos) (f : Frame) (pos : Pos) (v2 : V2State) : V2State :=
  if oldC1 prev = "" ∧ f.c1 ≠ "" then
    let v2 := openV2 f.now pos.latchedJobtype v2
    match v2.cur with
    | some leg =>
      if leg.arrivedMs = 0 then { v2 with cur := some { leg with arrivedMs := f.now, arrSrc := .container1 } } else v2
    | none =>
      let crane := (v2.jobtype <|> pos.latchedJobtype) == some "DS"
      let tgt := ((pos.latchedTopos.filter (· ≠ "")) <|> f.curLoc).getD ""
      if tgt ≠ "" then { v2 with cur := some ⟨tgt, crane, v2.openedMs, f.now, .container1, 0⟩ } else v2
  else v2

def newLeg (f : Frame) (target : String) : V2Leg :=
  let prepos := prepositionedArrival (isCraneCode target) target f.stopped (f.curLoc.getD "")
  ⟨target, isCraneCode target, f.now, if prepos then f.now else 0, if prepos then .prePositioned else .unset, 0⟩

def endLeg (now : ℤ) (leg : V2Leg) : V2Leg :=
  if 0 < leg.arrivedMs ∧ leg.leftMs = 0 then { leg with leftMs := now } else leg

/-- The legs of the closed cycle, and the leg that the next one takes over. -/
def closedLegs (f : Frame) (pos : Pos) (v2 : V2State) : List V2Leg × Option V2Leg :=
  let closeJobtype := v2.jobtype <|> pos.latchedJobtype
  let pickupIsCrane := closeJobtype == some "DS"
  let knownJt := closeJobtype == some "DS" || closeJobtype == some "LD"
  match v2.cur with
  | none => (v2.legs, none)
  | some cur =>
    let reachedDrop := (v2.legs ++ [cur]).any fun l => l.crane != pickupIsCrane
    if cur.arrivedMs = 0 ∧ v2.legs ≠ [] then (v2.legs, some cur)
    else if knownJt = true ∧ reachedDrop = false ∧ cur.crane = pickupIsCrane then (v2.legs, some cur)
    else (v2.legs ++ [endLeg f.now cur], none)

/-- The v2 state without legs: it is open if the next box is there already. -/
def nextV2 (f : Frame) (pos : Pos) : V2State :=
  if f.c1 ≠ "" then { V2State.default with openedMs := f.now, jobtype := pos.latchedJobtype } else V2State.default

def reopenV2 (prev : Option Pos) (f : Frame) (pos : Pos) (carry : Option V2Leg) : V2State :=
  let v2 := nextV2 f pos
  match carry with
  | some c =>
    { openV2 (min c.assignedMs f.now) pos.latchedJobtype v2 with cur := some c }
  | none =>
    if 0 < v2.openedMs then
      match pos.latchedTopos with
      | some t => if prev.bind Pos.latchedTopos ≠ some t then { v2 with cur := some (newLeg f t) } else v2
      | none => v2
    else v2

def closeV2 (prev : Option Pos) (f : Frame) (pos : Pos) (done : CompletedCycle) (v2 : V2State) :
    V2State × Option CompletedV2 :=
  let r := closedLegs f pos v2
  (reopenV2 prev f pos r.2,
    if 0 < v2.openedMs ∧ r.1 ≠ [] then
      some
        { droppedMs := f.now
          openedMs := v2.openedMs
          emptyTravelStartMs := v2.emptyTravelStartMs
          jobtype := v2.jobtype <|> pos.latchedJobtype
          legs := r.1
          v1PickupArrivedMs := done.pickupArrivedAtMs
          v1DropArrivedMs := done.arrivedAtMs }
    else none)

/-- The legs with the current one, which ends now. The second leg makes room when there are too many. -/
def pushLeg (now : ℤ) (v2 : V2State) : List V2Leg :=
  match v2.cur with
  | some cur => (if V2_LEGS_MAX ≤ v2.legs.length then v2.legs.eraseIdx 1 else v2.legs) ++ [endLeg now cur]
  | none => v2.legs

def assignLeg (prev : Option Pos) (f : Frame) (pos : Pos) (v2 : V2State) : V2State :=
  let rawTp := f.topos1.getD ""
  if rawTp ≠ "" ∧ prev.bind Pos.latchedTopos ≠ some rawTp ∧ v2.cur.map V2Leg.target ≠ some rawTp then
    let v2 := openV2 f.now pos.latchedJobtype v2
    { v2 with legs := pushLeg f.now v2, cur := some (newLeg f rawTp) }
  else if v2.openedMs = 0 ∧ f.c1 ≠ "" ∧ oldC1 prev = "" then openV2 f.now pos.latchedJobtype v2
  else v2

/-- The tracker, after the v1 part of the handler. -/
def trackLegs (prev : Option Pos) (f : Frame) (pos : Pos) (completed : Option CompletedCycle) :
    V2State × Option CompletedV2 :=
  let v2 := startTravel f pos.v2
  let v2 := { v2 with cur := v2.cur.map (progressLeg dist (arrivedEdge prev f) pos.arrDtimeMs f) }
  let v2 := pickupLeg prev f pos v2
  let r := match completed with
    | some done => closeV2 prev f pos done v2
    | none => (v2, none)
  (assignLeg prev f pos r.1, r.2)

/-- `ingest_text` of a truck's frame: the state of the truck after it, and what it adds. -/
def ingest (prev : Option Pos) (f : Frame) : Pos × Out :=
  let r := ingestV1 dist prev f
  let t := trackLegs dist prev f r.1 r.2.completed
  ({ r.1 with v2 := t.1 }, { r.2 with completedV2 := t.2 })

/-! ## Runs -/

/-- A frame of the truck, or a round of the pruner. -/
inductive Input
  | frame (f : Frame)
  | prune (now : ℤ)

def Input.now : Input → ℤ
  | .frame f => f.now
  | .prune now => now

/-- The state of the truck, if it is on the map, and the time of its last input. -/
structure Truck where
  pos : Option Pos
  clock : ℤ

def LOST_AFTER_S : ℤ := 600

/-- What an input adds, and the state after it. -/
def step : Input → Truck → Out × Truck
  | .frame f, s => ((ingest dist s.pos f).2, ⟨some (ingest dist s.pos f).1, f.now⟩)
  | .prune now, s => (Out.quiet, ⟨s.pos.filter fun p => now - LOST_AFTER_S * 1000 ≤ p.lastSeenMs, now⟩)

def inputStage (i : Input) : Stage Out Truck := fun s => ([step dist i s], true)

def runInputs (inputs : List Input) (s : Truck) : List (Out × Truck) := runStages (inputs.map (inputStage dist)) s

def unseen : Truck := ⟨none, 0⟩

/-- The clock never goes back, and every input is `ok` in the state in which it arrives. -/
def Steps (ok : Input → Truck → Prop) (inputs : List Input) (s : Truck) : Prop :=
  AtStages (inputs.map fun i => (inputStage dist i, fun s => s.clock ≤ i.now ∧ ok i s)) s

variable {dist}

theorem runInputs_cons (i : Input) (inputs : List Input) (s : Truck) :
    runInputs dist (i :: inputs) s = step dist i s :: runInputs dist inputs (step dist i s).2 := rfl

theorem steps_cons {ok : Input → Truck → Prop} {i : Input} {inputs : List Input} {s : Truck} :
    Steps dist ok (i :: inputs) s ↔ (s.clock ≤ i.now ∧ ok i s) ∧ Steps dist ok inputs (step dist i s).2 := by
  simp [Steps, AtStages, inputStage]

theorem Steps.imp {ok ok' : Input → Truck → Prop} {inputs : List Input} {s : Truck}
    (h : ∀ i ∈ inputs, ∀ s, ok i s → ok' i s) (hsteps : Steps dist ok inputs s) : Steps dist ok' inputs s := by
  induction inputs generalizing s with
  | nil => trivial
  | cons i inputs ih =>
    obtain ⟨⟨hle, hok⟩, hrest⟩ := steps_cons.mp hsteps
    exact steps_cons.mpr ⟨⟨hle, h i List.mem_cons_self s hok⟩, ih (fun j hj => h j (List.mem_cons_of_mem _ hj)) hrest⟩

instance decidableSteps {ok : Input → Truck → Prop} [∀ i s, Decidable (ok i s)] :
    ∀ inputs s, Decidable (Steps dist ok inputs s)
  | [], _ => .isTrue trivial
  | i :: inputs, s =>
    have : Decidable (Steps dist ok inputs (step dist i s).2) := decidableSteps inputs _
    decidable_of_iff _ steps_cons.symm

theorem step_clock (i : Input) (s : Truck) : (step dist i s).2.clock = i.now := by
  cases i <;> rfl

theorem steps_of_sorted {ok : Input → Truck → Prop} {inputs : List Input} {s : Truck}
    (hclock : (s.clock :: inputs.map Input.now).Pairwise (· ≤ ·)) (hok : ∀ i ∈ inputs, ∀ s, ok i s) :
    Steps dist ok inputs s := by
  induction inputs generalizing s with
  | nil => trivial
  | cons i inputs ih =>
    obtain ⟨hle, hrest⟩ := List.pairwise_cons.mp hclock
    refine steps_cons.mpr ⟨⟨hle i.now List.mem_cons_self, hok i List.mem_cons_self s⟩, ih ?_ ?_⟩
    · rw [step_clock]
      exact hrest
    · exact fun j hj => hok j (List.mem_cons_of_mem _ hj)

theorem runInputs_inv {P : Truck → Prop} {Q : Out → Prop} {ok : Input → Truck → Prop} {inputs : List Input} {s : Truck}
    (h : ∀ i s, P s → s.clock ≤ i.now → ok i s → P (step dist i s).2 ∧ Q (step dist i s).1) (hs : P s)
    (hsteps : Steps dist ok inputs s) : ∀ x ∈ runInputs dist inputs s, P x.2 ∧ Q x.1 := by
  induction inputs generalizing s with
  | nil => exact fun x hx => absurd hx List.not_mem_nil
  | cons i inputs ih =>
    obtain ⟨⟨hclock, hok⟩, hrest⟩ := steps_cons.mp hsteps
    rw [runInputs_cons]
    exact List.forall_mem_cons.mpr ⟨h i s hs hclock hok, ih (h i s hs hclock hok).1 hrest⟩

end Tracker

/-! ## The flusher -/

def toTs (ms : ℤ) : Option ℤ := if 0 < ms then some ms else none

/-- A row of `tt_cycle_v2`, without the legs. -/
structure V2Row where
  droppedAt : ℤ
  openedAt : Option ℤ
  jobtype : Option String
  emptyTravelStartAt : Option ℤ
  emptyArrivedAt : Option ℤ
  pickupLeftAt : Option ℤ
  ladenArrivedAt : Option ℤ
  arrSrcPickup : ArrSrc
  arrSrcDrop : ArrSrc
  deriving DecidableEq

/-- The stamps of a row while the flusher works on them. -/
structure Stamps where
  pArrMs : ℤ
  pArrSrc : ArrSrc
  pLeft : ℤ
  dArrMs : ℤ
  dArrSrc : ArrSrc
  deriving DecidableEq

/-- `split`: how many legs lead to the pickup. -/
def splitLegs (c : CompletedV2) : ℕ :=
  let pickupIsCrane := c.jobtype == some "DS"
  match c.legs.findIdx? fun l => l.crane != pickupIsCrane with
  | some n => n
  | none => if 2 ≤ c.legs.length then c.legs.length - 1 else c.legs.length

def pickupLegs (c : CompletedV2) : List V2Leg := c.legs.take (splitLegs c)

def dropLeg (c : CompletedV2) : Option V2Leg := (c.legs.drop (splitLegs c)).head?

def legStamps (c : CompletedV2) : Stamps :=
  let pArr := (pickupLegs c).find? fun l => 0 < l.arrivedMs
  let pLeft := ((pickupLegs c).getLast?.map V2Leg.leftMs).getD 0
  { pArrMs := (pArr.map V2Leg.arrivedMs).getD 0
    pArrSrc := (pArr.map V2Leg.arrSrc).getD .unset
    pLeft := if pLeft = 0 then ((dropLeg c).map V2Leg.assignedMs).getD 0 else pLeft
    dArrMs := ((dropLeg c).map V2Leg.arrivedMs).getD 0
    dArrSrc := ((dropLeg c).map V2Leg.arrSrc).getD .unset }

/-- The arrival at the drop that v1 has, where the legs have none. -/
def backfillDrop (c : CompletedV2) (s : Stamps) : Stamps :=
  if 0 < c.v1DropArrivedMs ∧ c.v1DropArrivedMs ≤ c.droppedMs ∧ (s.dArrMs = 0 ∨ s.dArrSrc = .prePositioned) then
    { s with dArrMs := c.v1DropArrivedMs, dArrSrc := .v1 }
  else s

/-- The arrival at the pickup that v1 has, where the legs have none or a rough one. -/
def backfillPickup (c : CompletedV2) (s : Stamps) : Stamps :=
  if 0 < c.v1PickupArrivedMs ∧ c.v1PickupArrivedMs ≤ c.droppedMs ∧
      (s.pArrMs = 0 ∨ s.pArrSrc = .prePositioned ∨ s.pArrSrc = .container1) then
    { s with pArrMs := c.v1PickupArrivedMs, pArrSrc := .v1 }
  else s

def backfilled (c : CompletedV2) : Stamps := backfillPickup c (backfillDrop c (legStamps c))

/-- Of two arrivals in the wrong order the one of v1 goes. -/
def repairArrivals (s : Stamps) : Stamps :=
  if 0 < s.pArrMs ∧ 0 < s.dArrMs ∧ s.dArrMs < s.pArrMs then
    if s.pArrSrc = .v1 then { s with pArrMs := 0, pArrSrc := .unset }
    else if s.dArrSrc = .v1 then { s with dArrMs := 0, dArrSrc := .unset }
    else s
  else s

/-- A departure before the pickup arrival or after the drop arrival goes. -/
def repairLeft (s : Stamps) : Stamps :=
  let s := if 0 < s.pLeft ∧ 0 < s.pArrMs ∧ s.pLeft < s.pArrMs then { s with pLeft := 0 } else s
  if 0 < s.pLeft ∧ 0 < s.dArrMs ∧ s.dArrMs < s.pLeft then { s with pLeft := 0 } else s

/-- `ets_ms`: a start after the pickup arrival goes. -/
def travelStart (c : CompletedV2) (s : Stamps) : ℤ :=
  if 0 < c.emptyTravelStartMs ∧ 0 < s.pArrMs ∧ s.pArrMs < c.emptyTravelStartMs then 0 else c.emptyTravelStartMs

/-- The row of a finished v2 cycle. -/
def v2Row (c : CompletedV2) : Option V2Row :=
  let s := repairLeft (repairArrivals (backfilled c))
  (toTs c.droppedMs).map fun dropped =>
    { droppedAt := dropped
      openedAt := toTs c.openedMs
      jobtype := c.jobtype
      emptyTravelStartAt := toTs (travelStart c s)
      emptyArrivedAt := toTs s.pArrMs
      pickupLeftAt := toTs s.pLeft
      ladenArrivedAt := toTs s.dArrMs
      arrSrcPickup := s.pArrSrc
      arrSrcDrop := s.dArrSrc }

end TtAiops.Cycle
