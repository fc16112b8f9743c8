import Mathlib
import TtAiops.Lib.Ints
import TtAiops.Lib.Texts

/-!
# The frames of a truck and its cycle (`ingest_text`, v1)

A frame is one `gps_update` of a truck with what the handler looks up beside it. The handler carries the state of the
truck over, stamps the phases of the open cycle, and reads deliveries off the container fields.

* `Frame`, `Pos`, `OpenCycle`, `CompletedCycle` : the frame, the state of a truck, its cycle, and a delivery;
* `openCycle`, `finalizeCycle`, `slotSwap` : `open_cycle`, `finalize_cycle`, and the guard against exchanged fields;
* `sight`, `stampPhases`, `stampEmpty`, `stampCrane`, `containerEdge` : the steps of the handler, in its order;
* `V2Leg`, `V2State`, `CompletedV2` : what the leg tracker keeps, see `Legs`.

Points in time are milliseconds, and 0 stands for one that was not observed; distances are metres.
-/

namespace TtAiops.Cycle
open TtAiops.Lib TtAiops.Lib.Texts

/-- `AssignedJob`, as far as a cycle takes it over. -/
structure AssignedJob where
  jobtype : Option String
  vessel : Option String
  voyage : Option String
  contno : Option String
  qc : Option String
  twintandem : Option String

structure Device where
  lat : ℚ
  lon : ℚ
  lastSeenMs : ℤ

/-- A frame of a truck after the checks on its coordinates, with the clock, the assignment of the truck, and what is
known of the other devices. Texts are trimmed, and those that are empty are absent. -/
structure Frame where
  now : ℤ
  now_pos : 0 < now
  lat : ℚ
  lon : ℚ
  speed : ℚ
  jobtype : Option String
  vslname : Option String
  container1 : Option String
  container2 : Option String
  curLoc : Option String
  topos1 : Option String
  arrival : Option String
  arrDtime : Option String
  job : Option AssignedJob
  device : String → Option Device
  plc : String → Option (ℤ × ℤ)

theorem one_second_pos : (0 : ℤ) < 1000 := by decide
theorem two_seconds_pos : (0 : ℤ) < 2000 := by decide
theorem three_seconds_pos : (0 : ℤ) < 3000 := by decide
theorem four_seconds_pos : (0 : ℤ) < 4000 := by decide
theorem one_minute_pos : (0 : ℤ) < 60000 := by decide
theorem seventy_seconds_pos : (0 : ℤ) < 70000 := by decide

/-- A frame of a truck that drives without boxes; runs on fixed inputs change its fields. -/
def emptyFrame (now : ℤ) (now_pos : 0 < now) (lat : ℚ) : Frame where
  now := now
  now_pos := now_pos
  lat := lat
  lon := 1
  speed := 10
  jobtype := none
  vslname := none
  container1 := none
  container2 := none
  curLoc := none
  topos1 := none
  arrival := none
  arrDtime := none
  job := none
  device := fun _ => none
  plc := fun _ => none

def northDist (a b : ℚ × ℚ) : ℚ := if a.1 ≤ b.1 then b.1 - a.1 else a.1 - b.1

/-! ## The leg tracker's data -/

inductive ArrSrc
  | unset
  | arrDtime
  | arrived
  | curLoc
  | gps
  | prePositioned
  | container1
  | v1
  deriving DecidableEq

/-- `V2Leg`, without the coordinates of the arrival. -/
structure V2Leg where
  target : String
  crane : Bool
  assignedMs : ℤ
  arrivedMs : ℤ
  arrSrc : ArrSrc
  leftMs : ℤ
  deriving DecidableEq

structure V2State where
  openedMs : ℤ
  emptyTravelStartMs : ℤ
  jobtype : Option String
  legs : List V2Leg
  cur : Option V2Leg
  deriving DecidableEq

def V2State.default : V2State := ⟨0, 0, none, [], none⟩

structure CompletedV2 where
  droppedMs : ℤ
  openedMs : ℤ
  emptyTravelStartMs : ℤ
  jobtype : Option String
  legs : List V2Leg
  v1PickupArrivedMs : ℤ
  v1DropArrivedMs : ℤ
  deriving DecidableEq

/-! ## The cycle's data -/

/-- `crane_arr_method`. -/
inductive CraneMethod
  | arrived
  | gps
  | plc
  deriving DecidableEq

structure OpenCycle where
  assignedAtMs : ℤ
  pickupArrivedAtMs : ℤ
  pickupLeftAtMs : ℤ
  pickupAtMs : ℤ
  arrivedAtMs : ℤ
  pickupArrivedCraneMs : ℤ
  arrivedCraneMs : ℤ
  craneArrMethod : Option CraneMethod
  idleBeforeMs : ℤ
  emptyLegMs : ℤ
  emptyLegM : ℚ
  jobtype : Option String
  vessel : Option String
  voyage : Option String
  container : Option String
  qc : Option String
  twintandem : Option String
  deriving DecidableEq

def OpenCycle.default : OpenCycle := ⟨0, 0, 0, 0, 0, 0, 0, none, 0, 0, 0, none, none, none, none, none, none⟩

structure CompletedCycle where
  assignedAtMs : ℤ
  pickupArrivedAtMs : ℤ
  pickupLeftAtMs : ℤ
  pickupAtMs : ℤ
  arrivedAtMs : ℤ
  pickupArrivedCraneMs : ℤ
  arrivedCraneMs : ℤ
  craneArrMethod : Option CraneMethod
  droppedAtMs : ℤ
  idleBeforeMs : ℤ
  emptyLegMs : ℤ
  emptyLegM : ℚ
  ladenLegMs : ℤ
  ladenLegM : ℚ
  jobtype : Option String
  vessel : Option String
  voyage : Option String
  container : Option String
  qc : Option String
  twintandem : Option String
  containerToContainer : Bool
  deriving DecidableEq

/-- `Pos`, as far as the next frame reads it. -/
structure Pos where
  lat : ℚ
  lon : ℚ
  lastSeenMs : ℤ
  container1 : Option String
  container2 : Option String
  arrival : Option String
  carrySinceMs : ℤ
  lastDropMs : ℤ
  carryTripM : ℚ
  latchedContainer : Option String
  latchedJobtype : Option String
  latchedVessel : Option String
  latchedTopos : Option String
  emptySinceMs : ℤ
  emptyTripM : ℚ
  emptyArrivedMs : ℤ
  cycleOpen : Option OpenCycle
  arrDtimeMs : ℤ
  v2 : V2State

/-! ## Codes and times -/

def MIN_LOADED_MS : ℤ := 30000

def MIN_CARRY_TRIP_M : ℚ := 150

def NEAR_TRIP_M : ℚ := 100

def MAX_FIX_STEP_M : ℚ := 600

def MIN_CYCLE_S : ℤ := 120

def MAX_CYCLE_S : ℤ := 1200

def IDLE_SPEED_KMH : ℚ := 3

def STALE_AFTER_S : ℤ := 120

def CRANE_ARRIVE_M : ℚ := 40

def CRANE_PLC_ACTIVE_MS : ℤ := 120000

def isCraneCode (s : String) : Bool :=
  match s.toList with
  | c :: cs => (c == 'C' || c == 'M' || c == 'Z') && !cs.isEmpty && cs.all Char.isDigit
  | [] => false

/-- `str::parse::<i64>`, where a number out of range may come back as it is. -/
def parseI64 (s : List Char) : Option ℤ :=
  let digits := fun (cs : List Char) =>
    if !cs.isEmpty && cs.all Char.isDigit then
      some (cs.foldl (fun n c => n * 10 + (c.toNat - '0'.toNat : ℤ)) (0 : ℤ))
    else none
  match s with
  | '-' :: cs => (digits cs).map Neg.neg
  | '+' :: cs => digits cs
  | cs => digits cs

/-- The time of day on the terminal's date of `nowMs`, or on the day before; none if that is long ago. -/
def timeOfDay (h m sec nowMs : ℤ) : Option ℤ :=
  if !(0 ≤ h && h < 24) || !(0 ≤ m && m < 60) || !(0 ≤ sec && sec < 60) then none
  else
    let todMs := (h * 3600 + m * 60 + sec) * 1000
    let day := 86400000
    let tz := 8 * 3600000
    let terminalMidnight := (nowMs + tz).tdiv day * day - tz
    let t := terminalMidnight + todMs
    let t := if nowMs + 300000 < t then t - day else t
    if nowMs - t ≤ 6 * 3600000 then some t else none

def clockFields (s : String) : Option (ℤ × ℤ × ℤ) :=
  match (trim s.toList).splitOn ':' with
  | h :: m :: rest =>
    (parseI64 h).bind fun h => (parseI64 m).bind fun m => (parseI64 (rest.head?.getD ['0'])).map fun sec => (h, m, sec)
  | _ => none

def parseArrDtime (s : String) (nowMs : ℤ) : Option ℤ :=
  (clockFields s).bind fun fields => timeOfDay fields.1 fields.2.1 fields.2.2 nowMs

def isArrived (arrival : Option String) : Bool := arrival == some "ARRIVED"

def Frame.c1 (f : Frame) : String := f.container1.getD ""

def Frame.c2 (f : Frame) : String := f.container2.getD ""

def oldC1 (prev : Option Pos) : String := (prev.bind Pos.container1).getD ""

def oldC2 (prev : Option Pos) : String := (prev.bind Pos.container2).getD ""

def prevArrived (prev : Option Pos) : Bool := prev.any fun p => isArrived p.arrival

/-! ## What is carried over -/

section Handler

variable (dist : ℚ × ℚ → ℚ × ℚ → ℚ)

/-- `arr_dtime_ms` of the frame alone. -/
def Frame.arrDtimeMs (f : Frame) : ℤ := (f.arrDtime.bind fun s => parseArrDtime s f.now).getD 0

/-- The path from the last fix, unless it is a jump. -/
def fixStep (p : Pos) (f : Frame) : ℚ :=
  if p.lat ≠ 0 ∧ f.lat ≠ 0 ∧ dist (p.lat, p.lon) (f.lat, f.lon) ≤ MAX_FIX_STEP_M then dist (p.lat, p.lon) (f.lat, f.lon)
  else 0

/-- The state at the start of the handler: what is carried over from the last frame, or a first sight. -/
def sight (prev : Option Pos) (f : Frame) : Pos :=
  match prev with
  | some p =>
    { lat := f.lat
      lon := f.lon
      lastSeenMs := f.now
      container1 := f.container1
      container2 := f.container2
      arrival := f.arrival
      carrySinceMs := p.carrySinceMs
      lastDropMs := p.lastDropMs
      carryTripM := p.carryTripM + fixStep dist p f
      latchedContainer := f.container1 <|> p.latchedContainer
      latchedJobtype := f.jobtype <|> p.latchedJobtype
      latchedVessel := f.vslname <|> p.latchedVessel
      latchedTopos := f.topos1 <|> p.latchedTopos
      emptySinceMs := p.emptySinceMs
      emptyTripM := if f.c1 = "" then p.emptyTripM + fixStep dist p f else p.emptyTripM
      emptyArrivedMs := p.emptyArrivedMs
      cycleOpen := p.cycleOpen
      arrDtimeMs := if f.arrDtimeMs = 0 then p.arrDtimeMs else f.arrDtimeMs
      v2 := p.v2 }
  | none =>
    { lat := f.lat
      lon := f.lon
      lastSeenMs := f.now
      container1 := f.container1
      container2 := f.container2
      arrival := f.arrival
      carrySinceMs := 0
      lastDropMs := 0
      carryTripM := 0
      latchedContainer := f.container1
      latchedJobtype := f.jobtype
      latchedVessel := f.vslname
      latchedTopos := f.topos1
      emptySinceMs := 0
      emptyTripM := 0
      emptyArrivedMs := 0
      cycleOpen := none
      arrDtimeMs := f.arrDtimeMs
      v2 := V2State.default }

/-! ## The phases -/

def toposNow (f : Frame) (pos : Pos) : String := (f.topos1 <|> pos.latchedTopos).getD ""

/-- The first frame that says that the truck has arrived. -/
def arrivedEdge (prev : Option Pos) (f : Frame) : Bool := isArrived f.arrival && !prevArrived prev

/-- `drop_side` of an arrival. -/
def dropSide (jobtype : Option String) (atCrane : Bool) (oc : OpenCycle) : Bool :=
  match jobtype.getD "" with
  | "LD" => atCrane
  | "DS" => !atCrane
  | "MI" | "MO" | "LC" => oc.pickupArrivedAtMs ≠ 0
  | _ => atCrane

/-- The stamps of the open cycle for an arrival, or for the departure from the pickup. -/
def stampCycle (edge : Bool) (dropSide : Bool) (f : Frame) (oc : OpenCycle) : OpenCycle :=
  if edge then
    if dropSide then if oc.arrivedAtMs = 0 then { oc with arrivedAtMs := f.now } else oc
    else if oc.pickupArrivedAtMs = 0 ∧ oc.arrivedAtMs = 0 then { oc with pickupArrivedAtMs := f.now }
    else oc
  else if isArrived f.arrival = false ∧ oc.pickupArrivedAtMs ≠ 0 ∧ oc.pickupLeftAtMs = 0 ∧ IDLE_SPEED_KMH ≤ f.speed then
    { oc with pickupLeftAtMs := f.now }
  else oc

def phaseStamp (prev : Option Pos) (f : Frame) (pos : Pos) (oc : OpenCycle) : OpenCycle :=
  stampCycle (arrivedEdge prev f) (dropSide pos.latchedJobtype (isCraneCode (toposNow f pos)) oc) f oc

def stampPhases (prev : Option Pos) (f : Frame) (pos : Pos) : Pos :=
  { pos with cycleOpen := pos.cycleOpen.map (phaseStamp prev f pos) }

def stampEmpty (prev : Option Pos) (f : Frame) (pos : Pos) : Pos :=
  { pos with
    emptyArrivedMs :=
      if arrivedEdge prev f = true ∧ f.c1 = "" ∧ pos.emptyArrivedMs = 0 then f.now else pos.emptyArrivedMs }

/-- How the truck is seen to be at the crane, if it is. -/
def craneMethod (f : Frame) (topos : String) : Option CraneMethod :=
  let nearCrane := (f.device topos).any fun cr =>
    cr.lat ≠ 0 && (f.now - cr.lastSeenMs) / 1000 ≤ STALE_AFTER_S && dist (f.lat, f.lon) (cr.lat, cr.lon) ≤ CRANE_ARRIVE_M
  let plcActive := ((f.topos1.filter isCraneCode).bind f.plc).any fun x =>
    (f.now - x.2) / 1000 ≤ STALE_AFTER_S && x.1 ≠ 0 && f.now - x.1 ≤ CRANE_PLC_ACTIVE_MS
  if isArrived f.arrival then some .arrived
  else if nearCrane then some .gps
  else if plcActive && f.speed < IDLE_SPEED_KMH then some .plc
  else none

/-- The shadow stamps of the open cycle for an arrival at a crane. -/
def stampCraneCycle (jobtype : Option String) (m : CraneMethod) (now : ℤ) (oc : OpenCycle) : OpenCycle :=
  let dropSide : Bool :=
    match jobtype.getD "" with
    | "LD" => true
    | "DS" => false
    | _ => oc.pickupArrivedCraneMs ≠ 0
  if dropSide then
    if oc.arrivedCraneMs = 0 then { oc with arrivedCraneMs := now, craneArrMethod := some m } else oc
  else if oc.pickupArrivedCraneMs = 0 then { oc with pickupArrivedCraneMs := now, craneArrMethod := some m }
  else oc

def craneStamp (f : Frame) (pos : Pos) (oc : OpenCycle) : OpenCycle :=
  if isCraneCode (toposNow f pos) then
    match craneMethod dist f (toposNow f pos) with
    | some m => stampCraneCycle pos.latchedJobtype m f.now oc
    | none => oc
  else oc

def stampCrane (f : Frame) (pos : Pos) : Pos := { pos with cycleOpen := pos.cycleOpen.map (craneStamp dist f pos) }

/-! ## The container fields -/

/-- `sort_unstable` of two texts. -/
def sortPair (a b : String) : String × String := if a ≤ b then (a, b) else (b, a)

def slotSwap (prev : Option Pos) (f : Frame) : Bool :=
  f.c1 != oldC1 prev && f.c1 != "" && sortPair (oldC1 prev) (oldC2 prev) == sortPair f.c1 f.c2

def openCycle (now : ℤ) (p : Pos) (aj : Option AssignedJob) : OpenCycle where
  assignedAtMs := if 0 < p.emptySinceMs then p.emptySinceMs else now
  pickupArrivedAtMs := if 0 < p.emptySinceMs ∧ p.emptySinceMs < p.emptyArrivedMs then p.emptyArrivedMs else 0
  pickupLeftAtMs := 0
  pickupAtMs := now
  arrivedAtMs := 0
  pickupArrivedCraneMs := 0
  arrivedCraneMs := 0
  craneArrMethod := none
  idleBeforeMs := 0
  emptyLegMs := if 0 < p.emptySinceMs then max (now - p.emptySinceMs) 0 else 0
  emptyLegM := p.emptyTripM
  jobtype := p.latchedJobtype <|> aj.bind AssignedJob.jobtype
  vessel := p.latchedVessel <|> aj.bind AssignedJob.vessel
  voyage := aj.bind AssignedJob.voyage
  container := p.container1 <|> p.latchedContainer <|> aj.bind AssignedJob.contno
  qc := aj.bind AssignedJob.qc <|> p.latchedTopos.filter isCraneCode
  twintandem := aj.bind AssignedJob.twintandem

def finalizeCycle (p : Pos) (now : ℤ) (c2c : Bool) : CompletedCycle :=
  let oc := p.cycleOpen.getD OpenCycle.default
  let pickup := if 0 < oc.pickupAtMs then oc.pickupAtMs else p.carrySinceMs
  { assignedAtMs := if 0 < oc.assignedAtMs then oc.assignedAtMs else pickup
    pickupArrivedAtMs := oc.pickupArrivedAtMs
    pickupLeftAtMs := oc.pickupLeftAtMs
    pickupAtMs := pickup
    arrivedAtMs := oc.arrivedAtMs
    pickupArrivedCraneMs := oc.pickupArrivedCraneMs
    arrivedCraneMs := oc.arrivedCraneMs
    craneArrMethod := oc.craneArrMethod
    droppedAtMs := now
    idleBeforeMs := oc.idleBeforeMs
    emptyLegMs := oc.emptyLegMs
    emptyLegM := oc.emptyLegM
    ladenLegMs := if 0 < pickup then max (now - pickup) 0 else 0
    ladenLegM := p.carryTripM
    jobtype := oc.jobtype <|> p.latchedJobtype
    vessel := oc.vessel <|> p.latchedVessel
    voyage := oc.voyage
    container := oc.container <|> p.latchedContainer
    qc := oc.qc
    twintandem := oc.twintandem
    containerToContainer := c2c }

/-- What a frame adds to the counts and the buffers. -/
structure Out where
  fleetDrop : Bool
  cycleSampleS : Option ℤ
  artifact : Bool
  artifactNear : Bool
  completed : Option CompletedCycle
  completedV2 : Option CompletedV2
  deriving DecidableEq

def Out.quiet : Out := ⟨false, none, false, false, none, none⟩

/-- `held`. -/
def heldMs (now : ℤ) (pos : Pos) : ℤ := if 0 < pos.carrySinceMs then now - pos.carrySinceMs else i64Max

/-- `cycle_sample_s` of a delivery. -/
def cycleSample (now lastDropMs : ℤ) : Option ℤ :=
  if lastDropMs ≠ 0 ∧ MIN_CYCLE_S * 1000 ≤ now - lastDropMs ∧ now - lastDropMs ≤ MAX_CYCLE_S * 1000 then
    some ((now - lastDropMs) / 1000)
  else none

/-- A box that was carried leaves field 1: a delivery, an artifact, or a flicker. -/
def unload (f : Frame) (pos : Pos) : Pos × Out :=
  if MIN_LOADED_MS ≤ heldMs f.now pos then
    if MIN_CARRY_TRIP_M ≤ pos.carryTripM then
      let dropped := { pos with lastDropMs := f.now }
      ({ dropped with cycleOpen := none, latchedContainer := none },
        { Out.quiet with
          fleetDrop := true
          cycleSampleS := cycleSample f.now pos.lastDropMs
          completed := some (finalizeCycle dropped f.now (f.c1 != "")) })
    else (pos, { Out.quiet with artifact := true, artifactNear := NEAR_TRIP_M ≤ pos.carryTripM })
  else (pos, Out.quiet)

/-- The next box in field 1, or none. -/
def load (wasLoaded : Bool) (f : Frame) (pos : Pos) : Pos :=
  if f.c1 = "" then
    { pos with carrySinceMs := 0, carryTripM := 0, emptySinceMs := f.now, emptyTripM := 0, emptyArrivedMs := 0 }
  else
    let pos := { pos with carrySinceMs := f.now, carryTripM := 0 }
    let pos := if wasLoaded then { pos with emptySinceMs := f.now, emptyTripM := 0 } else pos
    let pos := { pos with latchedContainer := pos.container1 }
    { pos with cycleOpen := some (openCycle f.now pos f.job), emptyArrivedMs := 0 }

def containerEdge (prev : Option Pos) (f : Frame) (pos : Pos) : Pos × Out :=
  if f.c1 ≠ oldC1 prev ∧ slotSwap prev f = false then
    let wasLoaded := oldC1 prev != ""
    let r := if wasLoaded then unload f pos else (pos, Out.quiet)
    (load wasLoaded f r.1, r.2)
  else (pos, Out.quiet)

def arrive (prev : Option Pos) (f : Frame) : Pos :=
  stampCrane dist f (stampEmpty prev f (stampPhases prev f (sight dist prev f)))

def ingestV1 (prev : Option Pos) (f : Frame) : Pos × Out := containerEdge prev f (arrive dist prev f)

/-! ## What the steps do -/

variable {dist}

/-- Field 1 stays or the fields are exchanged; or it is loaded from empty; or a box leaves it. -/
theorem containerEdge_cases (prev : Option Pos) (f : Frame) (pos : Pos) :
    ((f.c1 = oldC1 prev ∨ slotSwap prev f = true) ∧ containerEdge prev f pos = (pos, Out.quiet)) ∨
      (oldC1 prev = "" ∧ f.c1 ≠ "" ∧ slotSwap prev f = false ∧
        containerEdge prev f pos = (load false f pos, Out.quiet)) ∨
      (oldC1 prev ≠ "" ∧ f.c1 ≠ oldC1 prev ∧ slotSwap prev f = false ∧
        containerEdge prev f pos = (load true f (unload f pos).1, (unload f pos).2)) := by
  unfold containerEdge
  by_cases hsame : f.c1 = oldC1 prev
  · exact Or.inl ⟨Or.inl hsame, if_neg fun h => h.1 hsame⟩
  · by_cases hswap : slotSwap prev f = true
    · exact Or.inl ⟨Or.inr hswap, if_neg fun h => by simp [hswap] at h⟩
    · rw [Bool.not_eq_true] at hswap
      rw [if_pos ⟨hsame, hswap⟩]
      by_cases hold : oldC1 prev = ""
      · exact Or.inr (Or.inl ⟨hold, fun h => hsame (h.trans hold.symm), hswap, by simp [hold]⟩)
      · have hwas : (oldC1 prev != "") = true := by simpa using hold
        exact Or.inr (Or.inr ⟨hold, hsame, hswap, by simp only [hwas, if_true]⟩)

/-- A box that leaves field 1 was delivered, was rewritten while the truck stood, or was there for a moment only. -/
theorem unload_cases (f : Frame) (pos : Pos) :
    (MIN_LOADED_MS ≤ heldMs f.now pos ∧ MIN_CARRY_TRIP_M ≤ pos.carryTripM ∧ unload f pos =
        ({ pos with lastDropMs := f.now, cycleOpen := none, latchedContainer := none },
          { Out.quiet with
            fleetDrop := true
            cycleSampleS := cycleSample f.now pos.lastDropMs
            completed := some (finalizeCycle { pos with lastDropMs := f.now } f.now (f.c1 != "")) })) ∨
      (MIN_LOADED_MS ≤ heldMs f.now pos ∧ pos.carryTripM < MIN_CARRY_TRIP_M ∧
        unload f pos = (pos, { Out.quiet with artifact := true, artifactNear := NEAR_TRIP_M ≤ pos.carryTripM })) ∨
      (heldMs f.now pos < MIN_LOADED_MS ∧ unload f pos = (pos, Out.quiet)) := by
  unfold unload
  by_cases hheld : MIN_LOADED_MS ≤ heldMs f.now pos
  · rw [if_pos hheld]
    by_cases htrip : MIN_CARRY_TRIP_M ≤ pos.carryTripM
    · rw [if_pos htrip]
      exact Or.inl ⟨hheld, htrip, rfl⟩
    · rw [if_neg htrip]
      exact Or.inr (Or.inl ⟨hheld, not_le.mp htrip, rfl⟩)
  · rw [if_neg hheld]
    exact Or.inr (Or.inr ⟨not_le.mp hheld, rfl⟩)

@[simp] theorem unload_container1 (f : Frame) (pos : Pos) : (unload f pos).1.container1 = pos.container1 := by
  rcases unload_cases f pos with ⟨-, -, h⟩ | ⟨-, -, h⟩ | ⟨-, h⟩ <;> rw [h]

theorem unload_v2 (f : Frame) (pos : Pos) :
    (unload f pos).1.v2 = pos.v2 ∧ (unload f pos).1.arrDtimeMs = pos.arrDtimeMs := by
  rcases unload_cases f pos with ⟨-, -, h⟩ | ⟨-, -, h⟩ | ⟨-, h⟩ <;> rw [h] <;> exact ⟨rfl, rfl⟩

theorem load_v2 (wasLoaded : Bool) (f : Frame) (pos : Pos) :
    (load wasLoaded f pos).v2 = pos.v2 ∧ (load wasLoaded f pos).arrDtimeMs = pos.arrDtimeMs := by
  unfold load
  split_ifs <;> exact ⟨rfl, rfl⟩

theorem load_carrySinceMs (wasLoaded : Bool) (f : Frame) (pos : Pos) :
    (load wasLoaded f pos).carrySinceMs = if f.c1 = "" then 0 else f.now := by
  unfold load
  split_ifs <;> rfl

theorem load_container1 (wasLoaded : Bool) (f : Frame) (pos : Pos) :
    (load wasLoaded f pos).container1 = pos.container1 := by
  unfold load
  split_ifs <;> rfl

variable (dist) in
/-- Up to the container fields the tracker's data stay as they came in. -/
theorem arrive_v2 (prev : Option Pos) (f : Frame) :
    (arrive dist prev f).v2 = (sight dist prev f).v2 ∧
      (arrive dist prev f).arrDtimeMs = (sight dist prev f).arrDtimeMs := by
  unfold arrive
  generalize sight dist prev f = pos
  exact ⟨rfl, rfl⟩

variable (dist) in
theorem ingestV1_v2 (prev : Option Pos) (f : Frame) :
    (ingestV1 dist prev f).1.v2 = (sight dist prev f).v2 ∧
      (ingestV1 dist prev f).1.arrDtimeMs = (sight dist prev f).arrDtimeMs := by
  obtain ⟨hv2, harr⟩ := arrive_v2 dist prev f
  rw [← hv2, ← harr, ingestV1]
  generalize arrive dist prev f = pos
  rcases containerEdge_cases prev f pos with ⟨-, h⟩ | ⟨-, -, -, h⟩ | ⟨-, -, -, h⟩
  · rw [h]
    exact ⟨rfl, rfl⟩
  · rw [h]
    exact load_v2 _ _ _
  · rw [h]
    obtain ⟨h1, h2⟩ := load_v2 true f (unload f pos).1
    obtain ⟨h3, h4⟩ := unload_v2 f pos
    exact ⟨h1.trans h3, h2.trans h4⟩

end Handler

end TtAiops.Cycle
