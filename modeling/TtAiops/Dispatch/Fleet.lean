import TtAiops.Dispatch.Classify
import TtAiops.Dispatch.Tick

/-!
# The candidate pool of a tick (`spawn_stage2_shadow`)

A truck with a TOS signal is free, dispatched and before its pickup, or at work; one without is taken from the GPS if it is
fresh and empty. Free trucks and those that will be free within the horizon make the pool, dispatched ones the swap candidates.

* `TosRow`, `RedirRow`, `PoolIn` : what a tick reads for the pool;
* `soonBase`, `signalOffer`, `gpsOffer`, `histOffer` : the seconds until a truck is free, and what one turn of each of the three
  loops adds;
* `buildPool` : the pool;
* `pool_sound` : **every truck of the pool once, beside its row, with a base within the horizon, and none a swap candidate**;
* `pool_members` : **which trucks are in the pool, and that the swap candidates are those of `Tick`**.
-/

namespace TtAiops.Dispatch
open TtAiops.Lib
open TtAiops.Cycle (IDLE_SPEED_KMH STALE_AFTER_S isCraneCode)

/-- `TosSig`, as a whole. -/
structure TosRow where
  sig : TosSig
  jobtype : Option String
  freeJt : Option String
  topos : Option String

/-- A row of `redir`: the work of a truck that is dispatched. -/
structure RedirRow where
  jobtype : String
  qc : String
  queuename : String
  contno : Option String
  topos : Option String

def clamp (lo hi x : ℤ) : ℤ := max lo (min hi x)

/-- What a tick reads for the pool. `stationaryRows` and `biasRows` are the learned tables before they are cut to their bounds,
`inflightRows` the anchors, `posHist` the last positions of the trucks that are not in the list of devices; a query that fails
gives nothing. -/
structure PoolIn where
  now : ℤ
  dist : ℚ × ℚ → ℚ × ℚ → ℚ
  devices : AList fun _ : String => Pos
  plc : String → Option ℤ
  cranes : String → Option (ℚ × ℚ)
  centroids : String → Option (ℚ × ℚ)
  soonIdleGateM : ℚ
  tosSig : AList fun _ : String => TosRow
  redir : AList fun _ : String => RedirRow
  lastSwap : Option (String → Option ℤ)
  held : Held
  inflightRows : String → Option ℤ
  stationaryRows : String → Option (ℤ × ℤ)
  biasRows : TtState → String → ℤ → Option ℤ
  posHist : Option (String → Option ((ℚ × ℚ) × ℤ))
  poolHS : ℤ

/-- The states a truck of the pool is listed with. -/
inductive VehicleState
  | freeTos
  | freeGps
  | soonIdleAnchored
  | soonIdle
  | waitRtg
  | idle
  | soonIdleHeld
  | delivering
  deriving DecidableEq

inductive Reason
  | freeTos
  | gpsFree
  | inflightAnchor
  | inflightGps
  | inflightHeld
  deriving DecidableEq

inductive PosSrc
  | gpsLive
  | gpsStale
  | posHist
  deriving DecidableEq

/-- An entry of `vehicles`. -/
structure Vehicle where
  ytno : String
  pos : ℚ × ℚ
  base : ℤ
  state : VehicleState
  deriving DecidableEq

structure PoolRow where
  ytno : String
  reason : Reason
  freeInS : ℤ
  posSrc : PosSrc
  gpsAgeS : Option ℤ
  jobtype : Option String

structure HeldCandidateOut where
  id : String
  jobtype : String
  freeInS : ℤ
  anchored : Bool

/-- An entry of `need_pos`. -/
structure NeedPos where
  ytno : String
  base : ℤ
  state : VehicleState
  reason : Reason
  jobtype : Option String

/-- `SwapCand`, as a whole. -/
structure SwapCandAt extends SwapCand where
  jobtype : String
  qc : String
  queuename : String
  pos : ℚ × ℚ
  dest : ℚ × ℚ
  distM : ℚ

/-- What the loops have collected. -/
structure Built where
  vehicles : List Vehicle
  held : List HeldCandidateOut
  rows : List PoolRow
  needPos : List NeedPos
  swapCands : List SwapCandAt
  dropPos : List (String × (ℚ × ℚ))

def Built.nothing : Built := ⟨[], [], [], [], [], []⟩

/-- What a turn of a loop adds, behind what there is. -/
def Built.add (b c : Built) : Built where
  vehicles := b.vehicles ++ c.vehicles
  held := b.held ++ c.held
  rows := b.rows ++ c.rows
  needPos := b.needPos ++ c.needPos
  swapCands := b.swapCands ++ c.swapCands
  dropPos := b.dropPos ++ c.dropPos

def HELD_NEAR_DROP_M : ℚ := 120

def POS_MAX_AGE_S : ℤ := 10800

namespace PoolIn

variable (inp : PoolIn)

/-- What the classifier looks up. -/
def scene : Scene where
  dist := inp.dist
  rtgs := inp.devices.entries.filterMap fun e =>
    if e.2.cls = "RTG" ∧ ageS inp.now e.2.lastSeenMs ≤ STALE_AFTER_S then some (e.2.lat, e.2.lon) else none
  plc := inp.plc
  cranes := inp.cranes
  centroids := inp.centroids
  soonIdleGateM := inp.soonIdleGateM
  now := inp.now

def stFree (jt : String) : Option (ℤ × ℤ) := (inp.stationaryRows jt).map fun r => (clamp 30 3600 r.1, clamp 30 3600 r.2)

def fiBias (s : TtState) (jt : String) (bin : ℤ) : Option ℤ := (inp.biasRows s jt bin).map (clamp 30 3600)

def inflight (yt : String) : Option ℤ := (inp.inflightRows yt).map (clamp 0 3600)

end PoolIn

def shipJob (jt : Option String) : Option String := jt.filter fun j => j == "LD" || j == "DS"

def devAge (inp : PoolIn) (dev : Option Pos) : Option ℤ := dev.map fun p => ageS inp.now p.lastSeenMs

def gpsFresh (inp : PoolIn) (dev : Option Pos) : Bool := decide ((devAge inp dev).getD i64Max ≤ STALE_AFTER_S)

/-- The truck is dispatched and before its pickup: it has a work it goes to, and is not loaded. -/
def beforePickup (inp : PoolIn) (yt : String) (row : TosRow) : Option RedirRow :=
  (inp.redir.lookup yt).filter fun _ => !loaded row.sig

/-- `frozen`. -/
def swapFrozen (inp : PoolIn) (yt : String) (row : TosRow) : Bool :=
  (inp.lastSwap.map fun last => swapIsFrozen (last yt) row.sig.free).getD true || (inp.held.lookup yt).isSome

/-- `dest`: the pickup of the work of the truck. -/
def redirDest (inp : PoolIn) (r : RedirRow) : Option (ℚ × ℚ) :=
  if r.jobtype = "LD" then
    r.topos.bind fun t => (inp.centroids t).or (inp.centroids (Cycle.blockPrefix t))
  else (inp.cranes r.qc).or (inp.centroids r.qc)

/-- The swap candidate that a dispatched truck makes. -/
def swapCandOf (inp : PoolIn) (yt : String) (row : TosRow) (r : RedirRow) : Option SwapCandAt :=
  ((inp.devices.lookup yt).filter fun p => ageS inp.now p.lastSeenMs ≤ STALE_AFTER_S).bind fun p =>
    (redirDest inp r).bind fun d =>
      if swapFrozen inp yt row then none
      else some ⟨⟨yt, r.contno⟩, r.jobtype, r.qc, r.queuename, (p.lat, p.lon), d, inp.dist (p.lat, p.lon) d⟩

/-- The seconds until a truck at its handover is free, by what was learned. -/
def handoverBase (inp : PoolIn) (row : TosRow) (p : Pos) (c : Classed) : ℤ :=
  let jt := ((p.jobtype.or p.latchedJobtype).or (shipJob row.jobtype)).getD ""
  match (inp.stFree jt).filter fun _ => decide (p.speed < IDLE_SPEED_KMH) with
  | some s => s.1
  | none =>
    clamp 30 3600 (((inp.fiBias c.state jt (distBinOf c.nearestRtgM)).or (inp.fiBias c.state jt (-99))).getD
      ((freeIn c.state (if jt = "" then none else some jt)).1.getD 0))

def seenBase (inp : PoolIn) (row : TosRow) (p : Pos) : ℤ × VehicleState × Reason :=
  let c := classifyTt inp.scene p
  match c.state with
  | .soonIdle => (handoverBase inp row p c, .soonIdle, .inflightGps)
  | .waitRtg => (handoverBase inp row p c, .waitRtg, .inflightGps)
  | .idle => (0, .idle, .inflightGps)
  | _ => (i64Max, .delivering, .inflightGps)

/-- The place where the truck goes, by the device and the TOS. -/
def headingFor (dev : Option Pos) (row : TosRow) : Option String :=
  (dev.bind fun p => (p.topos1.filter (· != "")).or p.latchedTopos).or row.topos

def sideOk (jt code : String) : Bool :=
  if jt = "LD" then isCraneCode code else if jt = "DS" then !isCraneCode code else false

/-- A truck whose fix is old: only one that stood with a box near the place where it is unloaded. -/
def lostBase (inp : PoolIn) (row : TosRow) (p : Pos) : ℤ × VehicleState × Reason :=
  let jt := (shipJob ((p.jobtype.or p.latchedJobtype).or (shipJob row.jobtype))).getD ""
  let near := (headingFor (some p) row).any fun code =>
    sideOk jt code && (placeOf inp.scene code).any fun d => inp.dist (p.lat, p.lon) d ≤ HELD_NEAR_DROP_M
  if jt ≠ "" ∧ (filled p.container1 || filled p.latchedContainer) = true ∧ near = true then
    (clamp 30 3600 (((inp.stFree jt).map Prod.fst).getD 300), .soonIdleHeld, .inflightHeld)
  else (i64Max, .delivering, .inflightHeld)

/-- `anchored`: the anchor of the trip, unless the GPS sees a load at its handover. -/
def anchoredOf (inp : PoolIn) (yt : String) (row : TosRow) (dev : Option Pos) : Option ℤ :=
  let gpsSeesSoon := gpsFresh inp dev && shipJob row.jobtype == some "LD" && dev.any fun p =>
    match (classifyTt inp.scene p).state with
    | .soonIdle | .waitRtg | .idle => true
    | _ => false
  if gpsSeesSoon then none else inp.inflight yt

def soonBase (inp : PoolIn) (yt : String) (row : TosRow) (dev : Option Pos) : ℤ × VehicleState × Reason :=
  match anchoredOf inp yt row dev, dev with
  | some rem, _ => (clamp 0 3600 rem, .soonIdleAnchored, .inflightAnchor)
  | none, some p => if gpsFresh inp dev then seenBase inp row p else lostBase inp row p
  | none, none => (i64Max, .delivering, .inflightHeld)

/-- A truck that is put into the pool, or among those whose position is looked up later. -/
def place (inp : PoolIn) (yt : String) (dev : Option Pos) (base : ℤ) (state : VehicleState) (reason : Reason)
    (jt : Option String) (anchored : Bool) : Built :=
  match dev with
  | some p =>
    let age := ageS inp.now p.lastSeenMs
    let src := if age ≤ STALE_AFTER_S then PosSrc.gpsLive else .gpsStale
    { Built.nothing with
      vehicles := [⟨yt, (p.lat, p.lon), base, state⟩]
      rows := [⟨yt, reason, base, src, some age, jt⟩]
      held := if STALE_AFTER_S < age then [⟨yt, jt.getD "", base, anchored⟩] else [] }
  | none => { Built.nothing with needPos := [⟨yt, base, state, reason, jt⟩] }

/-- `drop_pos`: where a truck at work will be free. -/
def dropAt (inp : PoolIn) (row : TosRow) (dev : Option Pos) : Option (ℚ × ℚ) :=
  (headingFor dev row).bind fun code =>
    if sideOk ((shipJob row.jobtype).getD "") code then placeOf inp.scene code else none

/-- What becomes of a truck with a signal: it stays out, it is put into the pool, or it may be swapped. -/
inductive Fate
  | out
  | pool (base : ℤ) (state : VehicleState) (reason : Reason) (jobtype : Option String) (anchored : Bool)
      (drop : Option (ℚ × ℚ))
  | swap (r : RedirRow)

/-- The branches of the loop over the TOS signals. -/
def fateOf (inp : PoolIn) (yt : String) (row : TosRow) : Fate :=
  if !isTruckId yt then .out
  else if isFreeTos row.sig then .pool 0 .freeTos .freeTos (shipJob row.freeJt) false none
  else
    match beforePickup inp yt row with
    | some r => .swap r
    | none =>
      let dev := inp.devices.lookup yt
      let b := soonBase inp yt row dev
      if inp.poolHS < b.1 then .out
      else .pool b.1 b.2.1 b.2.2 (shipJob row.jobtype) (anchoredOf inp yt row dev).isSome (dropAt inp row dev)

/-- What a turn of the loop over the TOS signals adds. -/
def signalOffer (inp : PoolIn) (yt : String) (row : TosRow) : Built :=
  match fateOf inp yt row with
  | .out => Built.nothing
  | .pool base state reason jt anchored drop =>
    { place inp yt (inp.devices.lookup yt) base state reason jt anchored with
      dropPos := (drop.map fun d => (yt, d)).toList }
  | .swap r => { Built.nothing with swapCands := (swapCandOf inp yt row r).toList }

/-- What a turn of the loop over the devices adds. -/
def gpsOffer (inp : PoolIn) (yt : String) (p : Pos) : Built :=
  let age := ageS inp.now p.lastSeenMs
  if p.cls ≠ "TT" ∨ (inp.tosSig.lookup yt).isSome = true ∨ STALE_AFTER_S < age then Built.nothing
  else if (classifyTt inp.scene p).state.Empty then
    { Built.nothing with
      vehicles := [⟨yt, (p.lat, p.lon), 0, .freeGps⟩]
      rows := [⟨yt, .gpsFree, 0, .gpsLive, some age, shipJob (p.jobtype.or p.latchedJobtype)⟩] }
  else Built.nothing

/-- What a turn of the loop over the trucks without a position adds. -/
def histOffer (inp : PoolIn) (x : NeedPos) : Built :=
  match inp.posHist.bind fun found => found x.ytno with
  | none => Built.nothing
  | some fix =>
    let age := ageS inp.now fix.2
    if POS_MAX_AGE_S < age then Built.nothing
    else
      { Built.nothing with
        vehicles := [⟨x.ytno, fix.1, x.base, x.state⟩]
        rows := [⟨x.ytno, x.reason, x.base, .posHist, some age, x.jobtype⟩]
        held := [⟨x.ytno, x.jobtype.getD "", x.base, x.reason == .inflightAnchor⟩] }

def mapValues {β γ : Type} (f : β → γ) (s : AList fun _ : String => β) : AList fun _ : String => γ :=
  ⟨s.entries.map fun e => ⟨e.1, f e.2⟩, by
    have h := s.nodupKeys
    unfold List.NodupKeys List.keys at h ⊢
    rwa [List.map_map]⟩

/-- The swap candidate of a truck has a position and a place to go. -/
def swapLocated (inp : PoolIn) (yt : String) : Bool :=
  ((inp.devices.lookup yt).any fun p => ageS inp.now p.lastSeenMs ≤ STALE_AFTER_S) &&
    (inp.redir.lookup yt).any fun r => (redirDest inp r).isSome

/-- A tick of `Tick` that reads what the pool is made of. -/
def PoolIn.onto (inp : PoolIn) (t : TickIn) : TickIn :=
  { t with
    nowMs := inp.now
    sigs := some (mapValues TosRow.sig inp.tosSig)
    redir := mapValues RedirRow.contno inp.redir
    located := swapLocated inp
    lastSwap := inp.lastSwap }

/-- The loops over the signals and the devices. -/
def vehiclesBuilt (inp : PoolIn) : Built :=
  inp.devices.entries.foldl (fun b e => b.add (gpsOffer inp e.1 e.2))
    (inp.tosSig.entries.foldl (fun b e => b.add (signalOffer inp e.1 e.2)) Built.nothing)

/-- The candidate pool with what is recorded beside it. -/
def buildPool (inp : PoolIn) : Built :=
  (vehiclesBuilt inp).needPos.foldl (fun b x => b.add (histOffer inp x)) { vehiclesBuilt inp with needPos := [] }

/-! ## The turns of the loops -/

section Fold
variable {ι γ : Type*}

theorem fold_add (part : Built → List γ) (hpart : ∀ b c, part (b.add c) = part b ++ part c) (f : ι → Built) (l : List ι) (b : Built) :
    part (l.foldl (fun b x => b.add (f x)) b) = part b ++ l.flatMap fun x => part (f x) := by
  induction l generalizing b with
  | nil => simp
  | cons x l ih => rw [List.foldl_cons, ih, hpart, List.flatMap_cons, List.append_assoc]

end Fold

variable {inp : PoolIn} {yt : String} {row : TosRow}

/-- The truck is offered, `base` seconds before it is free. -/
def Ready (inp : PoolIn) (yt : String) (row : TosRow) (base : ℤ) (state : VehicleState) : Prop :=
  ∃ reason jt anchored drop, fateOf inp yt row = .pool base state reason jt anchored drop

/-- The truck is free, or it is at work and will be free within the horizon. -/
theorem ready_iff {base : ℤ} {state : VehicleState} : Ready inp yt row base state ↔ isTruckId yt = true ∧
    (isFreeTos row.sig = true ∧ base = 0 ∧ state = .freeTos ∨
      isFreeTos row.sig = false ∧ beforePickup inp yt row = none ∧
        base = (soonBase inp yt row (inp.devices.lookup yt)).1 ∧ state = (soonBase inp yt row (inp.devices.lookup yt)).2.1 ∧
        base ≤ inp.poolHS) := by
  unfold Ready fateOf
  cases htruck : isTruckId yt
  · simp
  cases hfree : isFreeTos row.sig
  · cases hwork : beforePickup inp yt row with
    | some r => simp
    | none =>
      by_cases hlate : inp.poolHS < (soonBase inp yt row (inp.devices.lookup yt)).1
      · simp only [hlate]
        simp
        omega
      · simp [hlate]
        exact ⟨fun h => ⟨h.1.symm, h.2.symm, h.1 ▸ not_lt.mp hlate⟩, fun h => ⟨h.1.symm, h.2.1.symm⟩⟩
  · simp
    exact ⟨fun h => ⟨h.1.symm, h.2.symm⟩, fun h => ⟨h.1.symm, h.2.symm⟩⟩

theorem fateOf_swap {r : RedirRow} (h : fateOf inp yt row = .swap r) :
    isTruckId yt = true ∧ isFreeTos row.sig = false ∧ beforePickup inp yt row = some r := by
  unfold fateOf at h
  cases htruck : isTruckId yt
  · simp [htruck] at h
  cases hfree : isFreeTos row.sig
  · cases hwork : beforePickup inp yt row with
    | some r' => simpa [htruck, hfree, hwork] using h
    | none => by_cases hlate : inp.poolHS < (soonBase inp yt row (inp.devices.lookup yt)).1 <;>
        simp [htruck, hfree, hwork, hlate] at h
  · simp [htruck, hfree] at h

/-! ## What the loops add -/

theorem mem_place {dev : Option Pos} {base : ℤ} {state : VehicleState} {reason : Reason} {jt : Option String}
    {anchored : Bool} :
    (∀ v, v ∈ (place inp yt dev base state reason jt anchored).vehicles ↔
      ∃ p, dev = some p ∧ v = ⟨yt, (p.lat, p.lon), base, state⟩) ∧
    (∀ x, x ∈ (place inp yt dev base state reason jt anchored).needPos ↔ dev = none ∧ x = ⟨yt, base, state, reason, jt⟩) := by
  unfold place
  cases dev <;> simp [Built.nothing]

theorem mem_signalOffer_vehicles {v : Vehicle} : v ∈ (signalOffer inp yt row).vehicles ↔
    v.ytno = yt ∧ Ready inp yt row v.base v.state ∧ ∃ p, inp.devices.lookup yt = some p ∧ v.pos = (p.lat, p.lon) := by
  unfold signalOffer Ready
  cases hfate : fateOf inp yt row with
  | out => simp [Built.nothing]
  | swap r => simp [Built.nothing]
  | pool base state reason jt anchored drop =>
    dsimp only
    rw [mem_place.1]
    refine ⟨?_, ?_⟩
    · rintro ⟨p, hp, rfl⟩
      exact ⟨rfl, ⟨reason, jt, anchored, drop, rfl⟩, p, hp, rfl⟩
    · rintro ⟨rfl, ⟨_, _, _, _, he⟩, p, hp, hpos⟩
      cases he
      exact ⟨p, hp, by rw [← hpos]⟩

theorem mem_signalOffer_needPos {x : NeedPos} : x ∈ (signalOffer inp yt row).needPos ↔
    x.ytno = yt ∧ inp.devices.lookup yt = none ∧
      ∃ anchored drop, fateOf inp yt row = .pool x.base x.state x.reason x.jobtype anchored drop := by
  unfold signalOffer
  cases hfate : fateOf inp yt row with
  | out => simp [Built.nothing]
  | swap r => simp [Built.nothing]
  | pool base state reason jt anchored drop =>
    dsimp only
    rw [mem_place.2]
    refine ⟨?_, ?_⟩
    · rintro ⟨hdev, rfl⟩
      exact ⟨rfl, hdev, anchored, drop, rfl⟩
    · rintro ⟨rfl, hdev, _, _, he⟩
      cases he
      exact ⟨hdev, rfl⟩

theorem mem_gpsOffer_vehicles {p : Pos} {v : Vehicle} : v ∈ (gpsOffer inp yt p).vehicles ↔
    p.cls = "TT" ∧ inp.tosSig.lookup yt = none ∧ ageS inp.now p.lastSeenMs ≤ STALE_AFTER_S ∧ filled p.container1 = false ∧
      v = ⟨yt, (p.lat, p.lon), 0, .freeGps⟩ := by
  unfold gpsOffer
  dsimp only
  split_ifs with hskip hempty
  · refine iff_of_false List.not_mem_nil ?_
    rintro ⟨hcls, hsig, hage, -⟩
    rcases hskip with h | h | h
    · exact h hcls
    · rw [hsig] at h
      exact absurd h Bool.false_ne_true
    · exact absurd h (not_lt.mpr hage)
  · rw [not_or, not_or, not_not, not_lt, Bool.not_eq_true, Option.isSome_eq_false_iff, Option.isNone_iff_eq_none] at hskip
    rw [List.mem_singleton]
    exact ⟨fun h => ⟨hskip.1, hskip.2.1, hskip.2.2, classifyTt_empty_iff.mp hempty, h⟩, fun h => h.2.2.2.2⟩
  · exact iff_of_false List.not_mem_nil fun h => hempty (classifyTt_empty_iff.mpr h.2.2.2.1)

/-- The last position of a truck in the history, unless it is too old. -/
def histPos (inp : PoolIn) (yt : String) : Option (ℚ × ℚ) :=
  (inp.posHist.bind fun found => found yt).bind fun fix => if POS_MAX_AGE_S < ageS inp.now fix.2 then none else some fix.1

def located (inp : PoolIn) (yt : String) : Option (ℚ × ℚ) :=
  match inp.devices.lookup yt with
  | some p => some (p.lat, p.lon)
  | none => histPos inp yt

theorem mem_histOffer_vehicles {x : NeedPos} {v : Vehicle} : v ∈ (histOffer inp x).vehicles ↔
    ∃ pos, histPos inp x.ytno = some pos ∧ v = ⟨x.ytno, pos, x.base, x.state⟩ := by
  unfold histOffer histPos
  cases inp.posHist.bind fun found => found x.ytno with
  | none => simp [Built.nothing]
  | some fix =>
    dsimp only [Option.bind_some]
    split_ifs <;> simp [Built.nothing]

/-! ## The pool -/

/-- What the loops over the signals and the devices have collected, part by part. -/
theorem part_vehiclesBuilt {γ : Type*} (part : Built → List γ) (hpart : ∀ b c, part (b.add c) = part b ++ part c)
    (hnothing : part Built.nothing = []) : part (vehiclesBuilt inp) =
      (inp.tosSig.entries.flatMap fun e => part (signalOffer inp e.1 e.2)) ++
        inp.devices.entries.flatMap fun e => part (gpsOffer inp e.1 e.2) := by
  unfold vehiclesBuilt
  rw [fold_add part hpart, fold_add part hpart, hnothing, List.nil_append]

theorem needPos_vehiclesBuilt : (vehiclesBuilt inp).needPos =
    inp.tosSig.entries.flatMap fun e => (signalOffer inp e.1 e.2).needPos := by
  have hgps : (inp.devices.entries.flatMap fun e => (gpsOffer inp e.1 e.2).needPos) = [] := by
    refine List.flatMap_eq_nil_iff.mpr fun e _ => ?_
    unfold gpsOffer
    dsimp only
    split_ifs <;> rfl
  rw [part_vehiclesBuilt Built.needPos (fun _ _ => rfl) rfl, hgps, List.append_nil]

/-- The vehicles: those of the loop over the signals, those the GPS adds, and those that were looked up. -/
theorem vehicles_buildPool : (buildPool inp).vehicles =
    (inp.tosSig.entries.flatMap fun e => (signalOffer inp e.1 e.2).vehicles) ++
      (inp.devices.entries.flatMap fun e => (gpsOffer inp e.1 e.2).vehicles) ++
      (vehiclesBuilt inp).needPos.flatMap fun x => (histOffer inp x).vehicles := by
  unfold buildPool
  rw [fold_add Built.vehicles fun _ _ => rfl]
  dsimp only
  rw [part_vehiclesBuilt Built.vehicles (fun _ _ => rfl) rfl]

/-- A truck without a signal that the GPS sees empty. -/
def GpsFree (inp : PoolIn) (v : Vehicle) : Prop :=
  inp.tosSig.lookup v.ytno = none ∧ ∃ p, inp.devices.lookup v.ytno = some p ∧ p.cls = "TT" ∧
    ageS inp.now p.lastSeenMs ≤ STALE_AFTER_S ∧ filled p.container1 = false ∧ v = ⟨v.ytno, (p.lat, p.lon), 0, .freeGps⟩

/-- Which trucks are in the pool: those with a signal that are free or will be within the horizon, if their position is
known, and those without one that the GPS sees fresh and without a box. -/
theorem mem_vehicles_iff (inp : PoolIn) (v : Vehicle) : v ∈ (buildPool inp).vehicles ↔
    (∃ row, inp.tosSig.lookup v.ytno = some row ∧ Ready inp v.ytno row v.base v.state ∧ located inp v.ytno = some v.pos) ∨
      GpsFree inp v := by
  rw [vehicles_buildPool, List.mem_append, List.mem_append, List.mem_flatMap, List.mem_flatMap, List.mem_flatMap,
    needPos_vehiclesBuilt]
  unfold located
  constructor
  · rintro ((⟨e, he, hv⟩ | ⟨e, he, hv⟩) | ⟨x, hx, hv⟩)
    · obtain ⟨hyt, hready, p, hdev, hpos⟩ := mem_signalOffer_vehicles.mp hv
      rw [hyt, hdev]
      exact Or.inl ⟨e.2, AList.mem_lookup_iff.mpr he, hready, by rw [hpos]⟩
    · obtain ⟨hcls, hsig, hage, hempty, rfl⟩ := mem_gpsOffer_vehicles.mp hv
      exact Or.inr ⟨hsig, e.2, AList.mem_lookup_iff.mpr he, hcls, hage, hempty, rfl⟩
    · obtain ⟨e, he, hx⟩ := List.mem_flatMap.mp hx
      obtain ⟨hyt, hdev, anchored, drop, hfate⟩ := mem_signalOffer_needPos.mp hx
      obtain ⟨pos, hhist, rfl⟩ := mem_histOffer_vehicles.mp hv
      dsimp only
      rw [hyt, hdev]
      exact Or.inl ⟨e.2, AList.mem_lookup_iff.mpr he, ⟨_, _, _, _, hfate⟩, hyt ▸ hhist⟩
  · rintro (⟨row, hrow, hready, hpos⟩ | ⟨hsig, p, hdev, hcls, hage, hempty, hv⟩)
    · have hmem := AList.mem_lookup_iff.mp hrow
      cases hdev : inp.devices.lookup v.ytno with
      | some p =>
        rw [hdev] at hpos
        exact Or.inl (Or.inl ⟨_, hmem, mem_signalOffer_vehicles.mpr ⟨rfl, hready, p, hdev, (Option.some_inj.mp hpos).symm⟩⟩)
      | none =>
        rw [hdev] at hpos
        obtain ⟨reason, jt, anchored, drop, hfate⟩ := hready
        refine Or.inr ⟨⟨v.ytno, v.base, v.state, reason, jt⟩, ?_, ?_⟩
        · exact List.mem_flatMap.mpr ⟨_, hmem, mem_signalOffer_needPos.mpr ⟨rfl, hdev, anchored, drop, hfate⟩⟩
        · exact mem_histOffer_vehicles.mpr ⟨v.pos, hpos, rfl⟩
    · exact Or.inl (Or.inr ⟨_, AList.mem_lookup_iff.mp hdev, mem_gpsOffer_vehicles.mpr ⟨hcls, hsig, hage, hempty, hv⟩⟩)

/-! ## Every truck once -/

theorem flatMap_sublist {ι γ : Type*} {f g : ι → List γ} {l : List ι} (h : ∀ x ∈ l, (f x).Sublist (g x)) :
    (l.flatMap f).Sublist (l.flatMap g) := by
  induction l with
  | nil => exact List.Sublist.refl _
  | cons x l ih =>
    rw [List.flatMap_cons, List.flatMap_cons]
    exact (h x List.mem_cons_self).append (ih fun y hy => h y (List.mem_cons_of_mem x hy))

/-- The rows and the kept trucks stand beside the vehicles. -/
structure Beside (b : Built) : Prop where
  rows : b.rows.map (fun r => (r.ytno, r.freeInS)) = b.vehicles.map fun v => (v.ytno, v.base)
  held : (b.held.map fun h => (h.id, h.freeInS)).Sublist (b.vehicles.map fun v => (v.ytno, v.base))
  young : ∀ r ∈ b.rows, ∃ age, r.gpsAgeS = some age ∧ (r.posSrc = .gpsLive → age ≤ STALE_AFTER_S) ∧
    (r.posSrc = .posHist → age ≤ POS_MAX_AGE_S)

theorem beside_nothing : Beside Built.nothing := ⟨rfl, List.Sublist.refl _, by simp [Built.nothing]⟩

theorem Beside.add {b c : Built} (hb : Beside b) (hc : Beside c) : Beside (b.add c) where
  rows := by
    unfold Built.add
    rw [List.map_append, List.map_append, hb.rows, hc.rows]
  held := by
    unfold Built.add
    rw [List.map_append, List.map_append]
    exact hb.held.append hc.held
  young := by
    intro r hr
    exact (List.mem_append.mp hr).elim (hb.young r) (hc.young r)

theorem Beside.fold {ι : Type*} {f : ι → Built} {l : List ι} (hf : ∀ x ∈ l, Beside (f x)) {b : Built} (hb : Beside b) :
    Beside (l.foldl (fun b x => b.add (f x)) b) := by
  induction l generalizing b with
  | nil => exact hb
  | cons x l ih =>
    exact ih (fun y hy => hf y (List.mem_cons_of_mem x hy)) (hb.add (hf x List.mem_cons_self))

theorem beside_place {dev : Option Pos} {base : ℤ} {state : VehicleState} {reason : Reason} {jt : Option String}
    {anchored : Bool} : Beside (place inp yt dev base state reason jt anchored) := by
  unfold place
  cases dev with
  | none => exact ⟨rfl, List.Sublist.refl _, by simp [Built.nothing]⟩
  | some p =>
    refine ⟨rfl, ?_, ?_⟩
    · dsimp only
      split_ifs
      · exact List.Sublist.refl _
      · exact List.nil_sublist _
    · intro r hr
      rw [List.mem_singleton.mp hr]
      refine ⟨_, rfl, fun hsrc => ?_, fun hsrc => ?_⟩
      · dsimp only at hsrc
        split_ifs at hsrc with hage
        exact hage
      · dsimp only at hsrc
        split_ifs at hsrc

theorem beside_signalOffer : Beside (signalOffer inp yt row) := by
  unfold signalOffer
  cases fateOf inp yt row with
  | out => exact beside_nothing
  | swap r => exact ⟨rfl, List.Sublist.refl _, by simp [Built.nothing]⟩
  | pool base state reason jt anchored drop =>
    have h : Beside (place inp yt (inp.devices.lookup yt) base state reason jt anchored) := beside_place
    exact ⟨h.rows, h.held, h.young⟩

theorem beside_gpsOffer {p : Pos} : Beside (gpsOffer inp yt p) := by
  unfold gpsOffer
  dsimp only
  split_ifs with hskip
  · exact beside_nothing
  · refine ⟨rfl, List.nil_sublist _, fun r hr => ?_⟩
    rw [List.mem_singleton.mp hr]
    exact ⟨_, rfl, fun _ => by simp at hskip; omega, fun h => by cases h⟩
  · exact beside_nothing

theorem beside_histOffer {x : NeedPos} : Beside (histOffer inp x) := by
  unfold histOffer
  cases inp.posHist.bind fun found => found x.ytno with
  | none => exact beside_nothing
  | some fix =>
    dsimp only
    split_ifs with hage
    · exact beside_nothing
    · refine ⟨rfl, List.Sublist.refl _, fun r hr => ?_⟩
      rw [List.mem_singleton.mp hr]
      exact ⟨_, rfl, (fun h => by cases h), fun _ => not_lt.mp hage⟩

theorem beside_vehiclesBuilt (inp : PoolIn) : Beside (vehiclesBuilt inp) :=
  Beside.fold (fun _ _ => beside_gpsOffer) (Beside.fold (fun _ _ => beside_signalOffer) beside_nothing)

theorem beside_buildPool (inp : PoolIn) : Beside (buildPool inp) :=
  have h := beside_vehiclesBuilt inp
  Beside.fold (fun _ _ => beside_histOffer) ⟨h.rows, h.held, h.young⟩

/-- The turns over the trucks of a table each add at most their truck. -/
theorem nodup_turns {β γ : Type*} {s : AList fun _ : String => β} {f : String → β → List γ} {name : γ → String}
    (h : ∀ yt b, ((f yt b).map name).Sublist [yt]) : ((s.entries.flatMap fun e => f e.1 e.2).map name).Nodup := by
  rw [List.map_flatMap]
  refine List.Nodup.sublist (flatMap_sublist (g := fun e => [e.1]) fun e _ => h e.1 e.2) ?_
  rw [← List.map_eq_flatMap]
  exact s.nodupKeys

theorem place_sublist {dev : Option Pos} {base : ℤ} {state : VehicleState} {reason : Reason} {jt : Option String}
    {anchored : Bool} : ((place inp yt dev base state reason jt anchored).vehicles.map Vehicle.ytno).Sublist [yt] ∧
      ((place inp yt dev base state reason jt anchored).needPos.map NeedPos.ytno).Sublist [yt] := by
  unfold place
  cases dev <;> simp [Built.nothing]

theorem signalOffer_sublist : ((signalOffer inp yt row).vehicles.map Vehicle.ytno).Sublist [yt] ∧
    ((signalOffer inp yt row).needPos.map NeedPos.ytno).Sublist [yt] := by
  unfold signalOffer
  cases fateOf inp yt row with
  | out => exact ⟨List.nil_sublist _, List.nil_sublist _⟩
  | swap r => exact ⟨List.nil_sublist _, List.nil_sublist _⟩
  | pool base state reason jt anchored drop => exact place_sublist

theorem gpsOffer_sublist {p : Pos} : ((gpsOffer inp yt p).vehicles.map Vehicle.ytno).Sublist [yt] := by
  unfold gpsOffer
  dsimp only
  split_ifs
  · exact List.nil_sublist _
  · exact List.Sublist.refl _
  · exact List.nil_sublist _

theorem histOffer_sublist {x : NeedPos} : ((histOffer inp x).vehicles.map Vehicle.ytno).Sublist [x.ytno] := by
  unfold histOffer
  cases inp.posHist.bind fun found => found x.ytno with
  | none => exact List.nil_sublist _
  | some fix =>
    dsimp only
    split_ifs
    · exact List.nil_sublist _
    · exact List.Sublist.refl _

theorem mem_parts {v : Vehicle} :
    (v ∈ (inp.tosSig.entries.flatMap fun e => (signalOffer inp e.1 e.2).vehicles) →
      inp.tosSig.lookup v.ytno ≠ none ∧ inp.devices.lookup v.ytno ≠ none) ∧
    (v ∈ (inp.devices.entries.flatMap fun e => (gpsOffer inp e.1 e.2).vehicles) →
      inp.tosSig.lookup v.ytno = none) ∧
    (v ∈ ((vehiclesBuilt inp).needPos.flatMap fun x => (histOffer inp x).vehicles) →
      inp.tosSig.lookup v.ytno ≠ none ∧ inp.devices.lookup v.ytno = none) := by
  refine ⟨fun hv => ?_, fun hv => ?_, fun hv => ?_⟩
  · obtain ⟨e, he, hv⟩ := List.mem_flatMap.mp hv
    obtain ⟨hyt, -, p, hdev, -⟩ := mem_signalOffer_vehicles.mp hv
    rw [hyt, hdev, AList.mem_lookup_iff.mpr he]
    exact ⟨Option.some_ne_none _, Option.some_ne_none _⟩
  · obtain ⟨e, -, hv⟩ := List.mem_flatMap.mp hv
    obtain ⟨-, hsig, -, -, rfl⟩ := mem_gpsOffer_vehicles.mp hv
    exact hsig
  · obtain ⟨x, hx, hv⟩ := List.mem_flatMap.mp hv
    rw [needPos_vehiclesBuilt] at hx
    obtain ⟨e, he, hx⟩ := List.mem_flatMap.mp hx
    obtain ⟨hyt, hdev, -⟩ := mem_signalOffer_needPos.mp hx
    obtain ⟨pos, -, rfl⟩ := mem_histOffer_vehicles.mp hv
    dsimp only
    rw [hyt, hdev, AList.mem_lookup_iff.mpr he]
    exact ⟨Option.some_ne_none _, rfl⟩

theorem nodup_vehicles (inp : PoolIn) : ((buildPool inp).vehicles.map Vehicle.ytno).Nodup := by
  have hneed : ((vehiclesBuilt inp).needPos.map NeedPos.ytno).Nodup := by
    rw [needPos_vehiclesBuilt]
    exact nodup_turns (s := inp.tosSig) (f := fun yt row => (signalOffer inp yt row).needPos) fun _ _ => signalOffer_sublist.2
  have hhist : (((vehiclesBuilt inp).needPos.flatMap fun x => (histOffer inp x).vehicles).map Vehicle.ytno).Nodup := by
    rw [List.map_flatMap]
    refine List.Nodup.sublist (flatMap_sublist (g := fun x => [x.ytno]) fun x _ => histOffer_sublist) ?_
    rw [← List.map_eq_flatMap]
    exact hneed
  rw [vehicles_buildPool, List.map_append, List.map_append]
  refine List.Nodup.append (List.Nodup.append ?_ ?_ ?_) hhist ?_
  · exact nodup_turns (s := inp.tosSig) (f := fun yt row => (signalOffer inp yt row).vehicles) fun _ _ => signalOffer_sublist.1
  · exact nodup_turns (s := inp.devices) (f := fun yt p => (gpsOffer inp yt p).vehicles) fun _ _ => gpsOffer_sublist
  · intro yt h1 h2
    obtain ⟨v, hv, rfl⟩ := List.mem_map.mp h1
    obtain ⟨w, hw, he⟩ := List.mem_map.mp h2
    exact (mem_parts.1 hv).1 (he ▸ mem_parts.2.1 hw)
  · intro yt h1 h2
    obtain ⟨w, hw, rfl⟩ := List.mem_map.mp h2
    have hlater := mem_parts.2.2 hw
    rw [List.mem_append, List.mem_map, List.mem_map] at h1
    rcases h1 with ⟨v, hv, he⟩ | ⟨v, hv, he⟩
    · exact (mem_parts.1 hv).2 (he.symm ▸ hlater.2)
    · exact hlater.1 (he ▸ mem_parts.2.1 hv)

/-! ## The bases and the swap candidates -/

theorem clamp_nonneg {lo hi x : ℤ} (h : 0 ≤ lo) : 0 ≤ clamp lo hi x := le_max_of_le_left h

theorem handoverBase_nonneg (inp : PoolIn) (row : TosRow) (p : Pos) (c : Classed) : 0 ≤ handoverBase inp row p c := by
  unfold handoverBase PoolIn.stFree
  dsimp only
  split
  · rename_i s hs
    obtain ⟨hs, -⟩ := Option.filter_eq_some_iff.mp hs
    obtain ⟨r, -, rfl⟩ := Option.map_eq_some_iff.mp hs
    exact clamp_nonneg (by decide)
  · exact clamp_nonneg (by decide)

theorem soonBase_nonneg (inp : PoolIn) (yt : String) (row : TosRow) (dev : Option Pos) : 0 ≤ (soonBase inp yt row dev).1 := by
  have hmax : 0 ≤ i64Max := by decide
  unfold soonBase
  split
  · exact clamp_nonneg le_rfl
  · split_ifs
    · unfold seenBase
      dsimp only
      split
      · exact handoverBase_nonneg ..
      · exact handoverBase_nonneg ..
      · exact le_rfl
      · exact hmax
    · unfold lostBase
      dsimp only
      split_ifs
      · exact clamp_nonneg (by decide)
      · exact hmax
  · exact hmax

theorem swapCands_buildPool : (buildPool inp).swapCands =
    inp.tosSig.entries.flatMap fun e => (signalOffer inp e.1 e.2).swapCands := by
  have hgps : (inp.devices.entries.flatMap fun e => (gpsOffer inp e.1 e.2).swapCands) = [] := by
    refine List.flatMap_eq_nil_iff.mpr fun e _ => ?_
    unfold gpsOffer
    dsimp only
    split_ifs <;> rfl
  have hhist : ((vehiclesBuilt inp).needPos.flatMap fun x => (histOffer inp x).swapCands) = [] := by
    refine List.flatMap_eq_nil_iff.mpr fun x _ => ?_
    unfold histOffer
    cases inp.posHist.bind fun found => found x.ytno with
    | none => rfl
    | some fix =>
      dsimp only
      split_ifs <;> rfl
  unfold buildPool
  rw [fold_add Built.swapCands fun _ _ => rfl, hhist, List.append_nil]
  dsimp only
  rw [part_vehiclesBuilt Built.swapCands (fun _ _ => rfl) rfl, hgps, List.append_nil]

theorem swapCands_signalOffer {c : SwapCandAt} : c ∈ (signalOffer inp yt row).swapCands ↔
    ∃ r, fateOf inp yt row = .swap r ∧ swapCandOf inp yt row r = some c := by
  unfold signalOffer
  cases fateOf inp yt row with
  | out => simp [Built.nothing]
  | swap r => simp
  | pool base state reason jt anchored drop =>
    unfold place
    cases inp.devices.lookup yt <;> simp [Built.nothing]

/-- A swap candidate is a truck that the GPS sees, that goes to a known place, and is neither frozen nor held. -/
theorem swapCandOf_eq_some {r : RedirRow} {c : SwapCandAt} (h : swapCandOf inp yt row r = some c) :
    c.ytno = yt ∧ c.contno = r.contno ∧ swapFrozen inp yt row = false ∧
      ∃ p, inp.devices.lookup yt = some p ∧ ageS inp.now p.lastSeenMs ≤ STALE_AFTER_S := by
  unfold swapCandOf at h
  obtain ⟨p, hp, h⟩ := Option.bind_eq_some_iff.mp h
  obtain ⟨d, -, h⟩ := Option.bind_eq_some_iff.mp h
  obtain ⟨hdev, hage⟩ := Option.filter_eq_some_iff.mp hp
  cases hfrozen : swapFrozen inp yt row
  · rw [hfrozen] at h
    cases h
    exact ⟨rfl, rfl, rfl, p, hdev, of_decide_eq_true hage⟩
  · rw [hfrozen] at h
    exact absurd h (by simp)

theorem mem_swapCands_iff {c : SwapCandAt} : c ∈ (buildPool inp).swapCands ↔
    ∃ row r, inp.tosSig.lookup c.ytno = some row ∧ fateOf inp c.ytno row = .swap r ∧ swapCandOf inp c.ytno row r = some c := by
  rw [swapCands_buildPool, List.mem_flatMap]
  constructor
  · rintro ⟨e, he, hc⟩
    obtain ⟨r, hfate, hcand⟩ := swapCands_signalOffer.mp hc
    have hyt := (swapCandOf_eq_some hcand).1
    rw [hyt]
    exact ⟨e.2, r, AList.mem_lookup_iff.mpr he, hfate, hcand⟩
  · rintro ⟨row, r, hrow, hfate, hcand⟩
    exact ⟨_, AList.mem_lookup_iff.mp hrow, swapCands_signalOffer.mpr ⟨r, hfate, hcand⟩⟩

theorem nodup_swapCands (inp : PoolIn) : ((buildPool inp).swapCands.map fun c => c.ytno).Nodup := by
  rw [swapCands_buildPool]
  refine nodup_turns (s := inp.tosSig) (f := fun yt row => (signalOffer inp yt row).swapCands) fun yt row => ?_
  unfold signalOffer
  cases fateOf inp yt row with
  | out => exact List.nil_sublist _
  | pool base state reason jt anchored drop =>
    unfold place
    cases inp.devices.lookup yt <;> exact List.nil_sublist _
  | swap r =>
    dsimp only
    cases hcand : swapCandOf inp yt row r with
    | none => exact List.nil_sublist _
    | some c =>
      rw [Option.toList_some, List.map_singleton, (swapCandOf_eq_some hcand).1]

/-- The pool of a tick is sound: every truck is in it once, beside its row; a base is within the horizon; a truck is offered
as free exactly when its signals say so, and from the GPS exactly when it has none; no swap candidate is in the pool, and each
is dispatched, before its pickup, seen by the GPS, and not held. -/
structure SoundPool (inp : PoolIn) (b : Built) : Prop where
  once : (b.vehicles.map Vehicle.ytno).Nodup
  beside : Beside b
  bases : ∀ v ∈ b.vehicles, 0 ≤ v.base ∧ v.base ≤ inp.poolHS
  free : ∀ v ∈ b.vehicles, v.state = .freeTos ↔ ∃ row, inp.tosSig.lookup v.ytno = some row ∧ isFreeTos row.sig = true
  seen : ∀ v ∈ b.vehicles, v.state = .freeGps ↔ inp.tosSig.lookup v.ytno = none
  swaps_once : (b.swapCands.map fun c => c.ytno).Nodup
  swaps_apart : ∀ c ∈ b.swapCands, c.ytno ∉ b.vehicles.map Vehicle.ytno
  swaps : ∀ c ∈ b.swapCands, ∃ row r p, inp.tosSig.lookup c.ytno = some row ∧ isFreeTos row.sig = false ∧
    inp.redir.lookup c.ytno = some r ∧ c.contno = r.contno ∧ loaded row.sig = false ∧
    inp.devices.lookup c.ytno = some p ∧ ageS inp.now p.lastSeenMs ≤ STALE_AFTER_S ∧ inp.held.lookup c.ytno = none

theorem soonBase_state (inp : PoolIn) (yt : String) (row : TosRow) (dev : Option Pos) :
    (soonBase inp yt row dev).2.1 ≠ .freeTos ∧ (soonBase inp yt row dev).2.1 ≠ .freeGps := by
  unfold soonBase seenBase lostBase
  dsimp only
  split
  · exact ⟨by simp, by simp⟩
  · split_ifs
    · split <;> exact ⟨by simp, by simp⟩
    · exact ⟨by simp, by simp⟩
    · exact ⟨by simp, by simp⟩
  · exact ⟨by simp, by simp⟩

theorem ready_facts {base : ℤ} {state : VehicleState} (hH : 0 ≤ inp.poolHS) (h : Ready inp yt row base state) :
    0 ≤ base ∧ base ≤ inp.poolHS ∧ (state = .freeTos ↔ isFreeTos row.sig = true) ∧ state ≠ .freeGps := by
  obtain ⟨-, ⟨hfree, rfl, rfl⟩ | ⟨hfree, -, rfl, rfl, hle⟩⟩ := ready_iff.mp h
  · exact ⟨le_rfl, hH, by simp [hfree], by simp⟩
  · have hstate := soonBase_state inp yt row (inp.devices.lookup yt)
    exact ⟨soonBase_nonneg .., hle, by simp [hfree, hstate.1], hstate.2⟩

/-- **The candidate pool of every tick is sound.** -/
theorem pool_sound (inp : PoolIn) (hH : 0 ≤ inp.poolHS) : SoundPool inp (buildPool inp) where
  once := nodup_vehicles inp
  beside := beside_buildPool inp
  bases := by
    intro v hv
    rcases (mem_vehicles_iff inp v).mp hv with ⟨row, -, hready, -⟩ | ⟨-, p, -, -, -, -, hv⟩
    · exact ⟨(ready_facts hH hready).1, (ready_facts hH hready).2.1⟩
    · rw [hv]
      exact ⟨le_rfl, hH⟩
  free := by
    intro v hv
    rcases (mem_vehicles_iff inp v).mp hv with ⟨row, hrow, hready, -⟩ | ⟨hsig, p, -, -, -, -, hv⟩
    · rw [(ready_facts hH hready).2.2.1, hrow]
      simp
    · rw [hsig, hv]
      simp
  seen := by
    intro v hv
    rcases (mem_vehicles_iff inp v).mp hv with ⟨row, hrow, hready, -⟩ | ⟨hsig, p, -, -, -, -, hv⟩
    · rw [hrow]
      simp [(ready_facts hH hready).2.2.2]
    · rw [hsig, hv]
      simp
  swaps_once := nodup_swapCands inp
  swaps_apart := by
    intro c hc hin
    obtain ⟨row, r, hrow, hfate, -⟩ := mem_swapCands_iff.mp hc
    obtain ⟨v, hv, hyt⟩ := List.mem_map.mp hin
    rcases (mem_vehicles_iff inp v).mp hv with ⟨row', hrow', ⟨_, _, _, _, hready⟩, -⟩ | ⟨hsig, -⟩
    · rw [hyt, hrow] at hrow'
      cases hrow'
      rw [hyt, hfate] at hready
      cases hready
    · rw [hyt, hrow] at hsig
      exact absurd hsig (Option.some_ne_none _)
  swaps := by
    intro c hc
    obtain ⟨row, r, hrow, hfate, hcand⟩ := mem_swapCands_iff.mp hc
    obtain ⟨-, hfree, hwork⟩ := fateOf_swap hfate
    obtain ⟨hredir, hbefore⟩ := Option.filter_eq_some_iff.mp hwork
    obtain ⟨-, hbox, hfrozen, p, hdev, hage⟩ := swapCandOf_eq_some hcand
    refine ⟨row, r, p, hrow, hfree, hredir, hbox, ?_, hdev, hage, ?_⟩
    · exact Bool.not_eq_true' _ ▸ hbefore
    · exact Option.isNone_iff_eq_none.mp (Option.isSome_eq_false_iff.mp (Bool.or_eq_false_iff.mp hfrozen).2)

/-- The fix of a truck that stands without a box at `(1, 1)`; runs on fixed inputs change its fields. -/
def standingPos (lastSeenMs : ℤ) : Pos where
  cls := "TT"
  lat := 1
  lon := 1
  speed := 0
  lastSeenMs := lastSeenMs
  container1 := none
  jobtype := none
  topos1 := none
  arrival := none
  latchedContainer := none
  latchedTopos := none
  latchedJobtype := none

/-- `TT1` became free at `freeUs`; nothing else is known. -/
def freePool (now freeUs : ℤ) : PoolIn where
  now := now
  dist := Cycle.northDist
  devices := AList.insert "TT1" (standingPos now) ∅
  plc := fun _ => none
  cranes := fun _ => none
  centroids := fun _ => none
  soonIdleGateM := 50
  tosSig := AList.insert "TT1" ⟨⟨some freeUs, none, none, none, none⟩, none, some "DS", none⟩ ∅
  redir := ∅
  lastSwap := some fun _ => none
  held := ∅
  inflightRows := fun _ => none
  stationaryRows := fun _ => none
  biasRows := fun _ _ _ => none
  posHist := some fun _ => none
  poolHS := 900

/-- Beside the free truck, `TT2` goes to a crane for a box. -/
def goingPool : PoolIn :=
  { freePool 5000 500000 with
    devices := AList.insert "TT2" (standingPos 5000) (AList.insert "TT1" (standingPos 5000) ∅)
    cranes := fun _ => some (1, 1)
    tosSig := AList.insert "TT2" ⟨⟨none, none, none, none, none⟩, some "DS", none, none⟩
      (AList.insert "TT1" ⟨⟨some 500000, none, none, none, none⟩, none, some "DS", none⟩ ∅)
    redir := AList.insert "TT2" ⟨"DS", "QC1", "10D-D", some "BOX", none⟩ ∅ }

/-- The free truck is in the pool, and the other may swap. -/
theorem pool_sound_free : 0 ≤ goingPool.poolHS ∧ SoundPool goingPool (buildPool goingPool) ∧
    (buildPool goingPool).vehicles.map Vehicle.ytno = ["TT1"] ∧
    (buildPool goingPool).swapCands.map (fun c => (c.ytno, c.contno)) = [("TT2", some "BOX")] :=
  ⟨by decide, pool_sound _ (by decide), by decide +kernel, by decide +kernel⟩

/-! ## The swap candidates of `Tick` -/

theorem lookup_mapValues {β γ : Type} (f : β → γ) (s : AList fun _ : String => β) (yt : String) :
    (mapValues f s).lookup yt = (s.lookup yt).map f := by
  cases h : s.lookup yt with
  | some b =>
    exact AList.mem_lookup_iff.mpr (List.mem_map.mpr ⟨_, AList.mem_lookup_iff.mp h, rfl⟩)
  | none =>
    rw [Option.map_none, AList.lookup_eq_none, AList.mem_keys]
    rw [AList.lookup_eq_none, AList.mem_keys] at h
    unfold AList.keys mapValues List.keys at *
    rwa [List.map_map]

/-- A dispatched truck makes a candidate iff it is seen, goes to a known place, and is not frozen. -/
theorem toList_swapCandOf (inp : PoolIn) (yt : String) (row : TosRow) (r : RedirRow) :
    (swapCandOf inp yt row r).toList.map SwapCandAt.toSwapCand =
      (if (((inp.devices.lookup yt).any fun p => ageS inp.now p.lastSeenMs ≤ STALE_AFTER_S) && (redirDest inp r).isSome) &&
          !swapFrozen inp yt row then some (⟨yt, r.contno⟩ : SwapCand) else none).toList := by
  unfold swapCandOf
  cases inp.devices.lookup yt with
  | none => rfl
  | some p =>
    by_cases hage : ageS inp.now p.lastSeenMs ≤ STALE_AFTER_S
    · rw [Option.filter_some, if_pos (decide_eq_true hage), Option.bind_some, Option.any_some, decide_eq_true hage]
      cases redirDest inp r with
      | none => rfl
      | some d => cases swapFrozen inp yt row <;> rfl
    · rw [Option.filter_some, if_neg (by simpa using hage), Option.any_some, decide_eq_false hage]
      rfl

/-- The turn of a truck adds the candidate that `Tick` makes of it. -/
theorem swapCand_turn (inp : PoolIn) (yt : String) (row : TosRow) :
    (signalOffer inp yt row).swapCands.map SwapCandAt.toSwapCand =
      (if !isTruckId yt || isFreeTos row.sig then none
        else ((mapValues RedirRow.contno inp.redir).lookup yt).bind fun contno =>
          if loaded row.sig then none
          else if swapLocated inp yt && !swapFrozen inp yt row then some (⟨yt, contno⟩ : SwapCand)
          else none).toList := by
  have hplace : ∀ dev base state reason jt anchored,
      (place inp yt dev base state reason jt anchored).swapCands = [] := by
    intro dev base state reason jt anchored
    unfold place
    cases dev <;> rfl
  unfold signalOffer fateOf beforePickup
  rw [lookup_mapValues]
  cases htruck : isTruckId yt
  · rfl
  cases hfree : isFreeTos row.sig
  · cases hwork : inp.redir.lookup yt with
    | none =>
      by_cases hlate : inp.poolHS < (soonBase inp yt row (inp.devices.lookup yt)).1 <;> simp [hlate, hplace, Built.nothing]
    | some r =>
      cases hloaded : loaded row.sig
      · rw [swapLocated, hwork, Option.any_some]
        exact toList_swapCandOf inp yt row r
      · by_cases hlate : inp.poolHS < (soonBase inp yt row (inp.devices.lookup yt)).1 <;> simp [hlate, hplace, Built.nothing]
  · simp [hplace]

/-- The swap candidates beside the pool are those of the tick, whatever else the tick reads. -/
theorem swapCands_eq (inp : PoolIn) (t : TickIn) :
    (buildPool inp).swapCands.map SwapCandAt.toSwapCand = swapCands (inp.onto t) inp.held := by
  rw [swapCands_buildPool, List.map_flatMap]
  unfold swapCands PoolIn.onto
  rw [List.filterMap_eq_flatMap_toList]
  unfold mapValues
  dsimp only [Option.map_some, Option.getD_some]
  rw [List.flatMap_map]
  exact congrArg (fun f => List.flatMap f inp.tosSig.entries) (funext fun e => swapCand_turn inp e.1 e.2)

/-- **Whom the loops collect**: the pool has exactly the trucks with a signal that are free or will be within the horizon, if
their position is known, and those without one that the GPS sees fresh and without a box; and the swap candidates beside it are,
in their order, those of the tick. -/
theorem pool_members (inp : PoolIn) (t : TickIn) :
    (∀ v, v ∈ (buildPool inp).vehicles ↔ (∃ row, inp.tosSig.lookup v.ytno = some row ∧ Ready inp v.ytno row v.base v.state ∧
        located inp v.ytno = some v.pos) ∨ GpsFree inp v) ∧
      (buildPool inp).swapCands.map SwapCandAt.toSwapCand = swapCands (inp.onto t) inp.held :=
  ⟨mem_vehicles_iff inp, swapCands_eq inp t⟩

end TtAiops.Dispatch
