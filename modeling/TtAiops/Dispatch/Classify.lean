import TtAiops.Cycle.Legs
import TtAiops.Lib.Durations

/-!
# The dispatch state of a truck (`classify_tt`)

What the websocket says about a truck, with the cranes, the RTGs and the learned places around it, gives its state: empty
and standing, empty and on its way, loaded and on its way, or loaded and at the place where it is unloaded.

* `Pos`, `Scene` : the fix of a truck, and what is looked up beside it;
* `isCraneCode`, `placeOf`, `dropAtCrane` : the code of a place, where it is, and which side unloads a job;
* `classifyTt`, `freeIn` : the state with its reason, and the constants for the time until a truck is free;
* `classifyTt_empty_iff`, `classifyTt_handover_iff` : **an empty truck is one without a box; a truck is at its handover iff it
  carries a box to the side that unloads it and has arrived there**.

Distances are given by a function; points in time are milliseconds, an age is cut to whole seconds.
-/

namespace TtAiops.Dispatch
open TtAiops.Lib
open TtAiops.Cycle (IDLE_SPEED_KMH STALE_AFTER_S blockPrefix isCraneCode)

/-- `Pos`, as far as the pool and the classifier read it. -/
structure Pos where
  cls : String
  lat : ℚ
  lon : ℚ
  speed : ℚ
  lastSeenMs : ℤ
  container1 : Option String
  jobtype : Option String
  topos1 : Option String
  arrival : Option String
  latchedContainer : Option String
  latchedTopos : Option String
  latchedJobtype : Option String

/-- What `classify_tt` looks up beside the truck: the fresh RTGs, when the PLC of a crane was last seen, the cranes, the learned
places, and the distance at which an RTG counts as near. -/
structure Scene where
  dist : ℚ × ℚ → ℚ × ℚ → ℚ
  rtgs : List (ℚ × ℚ)
  plc : String → Option ℤ
  cranes : String → Option (ℚ × ℚ)
  centroids : String → Option (ℚ × ℚ)
  soonIdleGateM : ℚ
  now : ℤ

def GEOFENCE_DROP_M : ℚ := 70

def SWAP_MIN_M : ℚ := 500

/-- The age of a fix, in whole seconds. -/
def ageS (now lastSeenMs : ℤ) : ℤ := (now - lastSeenMs).tdiv 1000

/-- `as_deref().is_some_and(|s| !s.is_empty())`. -/
def filled (s : Option String) : Bool := s.any (· != "")

/-- Where a place is: a crane by its position, else its learned one; a block by the learned position of the bay, else of
the block. -/
def placeOf (sc : Scene) (code : String) : Option (ℚ × ℚ) :=
  if isCraneCode code then (sc.cranes code).or (sc.centroids code)
  else (sc.centroids code).or (sc.centroids (blockPrefix code))

/-- `drop_at_crane`: a load is unloaded at its crane, a discharge and a move at a block. -/
def dropAtCrane (jobtype topos : String) : Bool :=
  if jobtype = "LD" then true
  else if jobtype = "DS" ∨ jobtype = "MO" ∨ jobtype = "MI" then false
  else isCraneCode topos

inductive TtState
  | idle
  | staging
  | emptyTravel
  | delivering
  | soonIdle
  | waitRtg
  deriving DecidableEq

structure Classed where
  state : TtState
  reason : Option String := none
  nearestRtgM : Option ℚ := none
  destRemainingM : Option ℚ := none
  swappable : Option Bool := none

/-- `{r:.0}m`. -/
def metres (r : ℚ) : String := toString (roundEven r) ++ "m"

/-- `(r * 10.0).round() / 10.0`. -/
def tenths (r : ℚ) : ℚ := roundAway (r * 10) / 10

/-- The least distance to an RTG, if there is one. -/
def nearestRtg (sc : Scene) (p : Pos) : Option ℚ := (sc.rtgs.map fun r => sc.dist (p.lat, p.lon) r).min?

/-- The part of `classify_tt` for a truck without a box. -/
def classifyEmpty (sc : Scene) (p : Pos) : Classed :=
  let assigned := filled p.container1 || filled p.latchedContainer || filled p.latchedTopos
  if p.speed < IDLE_SPEED_KMH then
    if assigned then { state := .staging, reason := some "배차됨 · 픽업 대기/정차" } else { state := .idle }
  else
    let topos := p.topos1.getD ""
    if topos = "" then
      { state := .emptyTravel, reason := some "공차 주행 중 · 회송/대기", swappable := some false }
    else
      let remaining := (placeOf sc topos).map fun d => sc.dist (p.lat, p.lon) d
      let reason :=
        match remaining with
        | some r =>
          if r < SWAP_MIN_M then "공차 주행 중 · 목적지 근접 " ++ metres r ++ " (스왑 부적합)"
          else "공차 주행 중 · 잔여 " ++ metres r
        | none => "공차 주행 중 · 목적지 미학습"
      { state := .emptyTravel, reason := some reason, destRemainingM := remaining.map tenths,
        swappable := some (remaining.all (SWAP_MIN_M ≤ ·)) }

/-- `drop_dist`: the distance to the place where the truck goes. -/
def dropDist (sc : Scene) (p : Pos) : Option ℚ := (placeOf sc (p.topos1.getD "")).map fun d => sc.dist (p.lat, p.lon) d

def arrivedFlag (p : Pos) : Bool := p.arrival == some "ARRIVED"

def geofenceArrived (sc : Scene) (p : Pos) : Bool :=
  decide (p.speed < IDLE_SPEED_KMH) && (dropDist sc p).any (· ≤ GEOFENCE_DROP_M)

/-- The part of `classify_tt` for a truck with a box. -/
def classifyLoaded (sc : Scene) (p : Pos) : Classed :=
  let topos := p.topos1.getD ""
  let isCrane := isCraneCode topos
  let atCrane := dropAtCrane (p.jobtype.getD "") topos
  if atCrane && !isCrane then { state := .delivering, reason := some "적재 이동 (안벽行)" }
  else if !atCrane && isCrane then { state := .delivering, reason := some "적재 이동 (블록行)" }
  else if !arrivedFlag p && !geofenceArrived sc p then { state := .delivering, reason := some "적재 이동 중" }
  else
    let geoTag := if arrivedFlag p then "" else " · 지오펜스"
    if atCrane then
      let plcOk := (sc.plc topos).any fun seen => ageS sc.now seen ≤ STALE_AFTER_S
      { state := .soonIdle, reason := some ("안벽 " ++ topos ++ " 핸드오버" ++ if plcOk then " · PLC 확인" else geoTag) }
    else
      let d := (nearestRtg sc p).map tenths
      if d.any (· ≤ sc.soonIdleGateM) then
        { state := .soonIdle, reason := d.map fun dm => "블록 RTG 근접 " ++ metres dm, nearestRtgM := d }
      else
        { state := .waitRtg
          reason := some ("블록 도착" ++ geoTag ++ " · RTG 대기 (" ++ ((dropDist sc p).map metres).getD "미학습" ++ ")")
          nearestRtgM := d }

def classifyTt (sc : Scene) (p : Pos) : Classed :=
  if filled p.container1 then classifyLoaded sc p else classifyEmpty sc p

/-- `free_in`: the median and the 90th percentile. -/
def freeIn (state : TtState) (jobtype : Option String) : Option ℤ × Option ℤ :=
  match state with
  | .delivering => if jobtype = some "DS" then (some 1030, some 2420) else (none, none)
  | .waitRtg => if jobtype = some "DS" then (some 480, some 1620) else (none, none)
  | .soonIdle => (some 120, some 360)
  | _ => (none, none)

def distBinOf : Option ℚ → ℤ
  | none => -1
  | some m => if m ≤ 30 then 0 else if m ≤ 80 then 1 else if m ≤ 150 then 2 else 3

/-! ## What the states say -/

variable {sc : Scene} {p : Pos}

/-- The states of a truck without a box. -/
def TtState.Empty (s : TtState) : Prop := s = .idle ∨ s = .staging ∨ s = .emptyTravel

instance (s : TtState) : Decidable s.Empty := inferInstanceAs (Decidable (_ ∨ _))

def TtState.Handover (s : TtState) : Prop := s = .soonIdle ∨ s = .waitRtg

instance (s : TtState) : Decidable s.Handover := inferInstanceAs (Decidable (_ ∨ _))

theorem TtState.Empty.not_handover {s : TtState} (h : s.Empty) : ¬ s.Handover := by
  rcases h with rfl | rfl | rfl <;> decide

theorem classifyEmpty_empty (sc : Scene) (p : Pos) : (classifyEmpty sc p).state.Empty := by
  unfold classifyEmpty
  dsimp only
  split_ifs <;> simp [TtState.Empty]

/-- The truck carries a box to the side that unloads it, and has arrived. -/
def AtHandover (sc : Scene) (p : Pos) : Prop :=
  filled p.container1 = true ∧ dropAtCrane (p.jobtype.getD "") (p.topos1.getD "") = isCraneCode (p.topos1.getD "") ∧
    (arrivedFlag p = true ∨ geofenceArrived sc p = true)

theorem classifyLoaded_state (sc : Scene) (p : Pos) :
    ((classifyLoaded sc p).state.Handover ↔ dropAtCrane (p.jobtype.getD "") (p.topos1.getD "") = isCraneCode (p.topos1.getD "") ∧
      (arrivedFlag p = true ∨ geofenceArrived sc p = true)) ∧
    ((classifyLoaded sc p).state.Handover ∨ (classifyLoaded sc p).state = .delivering) := by
  unfold classifyLoaded
  dsimp only
  cases dropAtCrane (p.jobtype.getD "") (p.topos1.getD "") <;> cases isCraneCode (p.topos1.getD "") <;>
    cases arrivedFlag p <;> cases geofenceArrived sc p <;> simp [TtState.Handover] <;> split_ifs <;> simp

/-- **A truck counts as empty iff it carries no box**, whatever it was sent for. -/
theorem classifyTt_empty_iff : (classifyTt sc p).state.Empty ↔ filled p.container1 = false := by
  unfold classifyTt
  split_ifs with h
  · rw [h]
    refine iff_of_false (fun hempty => ?_) (by decide)
    rcases (classifyLoaded_state sc p).2 with hhand | hdel
    · exact hempty.not_handover hhand
    · rw [hdel] at hempty
      exact absurd hempty (by decide)
  · exact iff_of_true (classifyEmpty_empty sc p) (Bool.eq_false_iff.mpr h)

/-- **A truck is at its handover iff it carries a box to the side that unloads it and has arrived there.** -/
theorem classifyTt_handover_iff : (classifyTt sc p).state.Handover ↔ AtHandover sc p := by
  unfold classifyTt AtHandover
  split_ifs with h
  · rw [(classifyLoaded_state sc p).1]
    exact ⟨fun hat => ⟨h, hat⟩, And.right⟩
  · exact iff_of_false (classifyEmpty_empty sc p).not_handover fun hat => h hat.1

end TtAiops.Dispatch
