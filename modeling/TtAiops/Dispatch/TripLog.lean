import TtAiops.Dispatch.Classify
import TtAiops.Lib.Firsts

/-!
# The logs of a trip

Two loops look at the trucks again and again and write a row the first time that something is so on a trip: that the truck
is about to be free (or waits for an RTG that is too far off), and that it has arrived tight at the work point where it
drops its box. A trip is a truck with the box that it carries.

* `Shot` : what a loop reads at one time, each truck once;
* `soonRows`, `nearRows`, `soonTick` : the rows of the first loop and what it takes of them (`spawn_soon_idle_logger`);
* `tightRows`, `wpTick` : those of the second (`spawn_wp_arrival_logger`);
* `soonRound`, `nearRound`, `wpRound` : both as logs of the first time;
* `Written`, `soon_idle_first`, `wp_arrival_first` : in every run a row is written exactly the first time on a trip.
-/

namespace TtAiops.Dispatch
open TtAiops.Lib
open TtAiops.Cycle (IDLE_SPEED_KMH STALE_AFTER_S isCraneCode)

/-! ## What the loops read -/

/-- `AssignedJob`, as far as the logs read it. -/
structure AssignedJob where
  contno : Option String
  rtgActive : Bool
  qc : Option String

/-- The trucks and machines at one time, each with its id, and what is looked up beside them. -/
structure Shot where
  devices : List (String × Pos)
  nodup : (devices.map Prod.fst).Nodup
  assigned : String → Option AssignedJob
  scene : Scene

abbrev TripKey := String × String

def freshTruck (now : ℤ) (p : Pos) : Prop := p.cls = "TT" ∧ ageS now p.lastSeenMs ≤ STALE_AFTER_S

instance (now : ℤ) (p : Pos) : Decidable (freshTruck now p) := inferInstanceAs (Decidable (_ ∧ _))

/-- `.filter(|s| !s.is_empty())`. -/
def nonEmpty (s : Option String) : Option String := s.filter (· ≠ "")

/-! ## About to be free -/

/-- The box of the trip: the one it carries, else the one it was last seen with, else the one it is ordered to fetch. -/
def tripContainer (p : Pos) (aj : Option AssignedJob) : Option String :=
  ((nonEmpty p.container1).or p.latchedContainer).or (aj.bind AssignedJob.contno)

inductive Source
  | both
  | gpsRtg
  | tosActv
  | qcPlc
  | other
deriving DecidableEq

structure PredRow where
  ytno : String
  container : String
  jobtype : Option String
  qc : Option String
  topos : Option String
  source : Source
  gpsWouldFire : Bool
  nearestRtgM : Option ℚ
  reason : String

structure NearMissRow where
  ytno : String
  container : String
  jobtype : Option String
  nearestRtgM : Option ℚ

def PredRow.trip (r : PredRow) : TripKey := (r.ytno, r.container)

def NearMissRow.trip (r : NearMissRow) : TripKey := (r.ytno, r.container)

def startsWith (s front : String) : Bool := front.toList.isPrefixOf s.toList

/-- The branch of `classify_tt` that a reason comes from, and whether the position alone would have said so. -/
def sourceOf (reason : String) (aj : Option AssignedJob) : Source × Bool :=
  if startsWith reason "블록 RTG 근접" then if aj.any AssignedJob.rtgActive then (.both, true) else (.gpsRtg, true)
  else if startsWith reason "TOS RTG 활성" then (.tosActv, false)
  else if startsWith reason "안벽" then (.qcPlc, true)
  else (.other, false)

/-- The trips that go on, one at most for a truck. -/
def currentTrips (s : Shot) : List TripKey :=
  s.devices.filterMap fun (id, p) =>
    if freshTruck s.scene.now p then (tripContainer p (s.assigned id)).map fun c => (id, c) else none

def soonRowOf (s : Shot) (id : String) (p : Pos) : Option PredRow :=
  let aj := s.assigned id
  let cl := classifyTt s.scene p
  let reason := cl.reason.getD ""
  if freshTruck s.scene.now p ∧ cl.state = .soonIdle then
    (tripContainer p aj).map fun container =>
      { ytno := id, container := container, jobtype := p.jobtype.or p.latchedJobtype,
        qc := (aj.bind AssignedJob.qc).or (p.latchedTopos.filter isCraneCode), topos := p.topos1.or p.latchedTopos,
        source := (sourceOf reason aj).1, gpsWouldFire := (sourceOf reason aj).2, nearestRtgM := cl.nearestRtgM,
        reason := reason }
  else none

def soonRows (s : Shot) : List PredRow := s.devices.filterMap fun (id, p) => soonRowOf s id p

def nearRowOf (s : Shot) (id : String) (p : Pos) : Option NearMissRow :=
  let cl := classifyTt s.scene p
  if freshTruck s.scene.now p ∧ cl.state = .waitRtg then
    (tripContainer p (s.assigned id)).map fun container =>
      { ytno := id, container := container, jobtype := p.jobtype.or p.latchedJobtype, nearestRtgM := cl.nearestRtgM }
  else none

def nearRows (s : Shot) : List NearMissRow := s.devices.filterMap fun (id, p) => nearRowOf s id p

/-- `soon_idle_open` and `nearmiss_open`. -/
structure SoonLog where
  soonOpen : Finset TripKey
  nearOpen : Finset TripKey

/-- One round of the loop: the rows that it inserts, and what it remembers. -/
def soonTick (s : Shot) (log : SoonLog) : (List PredRow × List NearMissRow) × SoonLog :=
  let ended : Finset TripKey → Finset TripKey := fun open_ => open_.filter (· ∈ currentTrips s)
  let soon := insertNew PredRow.trip (soonRows s) (ended log.soonOpen)
  let near := insertNew NearMissRow.trip (nearRows s) (ended log.nearOpen)
  ((soon.1, near.1), { soonOpen := soon.2, nearOpen := near.2 })

/-! ## Tight arrivals -/

def TIGHT_WP_M : ℚ := 30

def AHEAD_R_M : ℚ := 35

/-- A truck with a box on the side that drops it. -/
structure Laden where
  id : String
  container : String
  jt : String
  code : String
  wp : ℚ × ℚ
  dist : ℚ
  tight : Bool

def Laden.trip (t : Laden) : TripKey := (t.id, t.container)

structure Arr where
  ytno : String
  container : String
  jobtype : String
  wpCode : String
  dist : ℚ
  ahead : ℤ

def Arr.trip (a : Arr) : TripKey := (a.ytno, a.container)

/-- `wp_of`: a crane for a load, else the learned place of the bay, else of the block. -/
def wpOf (sc : Scene) (topos jt : String) : Option (ℚ × ℚ) :=
  if jt = "LD" then (sc.cranes topos).or (sc.centroids topos) else (sc.centroids topos).or (sc.centroids (Cycle.blockPrefix topos))

def ladenOf (s : Shot) (id : String) (p : Pos) : Option Laden := do
  guard (freshTruck s.scene.now p)
  let jt ← (p.jobtype.or p.latchedJobtype).filter fun j => j = "LD" ∨ j = "DS"
  let container ← (nonEmpty p.container1).or p.latchedContainer
  let code ← (nonEmpty p.topos1).or p.latchedTopos
  -- only the place where the box is dropped: a crane for a load, a block for a discharge
  guard (if jt = "LD" then isCraneCode code else !isCraneCode code)
  let wp ← wpOf s.scene code jt
  let dist := s.scene.dist (p.lat, p.lon) wp
  return { id := id, container := container, jt := jt, code := code, wp := wp, dist := dist,
           tight := dist ≤ TIGHT_WP_M && p.speed < IDLE_SPEED_KMH }

def ladens (s : Shot) : List Laden := s.devices.filterMap fun (id, p) => ladenOf s id p

/-- The other trucks of the job type that stand tight near the same work point. -/
def aheadOf (s : Shot) (t : Laden) : ℕ :=
  (ladens s).countP fun o => o.tight && (o.id != t.id && (o.jt == t.jt && s.scene.dist o.wp t.wp ≤ AHEAD_R_M))

def tightRows (s : Shot) : List Arr :=
  ((ladens s).filter Laden.tight).map fun t =>
    { ytno := t.id, container := t.container, jobtype := t.jt, wpCode := t.code, dist := t.dist, ahead := aheadOf s t }

/-- One round of the loop: the rows that it inserts, and what it remembers. -/
def wpTick (s : Shot) (open_ : Finset TripKey) : List Arr × Finset TripKey :=
  let arrivals := (tightRows s).filter (Arr.trip · ∉ open_)
  (arrivals, open_.filter (· ∈ (ladens s).map Laden.trip) ∪ (arrivals.map Arr.trip).toFinset)

/-! ## Both as logs of the first time -/

/-- What is built of a list entry by entry has no key twice if the list has none and the key stays that of the entry. -/
theorem nodup_filterMap {A B C : Type*} {f : A → Option B} {i : A → C} {k : B → C} {l : List A}
    (hkey : ∀ a ∈ l, ∀ b, f a = some b → k b = i a) (h : (l.map i).Nodup) : ((l.filterMap f).map k).Nodup := by
  induction l with
  | nil => exact List.nodup_nil
  | cons a l ih =>
    rw [List.map_cons, List.nodup_cons] at h
    have ih' := ih (fun x hx => hkey x (List.mem_cons_of_mem _ hx)) h.2
    cases ha : f a with
    | none => rwa [List.filterMap_cons_none ha]
    | some b =>
      rw [List.filterMap_cons_some ha, List.map_cons, List.nodup_cons]
      refine ⟨fun hmem => h.1 ?_, ih'⟩
      obtain ⟨b', hb', hsame⟩ := List.mem_map.mp hmem
      obtain ⟨x, hx, hfx⟩ := List.mem_filterMap.mp hb'
      rw [← hkey a List.mem_cons_self b ha, ← hsame, hkey x (List.mem_cons_of_mem _ hx) b' hfx]
      exact List.mem_map_of_mem hx

theorem nodup_of_truck {A : Type*} {rows : List A} {trip : A → TripKey} (h : (rows.map fun r => (trip r).1).Nodup) :
    (rows.map trip).Nodup := by
  refine List.Nodup.of_map Prod.fst ?_
  rw [List.map_map]
  exact h

/-- A row of the first log is of a fresh truck that is about to be free, and of its trip. -/
theorem soonRowOf_eq_some {s : Shot} {id : String} {p : Pos} {r : PredRow} (h : soonRowOf s id p = some r) :
    freshTruck s.scene.now p ∧ (classifyTt s.scene p).state = .soonIdle ∧ r.ytno = id ∧
      tripContainer p (s.assigned id) = some r.container ∧
      (r.source, r.gpsWouldFire) = sourceOf ((classifyTt s.scene p).reason.getD "") (s.assigned id) := by
  unfold soonRowOf at h
  dsimp only at h
  split_ifs at h with hsoon
  obtain ⟨c, hc, rfl⟩ := Option.map_eq_some_iff.mp h
  exact ⟨hsoon.1, hsoon.2, rfl, hc, rfl⟩

theorem exists_soonRowOf {s : Shot} {id c : String} {p : Pos} (hfresh : freshTruck s.scene.now p)
    (hsoon : (classifyTt s.scene p).state = .soonIdle) (hc : tripContainer p (s.assigned id) = some c) :
    ∃ r, soonRowOf s id p = some r ∧ r.trip = (id, c) := by
  unfold soonRowOf
  dsimp only
  rw [if_pos ⟨hfresh, hsoon⟩, hc]
  exact ⟨_, rfl, rfl⟩

theorem nearRowOf_eq_some {s : Shot} {id : String} {p : Pos} {r : NearMissRow} (h : nearRowOf s id p = some r) :
    freshTruck s.scene.now p ∧ r.ytno = id ∧ tripContainer p (s.assigned id) = some r.container := by
  unfold nearRowOf at h
  dsimp only at h
  split_ifs at h with hnear
  obtain ⟨c, hc, rfl⟩ := Option.map_eq_some_iff.mp h
  exact ⟨hnear.1, rfl, hc⟩

theorem exists_nearRowOf {s : Shot} {id c : String} {p : Pos} (hfresh : freshTruck s.scene.now p)
    (hnear : (classifyTt s.scene p).state = .waitRtg) (hc : tripContainer p (s.assigned id) = some c) :
    ∃ r, nearRowOf s id p = some r ∧ r.trip = (id, c) := by
  unfold nearRowOf
  dsimp only
  rw [if_pos ⟨hfresh, hnear⟩, hc]
  exact ⟨_, rfl, rfl⟩

theorem mem_currentTrips {s : Shot} {id c : String} : (id, c) ∈ currentTrips s ↔ ∃ p, (id, p) ∈ s.devices ∧
    freshTruck s.scene.now p ∧ tripContainer p (s.assigned id) = some c := by
  unfold currentTrips
  rw [List.mem_filterMap]
  constructor
  · rintro ⟨⟨id', p⟩, hmem, htrip⟩
    dsimp only at htrip
    split_ifs at htrip with hfresh
    obtain ⟨c', hc, heq⟩ := Option.map_eq_some_iff.mp htrip
    obtain ⟨rfl, rfl⟩ := Prod.mk.inj heq
    exact ⟨p, hmem, hfresh, hc⟩
  · rintro ⟨p, hmem, hfresh, hc⟩
    refine ⟨(id, p), hmem, ?_⟩
    dsimp only
    rw [if_pos hfresh, hc, Option.map_some]

def soonRound (s : Shot) : Round PredRow.trip where
  current := (currentTrips s).toFinset
  rows := soonRows s
  nodup := nodup_of_truck (nodup_filterMap (i := Prod.fst) (fun _ _ _ hr => (soonRowOf_eq_some hr).2.2.1) s.nodup)
  rows_current := by
    intro r hr
    obtain ⟨⟨id, p⟩, hmem, hrow⟩ := List.mem_filterMap.mp hr
    obtain ⟨hfresh, -, hid, hc, -⟩ := soonRowOf_eq_some hrow
    subst hid
    exact List.mem_toFinset.mpr (mem_currentTrips.mpr ⟨p, hmem, hfresh, hc⟩)

/-- The round of the second log of the same loop. -/
def nearRound (s : Shot) : Round NearMissRow.trip where
  current := (currentTrips s).toFinset
  rows := nearRows s
  nodup := nodup_of_truck (nodup_filterMap (i := Prod.fst) (fun _ _ _ hr => (nearRowOf_eq_some hr).2.1) s.nodup)
  rows_current := by
    intro r hr
    obtain ⟨⟨id, p⟩, hmem, hrow⟩ := List.mem_filterMap.mp hr
    obtain ⟨hfresh, hid, hc⟩ := nearRowOf_eq_some hrow
    subst hid
    exact List.mem_toFinset.mpr (mem_currentTrips.mpr ⟨p, hmem, hfresh, hc⟩)

theorem id_of_ladenOf {s : Shot} {id : String} {p : Pos} {t : Laden} (h : ladenOf s id p = some t) : t.id = id := by
  unfold ladenOf at h
  simp only [Option.bind_eq_bind, Option.bind_eq_some_iff, Option.pure_def, Option.some_inj] at h
  obtain ⟨-, -, jt, -, container, -, code, -, -, -, wp, -, rfl⟩ := h
  rfl

theorem nodup_ladens (s : Shot) : ((ladens s).map Laden.id).Nodup :=
  nodup_filterMap (i := Prod.fst) (fun _ _ _ h => id_of_ladenOf h) s.nodup

/-- The round of the log of the tight arrivals. -/
def wpRound (s : Shot) : Round Arr.trip where
  current := ((ladens s).map Laden.trip).toFinset
  rows := tightRows s
  nodup := by
    refine nodup_of_truck ?_
    unfold tightRows
    rw [List.map_map]
    exact (nodup_ladens s).sublist (List.filter_sublist.map _)
  rows_current := by
    intro a ha
    obtain ⟨t, ht, rfl⟩ := List.mem_map.mp ha
    exact List.mem_toFinset.mpr (List.mem_map_of_mem (List.mem_filter.mp ht).1)

theorem soonTick_eq (s : Shot) (log : SoonLog) :
    soonTick s log = (((retainThenLog (soonRound s) log.soonOpen).1, (retainThenLog (nearRound s) log.nearOpen).1),
      { soonOpen := (retainThenLog (soonRound s) log.soonOpen).2, nearOpen := (retainThenLog (nearRound s) log.nearOpen).2 }) := by
  have hended : ∀ open_ : Finset TripKey, open_.filter (· ∈ currentTrips s) = open_.filter (· ∈ (currentTrips s).toFinset) := by
    intro open_
    simp only [List.mem_toFinset]
  unfold soonTick
  dsimp only
  rw [insertNew_eq (show ((soonRows s).map PredRow.trip).Nodup from (soonRound s).nodup),
    insertNew_eq (show ((nearRows s).map NearMissRow.trip).Nodup from (nearRound s).nodup), hended, hended]
  rfl

theorem wpTick_eq (s : Shot) (open_ : Finset TripKey) : wpTick s open_ = retainThenLog (wpRound s) open_ := by
  rw [← logThenRetain_eq]
  have hcurrent : open_.filter (· ∈ (ladens s).map Laden.trip) = open_.filter (· ∈ ((ladens s).map Laden.trip).toFinset) := by
    simp only [List.mem_toFinset]
  unfold wpTick
  rw [hcurrent]
  rfl

def soonAfter (shots : List Shot) : SoonLog := lastOf soonTick shots { soonOpen := ∅, nearOpen := ∅ }

/-- What the second loop remembers after a run. -/
def wpAfter (shots : List Shot) : Finset TripKey := lastOf wpTick shots ∅

theorem soonAfter_eq (shots : List Shot) :
    soonAfter shots = { soonOpen := keptAfter (shots.map soonRound), nearOpen := keptAfter (shots.map nearRound) } := by
  induction shots using List.reverseRecOn with
  | nil => rfl
  | append_singleton shots s ih =>
    have hstep : soonAfter (shots ++ [s]) = (soonTick s (soonAfter shots)).2 := by
      unfold soonAfter
      rw [lastOf_append]
      rfl
    rw [hstep, ih, soonTick_eq, List.map_append, List.map_append]
    unfold keptAfter
    rw [lastOf_append, lastOf_append]
    rfl

theorem wpAfter_eq (shots : List Shot) : wpAfter shots = keptAfter (shots.map wpRound) := by
  induction shots using List.reverseRecOn with
  | nil => rfl
  | append_singleton shots s ih =>
    have hstep : wpAfter (shots ++ [s]) = (wpTick s (wpAfter shots)).2 := by
      unfold wpAfter
      rw [lastOf_append]
      rfl
    rw [hstep, ih, wpTick_eq, List.map_append]
    unfold keptAfter
    rw [lastOf_append]
    rfl

/-! ## What is written -/

theorem startsWith_append (front rest : String) : startsWith (front ++ rest) front = true := by
  unfold startsWith
  rw [String.toList_append, List.isPrefixOf_iff_prefix]
  exact List.prefix_append _ _

theorem startsWith_quay (rest front : String) (h : front.toList.head? = some '블' ∨ front.toList.head? = some 'T') :
    startsWith ("안벽" ++ rest) front = false := by
  have hquay : "안벽".toList = ['안', '벽'] := by decide
  unfold startsWith
  rw [String.toList_append, hquay]
  cases hf : front.toList with
  | nil => rw [hf] at h; simp at h
  | cons c cs =>
    rw [hf] at h
    rcases h with h | h <;> rw [Option.some_inj.mp h] <;> rfl

/-- A reason of the quay, or of an RTG near by. -/
def SoonReason (reason : Option String) : Prop :=
  ∃ rest, reason = some ("안벽" ++ rest) ∨ reason = some ("블록 RTG 근접" ++ rest)

theorem soonReason_quay (topos tag : String) : SoonReason (some ("안벽 " ++ topos ++ " 핸드오버" ++ tag)) :=
  ⟨" " ++ (topos ++ (" 핸드오버" ++ tag)), Or.inl (by simp only [← String.append_assoc]; rfl)⟩

theorem soonReason_rtg (distance : String) : SoonReason (some ("블록 RTG 근접 " ++ distance)) :=
  ⟨" " ++ distance, Or.inr (by rw [← String.append_assoc]; rfl)⟩

theorem soonIdle_reason {sc : Scene} {p : Pos} (h : (classifyTt sc p).state = .soonIdle) :
    SoonReason (classifyTt sc p).reason := by
  have hloaded : classifyTt sc p = classifyLoaded sc p := by
    refine if_pos (by_contra fun hempty => ?_)
    have hstate : (classifyTt sc p).state.Empty := classifyTt_empty_iff.mpr (Bool.eq_false_iff.mpr hempty)
    rw [h] at hstate
    exact absurd hstate (by decide)
  rw [hloaded] at h ⊢
  unfold classifyLoaded at h ⊢
  dsimp only at h ⊢
  split_ifs at h ⊢ with _ _ _ _ _ _ hnear
  · exact soonReason_quay _ _
  · exact soonReason_quay _ _
  · exact soonReason_quay _ _
  · cases hd : (nearestRtg sc p).map tenths with
    | none =>
      rw [hd] at hnear
      exact absurd hnear Bool.false_ne_true
    | some d => exact soonReason_rtg (metres d)

/-- A row of the first log comes from the position, never from the orders. -/
theorem soonRows_source {s : Shot} {r : PredRow} (h : r ∈ soonRows s) :
    (r.source = .both ∨ r.source = .gpsRtg ∨ r.source = .qcPlc) ∧ r.gpsWouldFire = true := by
  obtain ⟨⟨id, p⟩, -, hrow⟩ := List.mem_filterMap.mp h
  obtain ⟨-, hsoon, -, -, hsource⟩ := soonRowOf_eq_some hrow
  obtain ⟨rest, hreason | hreason⟩ := soonIdle_reason hsoon
  · have hquay : sourceOf ("안벽" ++ rest) (s.assigned id) = (.qcPlc, true) := by
      unfold sourceOf
      rw [startsWith_quay rest _ (Or.inl (by decide)), startsWith_quay rest _ (Or.inr (by decide)), startsWith_append]
      rfl
    rw [hreason, Option.getD_some, hquay] at hsource
    obtain ⟨h₁, h₂⟩ := Prod.mk.inj hsource
    exact ⟨Or.inr (Or.inr h₁), h₂⟩
  · have hrtg : sourceOf ("블록 RTG 근접" ++ rest) (s.assigned id) =
        if (s.assigned id).any AssignedJob.rtgActive then (.both, true) else (.gpsRtg, true) :=
      if_pos (startsWith_append _ _)
    rw [hreason, Option.getD_some, hrtg] at hsource
    split_ifs at hsource
    · obtain ⟨h₁, h₂⟩ := Prod.mk.inj hsource
      exact ⟨Or.inl h₁, h₂⟩
    · obtain ⟨h₁, h₂⟩ := Prod.mk.inj hsource
      exact ⟨Or.inr (Or.inl h₁), h₂⟩

theorem handover_row {s : Shot} {id c : String} {p : Pos} (hmem : (id, p) ∈ s.devices) (hfresh : freshTruck s.scene.now p)
    (hc : nonEmpty p.container1 = some c) (h : AtHandover s.scene p) :
    (id, c) ∈ (soonRound s).keys ∨ (id, c) ∈ (nearRound s).keys := by
  have htrip : tripContainer p (s.assigned id) = some c := by
    unfold tripContainer
    rw [hc]
    rfl
  rcases classifyTt_handover_iff.mpr h with hsoon | hnear
  · obtain ⟨r, hr, hrtrip⟩ := exists_soonRowOf hfresh hsoon htrip
    exact Or.inl (mem_keys.mpr ⟨r, List.mem_filterMap.mpr ⟨(id, p), hmem, hr⟩, hrtrip⟩)
  · obtain ⟨r, hr, hrtrip⟩ := exists_nearRowOf hfresh hnear htrip
    exact Or.inr (mem_keys.mpr ⟨r, List.mem_filterMap.mpr ⟨(id, p), hmem, hr⟩, hrtrip⟩)

/-- One of the two logs took a row of the trip, and the truck has been on the trip since. -/
def Written (trip : TripKey) (shots : List Shot) : Prop :=
  ∃ pre s post, shots = pre ++ s :: post ∧ (∀ y ∈ post, trip ∈ currentTrips y) ∧
    ((∃ r ∈ (soonTick s (soonAfter pre)).1.1, r.trip = trip) ∨ ∃ r ∈ (soonTick s (soonAfter pre)).1.2, r.trip = trip)

theorem written_of_soon {trip : TripKey} {shots : List Shot} (h : Since trip (shots.map soonRound)) : Written trip shots := by
  obtain ⟨pre, s, post, heq, hrow, hpost⟩ := h.logged_map
  refine ⟨pre, s, post, heq, fun y hy => List.mem_toFinset.mp (hpost y hy), Or.inl ?_⟩
  rw [soonAfter_eq, soonTick_eq]
  exact hrow

theorem written_of_near {trip : TripKey} {shots : List Shot} (h : Since trip (shots.map nearRound)) : Written trip shots := by
  obtain ⟨pre, s, post, heq, hrow, hpost⟩ := h.logged_map
  refine ⟨pre, s, post, heq, fun y hy => List.mem_toFinset.mp (hpost y hy), Or.inr ?_⟩
  rw [soonAfter_eq, soonTick_eq]
  exact hrow

/-- **The first time on a trip that a truck is about to be free.** In every run, a row is written exactly when its trip has had
none since the truck took up the trip, and likewise for a truck that waits for an RTG too far off; a row always comes from the
position; and a truck at its handover has by then a row of its trip in one of the two logs. -/
theorem soon_idle_first (before : List Shot) (s : Shot) :
    (∀ r, r ∈ (soonTick s (soonAfter before)).1.1 ↔ r ∈ soonRows s ∧ ¬ Since r.trip (before.map soonRound)) ∧
      (∀ r, r ∈ (soonTick s (soonAfter before)).1.2 ↔ r ∈ nearRows s ∧ ¬ Since r.trip (before.map nearRound)) ∧
      (∀ r ∈ (soonTick s (soonAfter before)).1.1,
        (r.source = .both ∨ r.source = .gpsRtg ∨ r.source = .qcPlc) ∧ r.gpsWouldFire = true) ∧
      ∀ id p c, (id, p) ∈ s.devices → freshTruck s.scene.now p → nonEmpty p.container1 = some c → AtHandover s.scene p →
        Written (id, c) (before ++ [s]) := by
  rw [soonAfter_eq, soonTick_eq]
  refine ⟨fun r => logged_iff _ (soonRound s), fun r => logged_iff _ (nearRound s), fun r hr => ?_,
    fun id p c hmem hfresh hc h => ?_⟩
  · exact soonRows_source ((logged_iff _ (soonRound s)).mp hr).1
  · rcases handover_row hmem hfresh hc h with hkey | hkey
    · apply written_of_soon
      rw [List.map_append]
      exact since_concat.mpr (Or.inl hkey)
    · apply written_of_near
      rw [List.map_append]
      exact since_concat.mpr (Or.inl hkey)

theorem tight_near {s : Shot} {t : Laden} (h : t ∈ ladens s) (htight : t.tight = true) : t.dist ≤ TIGHT_WP_M := by
  obtain ⟨⟨id, p⟩, -, hrow⟩ := List.mem_filterMap.mp h
  unfold ladenOf at hrow
  simp only [Option.bind_eq_bind, Option.bind_eq_some_iff, Option.pure_def, Option.some_inj] at hrow
  obtain ⟨-, -, jt, -, container, -, code, -, -, -, wp, -, rfl⟩ := hrow
  exact of_decide_eq_true (Bool.and_eq_true_iff.mp htight).1

theorem aheadOf_lt {s : Shot} {t : Laden} (h : t ∈ ladens s) (htight : t.tight = true) :
    aheadOf s t < (ladens s).countP fun o => o.tight && (o.jt == t.jt) := by
  obtain ⟨front, back, hsplit⟩ := List.append_of_mem h
  unfold aheadOf
  rw [hsplit, List.countP_append, List.countP_append, List.countP_cons, List.countP_cons]
  have hle : ∀ l : List Laden, l.countP (fun o => o.tight && (o.id != t.id && (o.jt == t.jt && s.scene.dist o.wp t.wp ≤ AHEAD_R_M))) ≤
      l.countP fun o => o.tight && (o.jt == t.jt) := by
    refine fun l => List.countP_mono_left fun o _ ho => ?_
    simp only [Bool.and_eq_true] at ho ⊢
    exact ⟨ho.1, ho.2.2.1⟩
  have hfront := hle front
  have hback := hle back
  simp only [bne_self_eq_false, Bool.false_and, Bool.and_false, htight, beq_self_eq_true, Bool.and_self]
  simp only [Bool.false_eq_true, if_false, if_true]
  omega

/-- **The first tight arrival on a trip.** In every run a row is written exactly when its trip has had none since the truck
took it up, so that between two rows of a trip there is a time at which the truck is not on it; a row is of a truck within
reach of the work point, with others of its job type ahead of it. -/
theorem wp_arrival_first (before : List Shot) (s : Shot) :
    (∀ a, a ∈ (wpTick s (wpAfter before)).1 ↔ a ∈ tightRows s ∧ ¬ Since a.trip (before.map wpRound)) ∧
      (∀ a ∈ (wpTick s (wpAfter before)).1, a.dist ≤ TIGHT_WP_M ∧
        a.ahead < (ladens s).countP fun o => o.tight && (o.jt == a.jobtype)) ∧
      ∀ between s' a a', a.trip = a'.trip → a ∈ (wpTick s (wpAfter before)).1 →
        a' ∈ (wpTick s' (wpAfter (before ++ s :: between))).1 → ∃ y ∈ between, a.trip ∉ (ladens y).map Laden.trip := by
  refine ⟨fun a => ?_, fun a ha => ?_, fun between s' a a' htrip ha ha' => ?_⟩
  · rw [wpAfter_eq, wpTick_eq]
    exact logged_iff _ (wpRound s)
  · rw [wpAfter_eq, wpTick_eq] at ha
    obtain ⟨t, ht, rfl⟩ := List.mem_map.mp ((logged_iff _ (wpRound s)).mp ha).1
    obtain ⟨ht, htight⟩ := List.mem_filter.mp ht
    exact ⟨tight_near ht htight, Int.ofNat_lt.mpr (aheadOf_lt ht htight)⟩
  · rw [wpAfter_eq, wpTick_eq] at ha ha'
    rw [List.map_append, List.map_cons] at ha'
    obtain ⟨y, hy, hno⟩ := logged_apart _ _ (wpRound s) (wpRound s') htrip ha ha'
    obtain ⟨z, hz, rfl⟩ := List.mem_map.mp hy
    exact ⟨z, hz, fun hmem => hno (List.mem_toFinset.mpr hmem)⟩

end TtAiops.Dispatch
