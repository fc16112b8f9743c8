import TtAiops.Lib.Ints
import TtAiops.Lib.Loops
import TtAiops.Lib.Timelines
import TtAiops.Lib.Utf8

/-!
# The timeline of a crane (`workpool.rs`)

A crane takes its queues one after the other, ship by ship. From the work of each queue come the time at which it is reached,
by the sums from the front, and the time by which it has to be done, by the sums from the ship's last queue. Instants are
nanoseconds, and the work is exact.

* `finishBy` : by when a ship has to be done;
* `order` : the queues in the order in which they are worked;
* `procs` : the work of each of them;
* `slots`, `header` : the timeline and the crane's header; `timeline` : both, unless a queue's name makes the loop panic;
* `SingleTimeline`, `single_timeline` : **the ships stand in blocks, the ship at work first; nobody is reached before those
  in front, nor due after those behind; and the header counts the queues up to its ship's last one**, whatever the names are
  that can be sliced.
-/

namespace TtAiops.Api.Workpool
open TtAiops.Lib

/-! ## What is read -/

def second : ℤ := 1000000000

def MAX_UTC : ℤ := 8210266876799 * second + 999999999

/-- `timestamp`: whole seconds, downwards. -/
def timestamp (t : ℤ) : ℤ := t / second

/-- `num_seconds`: whole seconds, towards zero. -/
def numSeconds (d : ℤ) : ℤ := d.tdiv second

/-- `round`, away from zero in the middle. -/
def roundI64 (x : ℚ) : ℤ := if 0 ≤ x then ⌊x + 1 / 2⌋ else ⌈x - 1 / 2⌉

/-- `QueueOut`, without what the timeline writes into it. -/
structure Queue where
  queuename : String
  vessel : String
  voyage : Option String
  seq : Option ℤ
  total : ℤ
  done : ℤ
  deriving DecidableEq

def Queue.remaining (q : Queue) : ℤ := max (q.total - q.done) 0

/-- `QcOut`: the crane, the ships of its moves and the queues. -/
structure Qc where
  qc : String
  vessels : List String
  queues : List Queue

/-- A row of `live_vessel_schedule`. -/
structure Sched where
  vessel : String
  voyage : String
  estdep : Option ℤ
  estwkc : Option ℤ
  actdep : Option ℤ

/-- A row of `learn_qc_move_time`. -/
structure MoveTime where
  qc : String
  jobtype : String
  shift : String
  medSec : Option ℤ

/-- A row of `learn_qc_wall_cadence`. -/
structure WallCadence where
  qc : String
  jobtype : String
  wallS : Option ℤ

/-- What `build_workpool` reads beside the queues; `as_of` is the instant of the snapshot. -/
structure World where
  sched : List Sched
  twinFrac : String → Option ℚ
  moveTimes : List MoveTime
  wallCadence : List WallCadence
  now : ℤ
  asOf : Option ℤ

variable (w : World) (c : Qc)

/-! ## The targets of the ships -/

/-- `sched_v`: departure and end of work of a voyage. -/
def schedV : String × String → Option (ℤ × Option ℤ) :=
  w.sched.foldl (fun m s =>
    match s.estdep with
    | none => m
    | some dep => Function.update m (s.vessel, s.voyage) (some (dep, s.estwkc))) fun _ => none

/-- `sched_fb`: without a voyage, a row that has not left comes first, then the earliest departure. -/
def schedFb : String → Option (Bool × ℤ × Option ℤ) :=
  w.sched.foldl (fun m s =>
    match s.estdep with
    | none => m
    | some dep =>
      match m s.vessel with
      | some (a, d, _) =>
        if toLex (a, d) ≤ toLex (s.actdep.isSome, dep) then m
        else Function.update m s.vessel (some (s.actdep.isSome, dep, s.estwkc))
      | none => Function.update m s.vessel (some (s.actdep.isSome, dep, s.estwkc))) fun _ => none

/-- `voy_v`: the first voyage among the queues of the ship. -/
def voyV (vessel : String) : Option String :=
  c.queues.findSome? fun q => if q.vessel = vessel then q.voyage else none

/-- Departure and end of work: those of the queue's own voyage, else the fallback of the ship. -/
def schedule (vessel : String) : Option (ℤ × Option ℤ) :=
  ((voyV c vessel).bind fun v => schedV w (vessel, v)).or ((schedFb w vessel).map fun x => x.2)

def FINISH_BUFFER_S : ℤ := 1800

/-- The target: the buffer before the departure, or the end of work if it is earlier and at most six hours before it. -/
def target (dep : ℤ) (wkc : Option ℤ) : ℤ :=
  let depTarget := dep - FINISH_BUFFER_S * second
  match wkc with
  | some k => if k < depTarget ∧ dep - k ≤ 6 * 3600 * second then k else depTarget
  | none => depTarget

/-- `finish_by_v`. It is only asked for ships that have a queue. -/
def finishBy (vessel : String) : Option ℤ := (schedule w c vessel).map fun x => target x.1 x.2

def depV (vessel : String) : Option ℤ := (schedule w c vessel).map Prod.fst

/-! ## The order of the queues -/

def activeVessel : Option String := c.vessels.head?

/-- `rank`: the ship at work, then by target, ships without one last; ships of one target by name. -/
def rank (vessel : String) : ℕ ×ₗ ℤ ×ₗ String :=
  toLex (if activeVessel c = some vessel then 0 else 1, toLex ((finishBy w c vessel).getD MAX_UTC, vessel))

def i32Max : ℤ := 2147483647

/-- What the queues are sorted by. -/
def key (q : Queue) : (ℕ ×ₗ ℤ ×ₗ String) ×ₗ ℤ := toLex (rank w c q.vessel, q.seq.getD i32Max)

/-- `idxs`: the queues in the order in which they are worked; queues of one key keep the order they have. -/
def order : List Queue := c.queues.insertionSort fun a b => key w c a ≤ key w c b

/-! ## The work of a queue -/

/-- `as char`: a byte is the character of its number. -/
def byteChar (b : UInt8) : Char := Char.ofNat b.toNat

/-- `parse_q`: the bay, deck or hold, and the job of a queue's name, by the bytes around its first dash. The slice of the bay
panics (`none`) if it ends inside a character. -/
def parseQ (qn : String) : Option (Option (String × Char × Char)) :=
  match Utf8.find ['-'] qn.toList with
  | none => some none
  | some dash =>
    if dash < 2 then some none
    else
      match (Utf8.bytes qn.toList)[dash - 1]?, (Utf8.bytes qn.toList)[dash + 1]? with
      | some dh, some job =>
        (Utf8.splitAt (dash - 1) qn.toList).map fun p => some (String.ofList p.1, byteChar dh, byteChar job)
      | _, _ => some none

/-- What `parse_q` returns, where it does. -/
def parsed (qn : String) : Option (String × Char × Char) := (parseQ qn).join

def DS_MOVE_S : ℚ := 90
def LD_MOVE_S : ℚ := 110
def BAY_CHANGE_S : ℚ := 180
def HATCH_DS_S : ℚ := 340
def HATCH_LD_S : ℚ := 390

/-- `cur_shift`: by the hour of the terminal. -/
def curShift : String :=
  let hour := ((timestamp w.now).tdiv 3600 + 8).tmod 24
  if 6 ≤ hour ∧ hour < 18 then "D" else "N"

/-- One insertion into `move_time`. -/
def insertTime (m : String × Char → Option ℚ) (qc jobtype : String) (s : Option ℤ) : String × Char → Option ℚ :=
  match s with
  | none => m
  | some s => Function.update m (qc, if jobtype = "LD" then 'L' else 'D') (some s)

/-- `move_time`: all shifts, over them the shift of now, over them the rhythm by the clock on the wall. -/
def moveTime : String × Char → Option ℚ :=
  let learned := ["ALL", curShift w].foldl (fun m pass =>
    w.moveTimes.foldl (fun m r => if r.shift = pass then insertTime m r.qc r.jobtype r.medSec else m) m) fun _ => none
  w.wallCadence.foldl (fun m r => insertTime m r.qc r.jobtype r.wallS) learned

/-- `move_factor`: two boxes of a twin are one move. -/
def moveFactor (vessel : String) : ℚ := 1 - max 0 (min ((w.twinFrac vessel).getD 0) 1) / 2

/-- The way from the queue before, and the hatch cover. -/
def transition (prev cur : Option (String × Char × Char)) (job : Char) : ℚ :=
  match prev, cur with
  | some (pb, pdh, _), some (cb, cdh, _) =>
    if pb ≠ cb then BAY_CHANGE_S
    else if job = 'L' ∧ pdh = 'H' ∧ cdh = 'D' then HATCH_LD_S
    else if job ≠ 'L' ∧ pdh = 'D' ∧ cdh = 'H' then HATCH_DS_S
    else 0
  | _, _ => 0

/-- The work of a queue in seconds; `prev` is where the crane stands. -/
def proc (prev : Option (String × Char × Char)) (q : Queue) : ℚ :=
  let cur := parsed q.queuename
  let job := (cur.map fun x => x.2.2).getD 'D'
  let moveS := (moveTime w (c.qc, job)).getD (if job = 'L' then LD_MOVE_S else DS_MOVE_S)
  let remaining := max q.remaining 0
  let p := remaining * moveFactor w q.vessel * moveS
  if 0 < remaining then p + transition prev cur job else p

/-- `procs`. The crane goes on to a completed queue as well. -/
def procsFrom : Option (String × Char × Char) → List Queue → List ℚ
  | _, [] => []
  | prev, q :: qs => proc w c prev q :: procsFrom (parsed q.queuename) qs

/-- `procs` of all the queues. -/
def procs : List ℚ := procsFrom w c none (order w c)

def movesN : List ℚ := (order w c).map fun q => (max q.remaining 0 : ℤ) * moveFactor w q.vessel

/-! ## The timeline -/

/-- `shift_breaks_between`: the ends of the shifts from `a` to `b`. -/
def shiftBreaksBetween (a b : ℤ) : ℤ := if b ≤ a then 0 else timestamp b / 28800 - timestamp a / 28800

def SHIFT_BREAK_S : ℤ := 500

/-- What the timeline writes into a queue. -/
structure Slot where
  queue : Queue
  timelinePos : ℤ
  workEta : Option ℤ
  etaBias : ℤ
  procS : Option ℤ
  deadline : Option ℤ
  paceBeforeN : Option ℤ
  paceTotalN : Option ℤ
  paceFinishBy : Option ℤ

def etaAnchor : ℤ := w.asOf.getD w.now

def suffix (k : ℕ) : ℚ := (suffixSums (procs w c)).getD k 0

def suffixN (k : ℕ) : ℚ := (suffixSums (movesN w c)).getD k 0

def lastOf (vessel : String) : Option ℕ := lastIndex Queue.vessel (order w c) vessel

/-- When the crane comes to a queue with this work before it. -/
def workEta (before : ℚ) : ℤ :=
  let raw := etaAnchor w + truncate before * second
  raw + shiftBreaksBetween (etaAnchor w) raw * SHIFT_BREAK_S * second

/-- The queue at the place `k`. A ship without a schedule takes its time, but gets no forecast. -/
def slot (k : ℕ) (q : Queue) : Slot :=
  match finishBy w c q.vessel with
  | none => ⟨q, k, none, 0, none, none, none, none, none⟩
  | some finish =>
    let last := (lastOf w c q.vessel).getD k
    { queue := q
      timelinePos := k
      workEta := some (workEta w (max (suffix w c 0 - suffix w c k) 0))
      etaBias := 0
      procS := some (truncate ((procs w c).getD k 0))
      deadline := some (finish - truncate (max (suffix w c (k + 1) - suffix w c (last + 1)) 0) * second)
      paceBeforeN := some (roundI64 (suffixN w c 0 - suffixN w c k))
      paceTotalN := some (roundI64 (suffixN w c 0 - suffixN w c (last + 1)))
      paceFinishBy := some finish }

/-- The queues with what is written into them, in the order of their places. -/
def slots : List Slot := (order w c).mapIdx (slot w c)

structure Header where
  estdep : Option ℤ
  workLeft : Option ℤ
  slack : Option ℤ
  deriving DecidableEq

def header : Header :=
  match activeVessel c with
  | none => ⟨none, none, none⟩
  | some vessel =>
    match finishBy w c vessel, lastOf w c vessel with
    | some finish, some last =>
      let need := max (suffix w c 0 - suffix w c (last + 1)) 0
      ⟨depV w c vessel, some (truncate need), some (numSeconds (finish - w.now) - truncate need)⟩
    | _, _ => ⟨none, none, none⟩

/-- The timeline of the crane, unless the loop over its queues panics: that comes before anything is written. -/
def timeline : Option (List Slot × Header) :=
  ((order w c).mapM fun q => parseQ q.queuename).map fun _ => (slots w c, header w c)

/-! ## The learned times -/

/-- The learned times are means of gaps between moves: they are not negative. -/
structure NonNeg : Prop where
  moveTimes : ∀ r ∈ w.moveTimes, ∀ s ∈ r.medSec, 0 ≤ s
  wallCadence : ∀ r ∈ w.wallCadence, ∀ s ∈ r.wallS, 0 ≤ s

variable {w c}

def TimesNonNeg (m : String × Char → Option ℚ) : Prop := ∀ k, ∀ t ∈ m k, 0 ≤ t

theorem TimesNonNeg.insertTime {m : String × Char → Option ℚ} (hm : TimesNonNeg m) (qc jobtype : String) {s : Option ℤ}
    (hs : ∀ t ∈ s, 0 ≤ t) : TimesNonNeg (insertTime m qc jobtype s) := by
  cases s with
  | none => exact hm
  | some s =>
    intro k t ht
    rw [Workpool.insertTime, Function.update_apply] at ht
    generalize (qc, if jobtype = "LD" then 'L' else 'D') = learned at ht
    split at ht
    · rw [← Option.some.inj ht]
      exact_mod_cast hs s rfl
    · exact hm k t ht

theorem NonNeg.moveTime (h : NonNeg w) : TimesNonNeg (moveTime w) := by
  unfold Workpool.moveTime
  refine List.foldlRecOn (motive := TimesNonNeg) w.wallCadence _ ?_ ?_
  · refine List.foldlRecOn (motive := TimesNonNeg) ["ALL", curShift w] _ ?_ ?_
    · intro k t ht
      cases ht
    · intro m hm pass _
      refine List.foldlRecOn (motive := TimesNonNeg) w.moveTimes _ hm ?_
      intro m hm r hr
      split
      · exact hm.insertTime r.qc r.jobtype (h.moveTimes r hr)
      · exact hm
  · intro m hm r hr
    exact hm.insertTime r.qc r.jobtype (h.wallCadence r hr)

/-! ## The work of a queue -/

theorem moveFactor_nonneg (vessel : String) : 0 ≤ moveFactor w vessel := by
  have hclamp : max 0 (min ((w.twinFrac vessel).getD 0) 1) ≤ 1 := max_le zero_le_one (min_le_right _ _)
  unfold moveFactor
  linarith

theorem transition_nonneg (prev cur : Option (String × Char × Char)) (job : Char) : 0 ≤ transition prev cur job := by
  unfold transition
  split
  · split_ifs <;> norm_num [BAY_CHANGE_S, HATCH_LD_S, HATCH_DS_S]
  · exact le_rfl

theorem proc_nonneg (h : NonNeg w) (prev : Option (String × Char × Char)) (q : Queue) : 0 ≤ proc w c prev q := by
  unfold proc
  dsimp only
  set job := ((parsed q.queuename).map fun x => x.2.2).getD 'D'
  have hmove : 0 ≤ (moveTime w (c.qc, job)).getD (if job = 'L' then LD_MOVE_S else DS_MOVE_S) := by
    cases ht : moveTime w (c.qc, job) with
    | none => rw [Option.getD_none]; split_ifs <;> norm_num [LD_MOVE_S, DS_MOVE_S]
    | some t => exact h.moveTime _ t ht
  have hremaining : (0 : ℚ) ≤ (max q.remaining 0 : ℤ) := by exact_mod_cast le_max_right _ _
  have hwork := mul_nonneg (mul_nonneg hremaining (moveFactor_nonneg (w := w) q.vessel)) hmove
  split
  · exact add_nonneg hwork (transition_nonneg prev _ job)
  · exact hwork

/-- A completed queue takes no time: there is nothing to lift, and the crane does not go there. -/
theorem proc_completed {q : Queue} (h : q.remaining = 0) (prev : Option (String × Char × Char)) : proc w c prev q = 0 := by
  unfold proc
  simp [h]

/-- A queue's work starts from where the queue before it is, completed or not. -/
theorem procsFrom_eq_zipWith (prev : Option (String × Char × Char)) (qs : List Queue) :
    procsFrom w c prev qs = List.zipWith (proc w c) (prev :: qs.map fun q => parsed q.queuename) qs := by
  induction qs generalizing prev with
  | nil => rfl
  | cons q qs ih => rw [procsFrom, ih, List.map_cons, List.zipWith_cons_cons]

theorem procs_eq_zipWith :
    procs w c = List.zipWith (proc w c) (none :: (order w c).map fun q => parsed q.queuename) (order w c) :=
  procsFrom_eq_zipWith none (order w c)

@[simp] theorem procs_length : (procs w c).length = (order w c).length := by simp [procs_eq_zipWith]

theorem procs_nonneg (h : NonNeg w) : ∀ p ∈ procs w c, 0 ≤ p := by
  intro p hp
  rw [procs_eq_zipWith] at hp
  obtain ⟨k, hk, rfl⟩ := List.getElem_of_mem hp
  rw [List.getElem_zipWith]
  exact proc_nonneg h _ _

theorem procs_completed {k : ℕ} (hk : k < (order w c).length) (h : (order w c)[k].remaining = 0) :
    (procs w c)[k]? = some 0 := by
  rw [procs_eq_zipWith, List.getElem?_zipWith, List.getElem?_eq_getElem hk,
    List.getElem?_eq_getElem (by simp; omega)]
  exact congrArg some (proc_completed h _)

/-! ## The blocks -/

theorem order_perm : (order w c).Perm c.queues := List.perm_insertionSort _ _

theorem order_sorted : (order w c).Pairwise (fun a b => rank w c a.vessel ≤ rank w c b.vessel) := by
  have hkey : (order w c).Pairwise (fun a b => key w c a ≤ key w c b) := List.pairwise_insertionSort _ _
  apply hkey.imp
  intro a b h
  obtain hlt | ⟨heq, _⟩ := Prod.Lex.le_iff.mp h
  · exact le_of_lt hlt
  · exact le_of_eq heq

theorem rank_injective : Function.Injective (rank w c) := by
  intro v v' h
  unfold rank at h
  have hsnd := (Prod.mk.inj (toLex.injective h)).2
  exact (Prod.mk.inj (toLex.injective hsnd)).2

theorem order_block {i j k : ℕ} (hij : i ≤ j) (hjk : j ≤ k) (hk : k < (order w c).length)
    (h : (order w c)[i].vessel = (order w c)[k].vessel) : (order w c)[j].vessel = (order w c)[i].vessel := by
  apply rank_injective (w := w) (c := c)
  show (fun q : Queue => rank w c q.vessel) (order w c)[j] = _
  apply eq_of_sorted order_sorted hij hjk hk
  rw [h]

theorem order_active {i j : ℕ} (hi : i < (order w c).length) (hj : j < (order w c).length) (hij : i ≤ j)
    (h : activeVessel c = some (order w c)[j].vessel) : activeVessel c = some (order w c)[i].vessel := by
  obtain rfl | hlt := Nat.eq_or_lt_of_le hij
  · exact h
  · have hle := List.pairwise_iff_getElem.mp (order_sorted (w := w) (c := c)) i j hi hj hlt
    have hfst : (if activeVessel c = some (order w c)[i].vessel then 0 else 1)
        ≤ (if activeVessel c = some (order w c)[j].vessel then 0 else 1) := Prod.Lex.monotone_fst _ _ hle
    rw [if_pos h] at hfst
    by_contra hother
    rw [if_neg hother] at hfst
    omega

/-! ## Arrival and deadline -/

theorem second_pos : 0 < second := by decide

theorem timestamp_mono : Monotone timestamp := fun _ _ h => Int.ediv_le_ediv second_pos h

theorem shiftBreaksBetween_mono (a : ℤ) : Monotone (shiftBreaksBetween a) := by
  intro b b' h
  have hshift : ∀ {x y : ℤ}, x ≤ y → timestamp x / 28800 ≤ timestamp y / 28800 := fun hxy =>
    Int.ediv_le_ediv (by norm_num) (timestamp_mono hxy)
  unfold shiftBreaksBetween
  split_ifs with hb hb'
  · exact le_rfl
  · have := hshift (le_of_not_ge hb')
    omega
  · omega
  · have := hshift h
    omega

/-- More work before the queue, a later arrival: a break that is charged to the earlier one is charged to the later too. -/
theorem workEta_mono : Monotone (workEta w) := by
  intro x y hxy
  unfold workEta
  dsimp only
  have hraw : etaAnchor w + truncate x * second ≤ etaAnchor w + truncate y * second := by
    have := mul_le_mul_of_nonneg_right (truncate_mono hxy) second_pos.le
    omega
  have hbreaks := shiftBreaksBetween_mono (etaAnchor w) hraw
  have hcharge := mul_le_mul_of_nonneg_right hbreaks (show 0 ≤ SHIFT_BREAK_S * second by decide)
  rw [mul_assoc, mul_assoc]
  exact add_le_add hraw hcharge

theorem suffix_anti (h : NonNeg w) : Antitone (suffix w c) := suffix_antitone (procs_nonneg h)

@[simp] theorem slot_queue (k : ℕ) (q : Queue) : (slot w c k q).queue = q := by
  unfold slot
  split <;> rfl

@[simp] theorem slot_timelinePos (k : ℕ) (q : Queue) : (slot w c k q).timelinePos = k := by
  unfold slot
  split <;> rfl

theorem slot_workEta (k : ℕ) (q : Queue) : (slot w c k q).workEta
    = (finishBy w c q.vessel).map fun _ => workEta w (max (suffix w c 0 - suffix w c k) 0) := by
  unfold slot
  split <;> simp [*]

theorem slot_deadline (k : ℕ) (q : Queue) : (slot w c k q).deadline
    = (finishBy w c q.vessel).map fun finish => finish
      - truncate (max (suffix w c (k + 1) - suffix w c ((lastOf w c q.vessel).getD k + 1)) 0) * second := by
  unfold slot
  split <;> simp [*]

@[simp] theorem slots_length : (slots w c).length = (order w c).length := List.length_mapIdx

theorem slots_getElem {k : ℕ} (hk : k < (slots w c).length) (hk' : k < (order w c).length) :
    (slots w c)[k] = slot w c k (order w c)[k] := List.getElem_mapIdx

theorem slots_queue : (slots w c).map Slot.queue = order w c := by
  apply List.ext_getElem (by simp)
  intro k hk hk'
  rw [List.getElem_map, slots_getElem (by simpa using hk) hk', slot_queue]

theorem lastOf_spec {k : ℕ} (hk : k < (order w c).length) : ∃ last, lastOf w c (order w c)[k].vessel = some last ∧
    k ≤ last ∧ ∃ hlast : last < (order w c).length, (order w c)[last].vessel = (order w c)[k].vessel := by
  obtain ⟨last, h⟩ := show ∃ last, lastIndex Queue.vessel (order w c) (order w c)[k].vessel = some last from exists_lastIndex hk
  obtain ⟨hlast, hbehind⟩ := lastIndex_eq_some.mp h
  exact ⟨last, h, hbehind k hk rfl, hlast⟩

/-- Behind the last queue of a ship with work left, the ship's queues take no time. -/
theorem suffix_last {k last : ℕ} (hlast : last < (order w c).length) (hk : k ≤ last)
    (hvessel : ∀ hk : k < (order w c).length, (order w c)[last].vessel = (order w c)[k].vessel)
    (h : ∀ j (hj : j < (order w c).length), k < j → (order w c)[j].vessel = (order w c)[last].vessel →
      (order w c)[j].remaining = 0) : suffix w c (k + 1) = suffix w c (last + 1) := by
  apply suffix_eq (by omega)
  intro j hkj hjlast hj
  have hj' : j < (order w c).length := by simpa using hj
  apply Option.some.inj
  rw [← List.getElem?_eq_getElem hj]
  apply procs_completed hj'
  apply h j hj' (by omega)
  rw [hvessel (by omega)]
  exact order_block (by omega) (by omega) hlast (hvessel (by omega)).symm

/-! ## The timeline as a whole -/

variable (w c) in
/-- What is right about the timeline of a crane. Places in it are those of `slots`, and `procs` has the work of each place. -/
structure SingleTimeline (slots : List Slot) (header : Header) : Prop where
  same : (slots.map Slot.queue).Perm c.queues
  position : ∀ k (hk : k < slots.length), slots[k].timelinePos = k
  forecast : ∀ k (hk : k < slots.length),
    (slots[k].workEta.isSome ↔ (finishBy w c slots[k].queue.vessel).isSome) ∧
      (slots[k].deadline.isSome ↔ (finishBy w c slots[k].queue.vessel).isSome)
  /-- The queues of a ship stand together. -/
  block : ∀ i j k (hij : i ≤ j) (hjk : j ≤ k) (hk : k < slots.length),
    slots[i].queue.vessel = slots[k].queue.vessel → slots[j].queue.vessel = slots[i].queue.vessel
  /-- Nobody stands before the ship at work. -/
  active : ∀ i j (hij : i ≤ j) (hj : j < slots.length),
    activeVessel c = some slots[j].queue.vessel → activeVessel c = some slots[i].queue.vessel
  /-- The crane does not come earlier to what is behind. -/
  eta : ∀ i j (hij : i ≤ j) (hj : j < slots.length),
    ∀ a ∈ slots[i].workEta, ∀ b ∈ slots[j].workEta, a ≤ b
  /-- Nothing of a ship is due after what is behind it. -/
  deadline : ∀ i j (hij : i ≤ j) (hj : j < slots.length),
    slots[i].queue.vessel = slots[j].queue.vessel →
      ∀ a ∈ slots[i].deadline, ∀ b ∈ slots[j].deadline, a ≤ b
  /-- The last queue with work left is due when the ship has to be done. -/
  last : ∀ k (hk : k < slots.length), 0 < slots[k].queue.remaining →
    (∀ j (hj : j < slots.length), k < j → slots[j].queue.vessel = slots[k].queue.vessel →
      slots[j].queue.remaining = 0) →
    slots[k].deadline = finishBy w c slots[k].queue.vessel
  /-- A completed queue takes no time. -/
  completed : ∀ k (hk : k < slots.length), slots[k].queue.remaining = 0 → (procs w c)[k]? = some 0
  /-- The header counts the queues up to the last one of the ship at work, and the slack is what is left besides. -/
  head : ∀ vessel finish last, activeVessel c = some vessel → finishBy w c vessel = some finish →
    ∀ hlast : last < slots.length, slots[last].queue.vessel = vessel →
    (∀ j (hj : j < slots.length), last < j → slots[j].queue.vessel ≠ vessel) →
    header.workLeft = some (truncate ((procs w c).take (last + 1)).sum) ∧
      header.slack = some (numSeconds (finish - w.now) - truncate ((procs w c).take (last + 1)).sum)

theorem slots_eta (h : NonNeg w) {i j : ℕ} (hij : i ≤ j) {q q' : Queue} {a b : ℤ} (ha : a ∈ (slot w c i q).workEta)
    (hb : b ∈ (slot w c j q').workEta) : a ≤ b := by
  rw [slot_workEta] at ha hb
  obtain ⟨_, _, rfl⟩ := Option.mem_map.mp ha
  obtain ⟨_, _, rfl⟩ := Option.mem_map.mp hb
  apply workEta_mono
  exact max_le_max_right 0 (sub_le_sub_left (suffix_anti h hij) _)

theorem slots_deadline (h : NonNeg w) {i j : ℕ} (hij : i ≤ j) (hj : j < (order w c).length)
    (hvessel : (order w c)[i].vessel = (order w c)[j].vessel) {a b : ℤ} (ha : a ∈ (slot w c i (order w c)[i]).deadline)
    (hb : b ∈ (slot w c j (order w c)[j]).deadline) : a ≤ b := by
  obtain ⟨last, hlast, _⟩ := lastOf_spec hj
  rw [slot_deadline, hvessel, hlast, Option.getD_some] at ha
  rw [slot_deadline, hlast, Option.getD_some] at hb
  obtain ⟨finish, hfinish, rfl⟩ := Option.mem_map.mp ha
  obtain ⟨finish', hfinish', rfl⟩ := Option.mem_map.mp hb
  obtain rfl : finish = finish' := Option.mem_unique hfinish hfinish'
  have hbehind : suffix w c (j + 1) - suffix w c (last + 1) ≤ suffix w c (i + 1) - suffix w c (last + 1) :=
    sub_le_sub_right (suffix_anti h (by omega)) _
  have hwork := mul_le_mul_of_nonneg_right (truncate_mono (max_le_max_right 0 hbehind)) second_pos.le
  omega

theorem slots_last {k : ℕ} (hk : k < (order w c).length)
    (h : ∀ j (hj : j < (order w c).length), k < j → (order w c)[j].vessel = (order w c)[k].vessel →
      (order w c)[j].remaining = 0) : (slot w c k (order w c)[k]).deadline = finishBy w c (order w c)[k].vessel := by
  obtain ⟨last, hlast, hklast, hlt, hvessel⟩ := lastOf_spec hk
  have hnone : suffix w c (k + 1) = suffix w c (last + 1) := by
    apply suffix_last hlt hklast (fun _ => hvessel)
    intro j hj hkj hj'
    exact h j hj hkj (hj'.trans hvessel)
  rw [slot_deadline, hlast, Option.getD_some, hnone, sub_self, max_self]
  simp

/-- The header's work is the sum of the work up to the ship's last queue. -/
theorem header_eq (h : NonNeg w) {vessel : String} {finish : ℤ} {last : ℕ} (hactive : activeVessel c = some vessel)
    (hfinish : finishBy w c vessel = some finish) (hlast : lastOf w c vessel = some last) :
    header w c = ⟨depV w c vessel, some (truncate ((procs w c).take (last + 1)).sum),
      some (numSeconds (finish - w.now) - truncate ((procs w c).take (last + 1)).sum)⟩ := by
  have hneed : max (suffix w c 0 - suffix w c (last + 1)) 0 = ((procs w c).take (last + 1)).sum := by
    rw [show suffix w c 0 - suffix w c (last + 1) = _ from suffix_zero_sub (procs w c) (last + 1)]
    apply max_eq_left
    apply List.sum_nonneg
    intro p hp
    exact procs_nonneg h p (List.mem_of_mem_take hp)
  unfold Workpool.header
  rw [hactive]
  dsimp only
  rw [hfinish, hlast]
  dsimp only
  rw [hneed]

theorem singleTimeline (h : NonNeg w) : SingleTimeline w c (slots w c) (header w c) := by
  have hqueue : ∀ {k} (hk : k < (slots w c).length) (hk' : k < (order w c).length),
      (slots w c)[k].queue = (order w c)[k] := fun hk hk' => by rw [slots_getElem hk hk', slot_queue]
  have hlen : (slots w c).length = (order w c).length := slots_length
  refine ⟨?_, ?_, ?_, ?_, ?_, ?_, ?_, ?_, ?_, ?_⟩
  · rw [slots_queue]
    exact order_perm
  · intro k hk
    rw [slots_getElem hk (by omega), slot_timelinePos]
  · intro k hk
    rw [slots_getElem hk (by omega), slot_queue, slot_workEta, slot_deadline, Option.isSome_map, Option.isSome_map]
    exact ⟨Iff.rfl, Iff.rfl⟩
  · intro i j k hij hjk hk heq
    rw [hqueue (by omega) (by omega), hqueue hk (by omega)] at heq
    rw [hqueue (by omega) (by omega), hqueue (by omega) (by omega)]
    exact order_block hij hjk (by omega) heq
  · intro i j hij hj hactive
    rw [hqueue hj (by omega)] at hactive
    rw [hqueue (by omega) (by omega)]
    exact order_active (by omega) (by omega) hij hactive
  · intro i j hij hj a ha b hb
    rw [slots_getElem (by omega) (by omega)] at ha hb
    exact slots_eta h hij ha hb
  · intro i j hij hj heq a ha b hb
    rw [hqueue (by omega) (by omega), hqueue hj (by omega)] at heq
    rw [slots_getElem (by omega) (by omega)] at ha hb
    exact slots_deadline h hij (by omega) heq ha hb
  · intro k hk _ hdone
    rw [slots_getElem hk (by omega), slot_queue]
    apply slots_last
    intro j hj hkj hvessel
    have := hdone j (by omega) hkj
    rw [hqueue (by omega) hj, hqueue hk (by omega)] at this
    exact this hvessel
  · intro k hk hdone
    rw [hqueue hk (by omega)] at hdone
    exact procs_completed (by omega) hdone
  · intro vessel finish last hactive hfinish hlast hvessel hbehind
    have hlastOf : lastOf w c vessel = some last := by
      apply lastIndex_eq_some.mpr
      refine ⟨⟨by omega, by rw [← hqueue hlast]; exact hvessel⟩, ?_⟩
      intro j hj hj'
      by_contra hlt
      apply hbehind j (by omega) (by omega)
      rw [hqueue (by omega) hj]
      exact hj'
    rw [header_eq h hactive hfinish hlastOf]
    exact ⟨rfl, rfl⟩

/-! ## The names of the queues -/

/-- The bay of a name can be sliced: in front of the first dash stands a character of one byte, or nothing is behind it. -/
def Sliceable (qn : String) : Prop :=
  ∀ front c rest, qn.toList = front ++ [c] ++ ['-'] ++ rest → '-' ∉ front ++ [c] → rest ≠ [] → c.utf8Size = 1

theorem parseQ_isSome_iff {qn : String} : (parseQ qn).isSome ↔ Sliceable qn := by
  rcases Utf8.find_spec ['-'] qn.toList with ⟨hnone, hno⟩ | ⟨name, behind, hsome, hfirst⟩
  · rw [parseQ, hnone]
    refine iff_of_true rfl fun front c rest heq _ _ => ?_
    exact absurd ⟨front ++ [c], rest, heq.symm⟩ hno
  · -- every decomposition at the first dash is this one
    have hunique : ∀ front c rest, qn.toList = front ++ [c] ++ ['-'] ++ rest → '-' ∉ front ++ [c] →
        name = front ++ [c] ∧ behind = rest := fun front c rest heq hdash =>
      hfirst.unique (heq ▸ Utf8.First.of_not_mem hdash rest)
    rw [parseQ, hsome]
    dsimp only
    split_ifs with hshort
    · refine iff_of_true rfl fun front c rest heq hdash _ => ?_
      obtain ⟨rfl, -⟩ := hunique front c rest heq hdash
      have hc := Char.utf8Size_pos c
      rw [Utf8.len_append, Utf8.len_cons, Utf8.len_nil] at hshort
      omega
    · have hlen : (Utf8.bytes qn.toList).length = Utf8.len name + 1 + Utf8.len behind := by
        rw [← Utf8.len, hfirst.occurs, Utf8.len_append, Utf8.len_append]
        rfl
      rw [List.getElem?_eq_getElem (show Utf8.len name - 1 < (Utf8.bytes qn.toList).length by omega)]
      cases hjob : (Utf8.bytes qn.toList)[Utf8.len name + 1]? with
      | none =>
        refine iff_of_true rfl fun front c rest heq hdash hrest => ?_
        obtain ⟨-, rfl⟩ := hunique front c rest heq hdash
        obtain ⟨d, rest', rfl⟩ := List.exists_cons_of_ne_nil hrest
        have hd := Char.utf8Size_pos d
        rw [List.getElem?_eq_none_iff, hlen, Utf8.len_cons] at hjob
        omega
      | some job =>
        obtain ⟨hlt, -⟩ := List.getElem?_eq_some_iff.mp hjob
        have hbehind : behind ≠ [] := by
          rintro rfl
          rw [hlen, Utf8.len_nil] at hlt
          omega
        obtain ⟨front, c, rfl⟩ : ∃ front c, name = front ++ [c] := by
          obtain ⟨front, c, hname⟩ := (List.eq_nil_or_concat name).resolve_left (by rintro rfl; exact hshort (by decide))
          exact ⟨front, c, by rw [hname, List.concat_eq_append]⟩
        have hcut : (Utf8.splitAt (Utf8.len (front ++ [c]) - 1) qn.toList).isSome ↔ c.utf8Size = 1 := by
          rw [hfirst.occurs, List.append_assoc, List.append_assoc]
          exact Utf8.splitAt_back front _ c
        dsimp only
        rw [Option.isSome_map, hcut]
        constructor
        · intro hc front' c' rest heq hdash _
          obtain ⟨hname, -⟩ := hunique front' c' rest heq hdash
          obtain ⟨-, hcc⟩ := List.append_inj' hname rfl
          obtain rfl := List.singleton_inj.mp hcc
          exact hc
        · exact fun h => h front c behind hfirst.occurs hfirst.not_mem hbehind

theorem timeline_eq_some_iff {t : List Slot × Header} :
    timeline w c = some t ↔ (∀ q ∈ c.queues, Sliceable q.queuename) ∧ t = (slots w c, header w c) := by
  have hall : ((order w c).mapM fun q => parseQ q.queuename).isSome ↔ ∀ q ∈ c.queues, Sliceable q.queuename := by
    rw [mapM_isSome_iff]
    exact forall_congr' fun q => by rw [order_perm.mem_iff, parseQ_isSome_iff]
  rw [← hall, timeline]
  cases (order w c).mapM fun q => parseQ q.queuename with
  | none => simp
  | some names => simp [eq_comm]

/-- The crane is at work on one ship; another waits, which has to leave before. -/
def twoShips : Qc :=
  ⟨"Z2", ["BWSS"], [⟨"10D-L", "MTMH", none, some 1, 80, 7⟩, ⟨"22D-D", "BWSS", some "26", some 1, 40, 40⟩,
    ⟨"22H-D", "BWSS", some "26", some 2, 200, 14⟩]⟩

/-- The schedules of both and one learned time. -/
def twoSchedules : World where
  sched := [⟨"MTMH", "8", some (30000 * second), none, none⟩, ⟨"BWSS", "26", some (60000 * second), none, none⟩]
  twinFrac := fun _ => none
  moveTimes := [⟨"Z2", "DS", "ALL", some 100⟩]
  wallCadence := []
  now := 20000 * second
  asOf := none

/-- A bay whose name ends with a character of three bytes. -/
def hangulBay : Qc := ⟨"Z2", ["BWSS"], [⟨"22D-D", "BWSS", some "26", some 1, 40, 40⟩, ⟨"10가-L", "BWSS", none, some 2, 80, 7⟩]⟩

end TtAiops.Api.Workpool
