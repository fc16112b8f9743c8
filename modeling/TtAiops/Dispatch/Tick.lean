import TtAiops.Lib.Runs
import TtAiops.Dispatch.Hold
import TtAiops.Stage2.Pipeline

/-!
# The tick of the dispatch loop (`spawn_stage2_shadow`)

A tick reads the feeds, restores the holds once after a start, swaps trucks that are on their way, releases holds and
assigns free trucks. What it sends it writes to `dispatch_sent` first.

* `Loop`, `Event`, `TickIn` : the state of the loop with its table, what a tick does to them, and what a tick reads;
* `pickSwaps`, `swapCands`, `swapRows`, `assignRows` : the swaps and the assignments of a tick;
* `sendRows` : a write, the holds it makes, and the rows it closes;
* `tickStages`, `tick` : the stages of a tick, and its effects one by one;
* `swapRows_not_held`, `assignRows_allowed` : a truck that is held gets no row, and no assignment gives a box away that
  is held.
-/

namespace TtAiops.Dispatch
open TtAiops.Lib TtAiops.Stage2

/-- The memory of the process and the table. `next` counts the drawn message ids, `clock` is the last time read from the
database. -/
structure Loop where
  held : Held
  restored : Bool
  table : List SentRecord
  next : ℕ
  clock : ℤ

inductive Event
  | wrote (rows : List SentRow) (sentMs : ℤ)
  | writeFailed
  | applied
  | closed
  | restored
  | cancelled
  | cleared
  | looked (listAsOfMs : Option ℤ) (sig : String → Option TosSig)
  | pruned

/-- A truck of the candidate pool with what `veh_info` says of it. -/
structure VehicleIn where
  ytno : String
  free : Bool
  remain : Option ℤ

/-- A work of the tick that has a pickup point and a time. -/
structure WorkIn where
  contno : Option String
  due : DueInput

/-- What a tick reads, and how its writes end. A write or a prune that is not done or fails has no time. -/
structure TickIn where
  connected : Bool
  freshness : Option (Option ℤ × Option ℤ)
  nowMs : ℤ
  openOk : Bool
  restoreClose : Bool
  sigs : Option (AList fun _ : String => TosSig)
  redir : AList fun _ : String => Option String
  located : String → Bool
  lastSwap : Option (String → Option ℤ)
  workRead : Bool
  trip : ℕ → ℕ → ℤ × ℤ
  lead : ℕ → ℤ
  need : String → Option ℤ
  swapAt : Option ℤ
  swapClose : Bool
  pruneAt : Option ℤ
  vehicles : List VehicleIn
  works : List WorkIn
  releaseClose : Bool
  poolMarginS : ℤ
  leg : ℕ → ℕ → ℤ × ℤ
  assignAt : Option ℤ
  assignClose : Bool

/-- A tick over fresh feeds, without trucks and works; runs on fixed inputs change its fields. -/
def idleTick : TickIn where
  connected := true
  freshness := some (some 0, some 0)
  nowMs := 0
  openOk := true
  restoreClose := true
  sigs := some ∅
  redir := ∅
  located := fun _ => true
  lastSwap := some fun _ => none
  workRead := true
  trip := fun _ _ => (0, 0)
  lead := fun _ => 0
  need := fun _ => none
  swapAt := none
  swapClose := true
  pruneAt := none
  vehicles := []
  works := []
  releaseClose := true
  poolMarginS := 0
  leg := fun _ _ => (0, 0)
  assignAt := none
  assignClose := true

/-- A tick in which truck `yt` is free, one box is due, and the assignment is written at `us`. -/
def assignTick (yt box : String) (nowMs us : ℤ) : TickIn :=
  { idleTick with
    nowMs := nowMs
    vehicles := [⟨yt, true, some 0⟩]
    works := [⟨some box, ⟨false, some 0, 1, true⟩⟩]
    assignAt := some us }

def letters (n : ℕ) : String := String.ofList (List.replicate (n + 1) 'a')

/-- The loop before its first tick, over an empty table. -/
def freshLoop : Loop := ⟨∅, false, [], 0, 0⟩

/-! ## Swaps -/

def swapIsFrozen (lastSwap lastFree : Option ℤ) : Bool := lastSwap.any fun s => lastFree.all (· < s)

def swapMakesLate (newArrMs oldArrMs needMs : ℤ) : Bool := needMs < newArrMs && oldArrMs < newArrMs

/-- A pair of `pick_swaps`. -/
structure SwapPick where
  i : ℕ
  j : ℕ
  ij : ℤ
  ji : ℤ
  gain : ℤ

/-- The pairs that gain enough, in the order they are found. -/
def swapPairs (own : List ℤ) (cross : ℕ → ℕ → Option ℤ) (minGain : ℤ) : List SwapPick :=
  (List.range own.length).flatMap fun i =>
    (List.range' (i + 1) (own.length - (i + 1))).filterMap fun j =>
      match cross i j, cross j i with
      | some ij, some ji =>
        let gain := own.getD i 0 + own.getD j 0 - ij - ji
        if minGain ≤ gain then some ⟨i, j, ij, ji, gain⟩ else none
      | _, _ => none

/-- The loop of `pick_swaps` over the sorted pairs. -/
def pickLoop : List SwapPick → (ℕ → Bool) → List SwapPick
  | [], _ => []
  | c :: cs, used =>
    if used c.i || used c.j then pickLoop cs used
    else c :: pickLoop cs (Function.update (Function.update used c.i true) c.j true)

def pickSwaps (own : List ℤ) (cross : ℕ → ℕ → Option ℤ) (minGain : ℤ) : List SwapPick :=
  pickLoop ((swapPairs own cross minGain).insertionSort fun a b =>
    b.gain < a.gain ∨ a.gain = b.gain ∧ (a.i < b.i ∨ a.i = b.i ∧ a.j ≤ b.j)) fun _ => false

def SWAP_MIN_GAIN_S : ℤ := 180

structure SwapCand where
  ytno : String
  contno : Option String

/-- `frozen`: swapped since the last free event, or held. Where the last swaps are not known, every truck is frozen. -/
def frozen (inp : TickIn) (held : Held) (yt : String) (sig : TosSig) : Bool :=
  (inp.lastSwap.map fun last => swapIsFrozen (last yt) sig.free).getD true || (held.lookup yt).isSome

/-- `id.starts_with("TT")`. -/
def isTruckId (yt : String) : Bool := ['T', 'T'].isPrefixOf yt.toList

/-- `swap_cands`: trucks dispatched and before their pickup, located, neither frozen nor held. -/
def swapCands (inp : TickIn) (held : Held) : List SwapCand :=
  ((inp.sigs.map AList.entries).getD []).filterMap fun e =>
    if !isTruckId e.1 || isFreeTos e.2 then none
    else (inp.redir.lookup e.1).bind fun contno =>
      if loaded e.2 then none
      else if inp.located e.1 && !frozen inp held e.1 e.2 then some ⟨e.1, contno⟩
      else none

/-- `cross`: the empty trip of candidate `i` to the work of candidate `j`, unless that makes the work late. -/
def swapCross (inp : TickIn) (cands : List SwapCand) (i j : ℕ) : Option ℤ :=
  ((cands[j]?.bind SwapCand.contno).bind inp.need).bind fun need =>
    let arrMs := fun p90 => inp.nowMs + (p90 + inp.lead j) * 1000
    if swapMakesLate (arrMs (inp.trip i j).2) (arrMs (inp.trip j j).2) need then none else some (inp.trip i j).1

/-- The rows of the picked swaps whose boxes are both known: either truck gets the other's box. -/
def swapRows (inp : TickIn) (held : Held) : List SentRow :=
  let cands := swapCands inp held
  if 2 ≤ cands.length then
    (pickSwaps ((List.range cands.length).map fun i => (inp.trip i i).1) (swapCross inp cands) SWAP_MIN_GAIN_S).flatMap
      fun p =>
        match cands[p.i]?, cands[p.j]? with
        | some a, some b =>
          match a.contno, b.contno with
          | some ca, some cb => [⟨.swap, a.ytno, cb⟩, ⟨.swap, b.ytno, ca⟩]
          | _, _ => []
        | _, _ => []
  else []

/-! ## Assignments -/

/-- The trucks that have an edge to work `oi`, with their costs. -/
def workEdges (inp : TickIn) (held : Held) (oi : ℕ) : List (ℕ × ℤ) :=
  inp.vehicles.zipIdx.filterMap fun x =>
    let contno := inp.works[oi]?.bind WorkIn.contno
    let holdOk := edgeAllowedByHold ((held.lookup x.1.ytno).map Hold.contno) contno
      (contno.any fun c => (heldBoxes held).contains c)
    let leg := inp.leg x.2 oi
    if holdOk && x.1.remain.isSome && leg.1 < 1800 then some (x.2, x.1.remain.getD 0 + leg.1 + leg.2) else none

/-- `truck_n`: the free trucks and those that will be free at a known time. -/
def truckN (vehicles : List VehicleIn) : ℤ :=
  (vehicles.filter fun v => v.free).length + (vehicles.filter fun v => !v.free && v.remain.isSome).length

/-- `driving`: the works that get slots in this tick. -/
def driving (inp : TickIn) : List (ℕ × ℤ) :=
  allocateDue (dueWorks (inp.nowMs + inp.poolMarginS * 1000) (inp.works.map WorkIn.due)) (truckN inp.vehicles)

/-- `new_rows`: the assigned pairs of free trucks that are not held. -/
def assignRows (inp : TickIn) (held : Held) : List SentRow :=
  (stage2Assign inp.vehicles.length (slotAll (driving inp)) (drivingEdges (workEdges inp held) (driving inp))).filterMap
    fun tw =>
      inp.vehicles[tw.1]?.bind fun v =>
        (inp.works[((driving inp).getD tw.2 (0, 0)).1]?.bind WorkIn.contno).bind fun c =>
          if v.free && !(held.lookup v.ytno).isSome then some ⟨.assign, v.ytno, c⟩ else none

/-! ## The stages of a tick -/

/-- `list_as_of_ms`: now less the age of the work list. -/
def listAsOfMs (inp : TickIn) : Option ℤ := (inp.freshness.bind Prod.snd).map fun t => inp.nowMs - t * 1000

/-- `workpool_stale_reason` gives no reason: the work list was read less than `WORKPOOL_MAX_AGE_S` ago. -/
def workpoolFresh (inp : TickIn) : Bool := (inp.freshness.bind Prod.fst).any (· ≤ 300)

/-- `close_sent`, which may fail. -/
def Loop.close (st : Loop) (ok : Bool) (closes : List (String × String)) : Loop :=
  if ok then { st with table := closeSent closes st.table } else st

/-- `write_sent`: the rows are in the table. -/
def Loop.write (st : Loop) (uuid : ℕ → String) (rows : List SentRow) (us : ℤ) : Loop :=
  { st with
    table := st.table ++ writeSent rows (newIds uuid st.next rows.length) us
    next := st.next + rows.length
    clock := us }

/-- `apply_written` of the rows written at `us`. -/
def Loop.applied (st : Loop) (uuid : ℕ → String) (rows : List SentRow) (us : ℤ) :
    Held × Option (List (String × String)) :=
  applyWritten st.held rows (some (newIds uuid st.next rows.length, millis us))

/-- `write_sent`, `apply_written` and `close_sent` for the rows of a writer. A write that fails has written nothing, as its
callers take it: a commit whose reply is lost is left out, since it changes nothing in the process and adds rows that only the
restore after the next start reads. -/
def sendRows (uuid : ℕ → String) (writtenAt : Option ℤ) (closeOk : Bool) (rows : List SentRow) (st : Loop) :
    List (Event × Loop) :=
  if rows = [] then []
  else
    match writtenAt with
    | none => [(.writeFailed, { st with held := (applyWritten st.held rows none).1 })]
    | some at' =>
      let us := max st.clock at'
      let r := st.applied uuid rows us
      let applied := { st.write uuid rows us with held := r.1 }
      [(.wrote rows (millis us), st.write uuid rows us), (.applied, applied),
        (.closed, applied.close closeOk (r.2.getD []))]

/-- The feeds: a tick without positions or with a stale work list is skipped. -/
def gateStage (inp : TickIn) : Stage Event Loop := fun _ => ([], inp.connected && workpoolFresh inp)

def cancel (r : SentRecord) : SentRecord := if r.released.isNone then { r with released := some "cancelled" } else r

/-- The restore at the start. `holdSent` is the switch `MATCH_HOLD_SENT`; without it the open rows are cancelled once
and nothing is held. -/
def restoreStage (holdSent : Bool) (inp : TickIn) : Stage Event Loop := fun st =>
  if holdSent then
    if st.restored then ([], true)
    else
      match restoreHolds (if inp.openOk then some (loadOpenSent st.table) else none) inp.nowMs with
      | none => ([], false)
      | some r =>
        ([(.closed, st.close inp.restoreClose r.2),
          (.restored, { st.close inp.restoreClose r.2 with held := r.1, restored := true })], true)
  else
    let cancelled := if !st.restored && inp.openOk then { st with table := st.table.map cancel, restored := true } else st
    ([(.cancelled, cancelled), (.cleared, { cancelled with held := ∅ })], true)

/-- The queries without which the tick is skipped. -/
def readStage (inp : TickIn) : Stage Event Loop := fun _ => ([], inp.sigs.isSome && inp.workRead)

def swapStage (uuid : ℕ → String) (holdSent : Bool) (inp : TickIn) : Stage Event Loop := fun st =>
  (if holdSent then sendRows uuid inp.swapAt inp.swapClose (swapRows inp st.held) st else [], true)

def pruneStage (inp : TickIn) : Stage Event Loop := fun st =>
  match inp.pruneAt with
  | none => ([], true)
  | some at' =>
    let us := max st.clock at'
    ([(.pruned, { st with table := st.table.filter fun r => us - 21 * 86400000000 ≤ r.writtenUs, clock := us })], true)

/-- Without trucks or works the tick ends here. -/
def poolStage (inp : TickIn) : Stage Event Loop := fun _ => ([], !inp.vehicles.isEmpty && !inp.works.isEmpty)

def sigOf (inp : TickIn) (yt : String) : Option TosSig := inp.sigs.bind (AList.lookup yt)

def releaseStage (holdSent : Bool) (inp : TickIn) : Stage Event Loop := fun st =>
  if holdSent then
    let r := releaseHeld st.held (listAsOfMs inp) (fun yt c => (inp.redir.lookup yt).join == some c)
      fun yt h => truckBusyAfter (sigOf inp yt) h.kind h.sentMs
    let released := { st with held := r.1 }
    ([(.looked (listAsOfMs inp) (sigOf inp), released), (.closed, released.close inp.releaseClose r.2)], true)
  else ([], true)

def assignStage (uuid : ℕ → String) (holdSent : Bool) (inp : TickIn) : Stage Event Loop := fun st =>
  (if holdSent then sendRows uuid inp.assignAt inp.assignClose (assignRows inp st.held) st else [], true)

def tickStages (uuid : ℕ → String) (holdSent : Bool) (inp : TickIn) : List (Stage Event Loop) :=
  [gateStage inp, restoreStage holdSent inp, readStage inp, swapStage uuid holdSent inp, pruneStage inp, poolStage inp,
    releaseStage holdSent inp, assignStage uuid holdSent inp]

/-- The effects of a tick. -/
def tick (uuid : ℕ → String) (holdSent : Bool) (inp : TickIn) (st : Loop) : List (Event × Loop) :=
  runStages (tickStages uuid holdSent inp) st

def runTicks (uuid : ℕ → String) (holdSent : Bool) (inps : List TickIn) (st : Loop) : List (Event × Loop) :=
  runStages ((inps.map (tickStages uuid holdSent)).map stepStage) st

def Loop.restart (st : Loop) : Loop := { st with held := ∅, restored := false }

/-! ## What the stages do -/

@[simp] theorem write_held (st : Loop) (uuid : ℕ → String) (rows : List SentRow) (us : ℤ) :
    (st.write uuid rows us).held = st.held := rfl

@[simp] theorem write_restored (st : Loop) (uuid : ℕ → String) (rows : List SentRow) (us : ℤ) :
    (st.write uuid rows us).restored = st.restored := rfl

@[simp] theorem close_held (st : Loop) (ok : Bool) (closes : List (String × String)) :
    (st.close ok closes).held = st.held := by
  unfold Loop.close
  split_ifs <;> rfl

@[simp] theorem close_restored (st : Loop) (ok : Bool) (closes : List (String × String)) :
    (st.close ok closes).restored = st.restored := by
  unfold Loop.close
  split_ifs <;> rfl

section Cases

variable {uuid : ℕ → String}

/-- A writer without rows does nothing, a failed write changes nothing, and a write has three effects. -/
theorem sendRows_cases (uuid : ℕ → String) (writtenAt : Option ℤ) (closeOk : Bool) (rows : List SentRow) (st : Loop) :
    sendRows uuid writtenAt closeOk rows st = [] ∨ sendRows uuid writtenAt closeOk rows st = [(.writeFailed, st)] ∨
      ∃ us, st.clock ≤ us ∧ writtenAt.isSome = true ∧ sendRows uuid writtenAt closeOk rows st =
        [(.wrote rows (millis us), st.write uuid rows us),
          (.applied, { st.write uuid rows us with held := (st.applied uuid rows us).1 }),
          (.closed, Loop.close { st.write uuid rows us with held := (st.applied uuid rows us).1 } closeOk
            ((st.applied uuid rows us).2.getD []))] := by
  unfold sendRows
  split_ifs with hnil
  · exact Or.inl rfl
  · cases writtenAt with
    | none => exact Or.inr (Or.inl rfl)
    | some at' => exact Or.inr (Or.inr ⟨max st.clock at', le_max_left _ _, rfl, rfl⟩)

/-- After the first restore the stage does nothing; a failed read ends the tick; otherwise the holds are restored. -/
theorem restoreStage_cases (inp : TickIn) (st : Loop) :
    (st.restored = true ∧ restoreStage true inp st = ([], true)) ∨
      (st.restored = false ∧ restoreStage true inp st = ([], false)) ∨
      ∃ held closes, st.restored = false ∧ restoreHolds (some (loadOpenSent st.table)) inp.nowMs = some (held, closes) ∧
        restoreStage true inp st = ([(.closed, st.close inp.restoreClose closes),
          (.restored, { st.close inp.restoreClose closes with held := held, restored := true })], true) := by
  unfold restoreStage
  cases hr : st.restored with
  | true => exact Or.inl ⟨rfl, by simp⟩
  | false =>
    right
    cases hopen : inp.openOk with
    | false => exact Or.inl ⟨rfl, by simp [restoreHolds]⟩
    | true => exact Or.inr ⟨_, _, rfl, rfl, by simp [restoreHolds]⟩

theorem pruneStage_cases (inp : TickIn) (st : Loop) :
    pruneStage inp st = ([], true) ∨ ∃ us, st.clock ≤ us ∧ pruneStage inp st =
      ([(.pruned, { st with table := st.table.filter fun r => us - 21 * 86400000000 ≤ r.writtenUs, clock := us })],
        true) := by
  unfold pruneStage
  cases inp.pruneAt with
  | none => exact Or.inl rfl
  | some at' => exact Or.inr ⟨max st.clock at', le_max_left _ _, rfl⟩

end Cases

/-! ## Who gets a row -/

theorem mem_swapCands {inp : TickIn} {held : Held} {c : SwapCand} (h : c ∈ swapCands inp held) :
    held.lookup c.ytno = none := by
  obtain ⟨e, -, he⟩ := List.mem_filterMap.mp h
  obtain ⟨-, he⟩ := (Option.ite_none_left_eq_some).mp he
  obtain ⟨contno, -, he⟩ := Option.bind_eq_some_iff.mp he
  split_ifs at he with _ hok
  obtain rfl := Option.some.inj he
  simp only [frozen, Bool.and_eq_true, Bool.not_eq_true', Bool.or_eq_false_iff, Option.isSome_eq_false_iff,
    Option.isNone_iff_eq_none] at hok
  exact hok.2.2

/-- A row of the swap step is for a candidate, of kind swap, with the box of another candidate. -/
theorem mem_swapRows {inp : TickIn} {held : Held} {r : SentRow} (h : r ∈ swapRows inp held) :
    r.kind = .swap ∧ (∃ c ∈ swapCands inp held, c.ytno = r.ytno) ∧
      ∃ c ∈ swapCands inp held, c.contno = some r.contno := by
  unfold swapRows at h
  simp only at h
  split_ifs at h
  · obtain ⟨p, -, hp⟩ := List.mem_flatMap.mp h
    split at hp
    · rename_i a b ha hb
      split at hp
      · rename_i ca cb hca hcb
        have hamem := List.mem_of_getElem? ha
        have hbmem := List.mem_of_getElem? hb
        rcases List.mem_cons.mp hp with rfl | hp
        · exact ⟨rfl, ⟨a, hamem, rfl⟩, ⟨b, hbmem, hcb⟩⟩
        · obtain rfl := List.mem_singleton.mp hp
          exact ⟨rfl, ⟨b, hbmem, rfl⟩, ⟨a, hamem, hca⟩⟩
      · exact absurd hp List.not_mem_nil
    · exact absurd hp List.not_mem_nil
  · exact absurd h List.not_mem_nil

/-- **A truck that is held gets no swap.** -/
theorem swapRows_not_held {inp : TickIn} {held : Held} {r : SentRow} (h : r ∈ swapRows inp held) :
    held.lookup r.ytno = none := by
  obtain ⟨-, ⟨c, hc, hyt⟩, -⟩ := mem_swapRows h
  rw [← hyt]
  exact mem_swapCands hc

theorem mem_workEdges {inp : TickIn} {held : Held} {oi t : ℕ} {c : ℤ} (h : (t, c) ∈ workEdges inp held oi) :
    ∃ v, inp.vehicles[t]? = some v ∧ edgeAllowedByHold ((held.lookup v.ytno).map Hold.contno)
      (inp.works[oi]?.bind WorkIn.contno)
      ((inp.works[oi]?.bind WorkIn.contno).any fun c => (heldBoxes held).contains c) = true := by
  obtain ⟨⟨v, t'⟩, hx, he⟩ := List.mem_filterMap.mp h
  simp only [Option.ite_none_right_eq_some, Bool.and_eq_true, Option.some.injEq, Prod.mk.injEq] at he
  obtain ⟨⟨⟨hok, -⟩, -⟩, rfl, -⟩ := he
  refine ⟨v, ?_, hok⟩
  obtain ⟨hlt, hv⟩ := List.mem_zipIdx' hx
  rw [List.getElem?_eq_getElem hlt, hv]

theorem assignSlots_edge {nTrucks : ℕ} {slotWpos : List ℕ} {edges : List Edge} {tw : ℕ × ℕ}
    (h : tw ∈ assignSlots nTrucks slotWpos edges) : ∃ c, (tw.1, tw.2, c) ∈ edges := by
  unfold assignSlots at h
  split_ifs at h
  · exact absurd h List.not_mem_nil
  · obtain ⟨ts, hts, rfl⟩ := List.mem_map.mp h
    exact ⟨_, mem_of_cOf_lt (of_decide_eq_true (List.mem_filter.mp hts).2)⟩

/-- **A truck that is held gets no assignment, and no assignment gives away a box that is held.** -/
theorem assignRows_allowed {inp : TickIn} {held : Held} {r : SentRow} (h : r ∈ assignRows inp held) :
    r.kind = .assign ∧ held.lookup r.ytno = none ∧ ∀ yt hold, held.lookup yt = some hold → hold.contno ≠ r.contno := by
  obtain ⟨tw, htw, he⟩ := List.mem_filterMap.mp h
  obtain ⟨v, hv, he⟩ := Option.bind_eq_some_iff.mp he
  obtain ⟨c, hc, he⟩ := Option.bind_eq_some_iff.mp he
  split_ifs at he with hok
  obtain rfl := Option.some.inj he
  have hnone : held.lookup v.ytno = none := by simpa using (Bool.and_eq_true_iff.mp hok).2
  refine ⟨rfl, hnone, fun yt hold hl heq => ?_⟩
  obtain ⟨cost, hedge⟩ := assignSlots_edge htw
  obtain ⟨v', hv', hallowed⟩ := mem_workEdges (mem_drivingEdges.mp hedge).2
  obtain rfl : v' = v := Option.some.inj (hv'.symm.trans hv)
  have hbox : c ∈ heldBoxes held := mem_heldBoxes.mpr ⟨yt, hold, hl, heq⟩
  rw [hnone, hc] at hallowed
  simp [edgeAllowedByHold, hbox] at hallowed

end TtAiops.Dispatch
