import TtAiops.Cycle.Legs
import TtAiops.Lib.Maps
import TtAiops.Lib.Tables

/-!
# Our pick beside that of TOS (`spawn_dispatch_compare`)

For every truck that TOS has sent to a work, the trucks are put back to where they were when it was sent, or failing that to
where they were last seen, and the nearest available one is our pick.

* `Scene`, `Row`, `compareRow` : what a tick reads, a row of `dispatch_compare_shadow`, and how it comes about;
* `Fair`, `compare_fair` : **both arrivals are of one pool of trucks, ours is the least of those that were available, and a truck
  of TOS is nearer only if it was not available**;
* `due`, `tick`, `run` : the works that are compared in a tick, the table after it, and the rows of a run;
* `compared_once` : **a work is compared once in twenty-one days, and the latest one of a truck at a queue is compared if it can be**.

The cost of a trip is that of the loaded road graph. A map is gone through in any order. The database has one time in a tick.
-/

namespace TtAiops.Dispatch.TosCompare
open TtAiops.Lib
open TtAiops.Cycle (blockPrefix)

/-! ## What a tick reads -/

/-- A row of `truck_pos_hist`; times in microseconds. -/
structure HistRow (P : Type) where
  ts : ℤ
  ytno : String
  pos : P
  state : Option String

/-- A row of `stage2_match_shadow`. -/
structure RecoRow where
  ts : ℤ
  ytno : String
  qc : Option String
  queuename : Option String
  contno : Option String
  matchTier : Option ℤ

/-- A row of `live_workpool`. -/
structure WorkRow where
  qc : Option String
  queuename : String
  jobtype : Option String
  ytno : Option String
  updTs : Option ℤ
  ytDisTs : Option ℤ
  ytTopos : Option String
  contno : Option String

/-- What a tick reads; `latestAt` and `recoFetchAt` are the clock, in milliseconds. -/
structure Scene (P : Type) where
  connected : Bool
  dbNow : ℤ
  latestAt : ℤ
  recoFetchAt : ℤ
  cost : P → P → Bool → ℤ
  hist : List (HistRow P)
  cranes : String → Option P
  centroids : String → Option P
  reco : List RecoRow
  work : List WorkRow

/-- A truck of a pool. -/
structure Seen (P : Type) where
  ytno : String
  pos : P
  state : String

/-- A work that TOS has sent a truck to. -/
structure Work where
  qc : String
  queue : String
  jobtype : String
  tosYtno : String
  tosUpd : ℤ
  tosDis : ℤ
  disRaw : Option ℤ
  ytTopos : Option String
  contno : Option String

inductive Reason
  | now
  | same
  | oursCloser
  | tosCloser
  deriving DecidableEq

/-- A row of `dispatch_compare_shadow`. -/
structure Row where
  ts : ℤ
  qc : String
  queue : String
  jobtype : String
  tosYtno : String
  tosArrival : Option ℤ
  ourYtno : String
  ourArrival : ℤ
  agree : Bool
  reason : Reason
  delta : Option ℤ
  tosUpd : ℤ
  t1Ver : ℕ
  t1Ts : ℤ
  recoYtno : Option String
  recoTs : Option ℤ
  recoSrc : Option String
  recoArrival : Option ℤ
  recoDelta : Option ℤ
  recoFree : Option Bool
  recoTier : Option ℤ

abbrev Key := String × String × String × ℤ

def Row.key (r : Row) : Key := (r.qc, r.queue, r.tosYtno, r.tosUpd)

def Work.key (w : Work) : Key := (w.qc, w.queue, w.tosYtno, w.tosUpd)

def Work.group (w : Work) : String × String × String := (w.qc, w.queue, w.tosYtno)

/-! ## One comparison -/

def LATEST_POS_MAX_AGE_S : ℤ := 360

def RECO_STANDING_S : ℤ := 150

def T1_SNAP_MAX_SKEW_S : ℤ := 180

def MINUTE : ℤ := 60 * 1000000

/-- `timestamp_millis`. -/
def millis (t : ℤ) : ℤ := t / 1000

def available (state : String) : Bool := state = "idle" ∨ state = "soon_idle" ∨ state = "wait_rtg"

section Compare

variable {P : Type} (iter : Finmap (fun _ : String => P × String) → List (String × P × String)) (s : Scene P)

/-- The last hour of positions. -/
def snaps : List (HistRow P) := s.hist.filter fun h => s.dbNow - 60 * MINUTE < h.ts

def HistRow.seen (h : HistRow P) : Seen P := ⟨h.ytno, h.pos, h.state.getD ""⟩

def snapAt (k : ℤ) : List (Seen P) := ((snaps s).filter fun h => millis h.ts = k).map HistRow.seen

/-- The time of the last snapshot that is not later than `t1`, and not much earlier. -/
def timeAt (t1 : ℤ) : Option ℤ :=
  (((snaps s).map fun h => millis h.ts).filter fun k => t1 - T1_SNAP_MAX_SKEW_S * 1000 ≤ k ∧ k ≤ t1).max?

def atT1 (t1 : ℤ) : Option (List (Seen P)) := (timeAt s t1).map (snapAt s)

def latestPos : Finmap fun _ : String => P × String :=
  insertAll ((((snaps s).filter fun h => s.latestAt - LATEST_POS_MAX_AGE_S * 1000 ≤ millis h.ts).mergeSort
    fun h h' => millis h.ts ≤ millis h'.ts).map fun h => (h.ytno, h.pos, h.state.getD ""))

def findTruck (pool : List (Seen P)) (ytno : String) : Option (Seen P) := pool.find? fun e => e.ytno = ytno

def coordOf (w : Work) : Option P :=
  if w.jobtype = "LD" then w.ytTopos.bind fun t => (s.centroids t).or (s.centroids (blockPrefix t))
  else (s.cranes w.qc).or (s.centroids w.qc)

def bestStep (cost : P → ℤ) (best : Option (String × ℤ)) (e : Seen P) : Option (String × ℤ) :=
  if available e.state then if best.all fun b => cost e.pos < b.2 then some (e.ytno, cost e.pos) else best else best

/-- The recommendation that stood at `t1`. -/
def standing (rows : List RecoRow) (t1 : ℤ) : Option RecoRow :=
  (rows.mergeSort fun r r' => millis r.ts ≤ millis r'.ts).reverse.find? fun r =>
    millis r.ts ≤ t1 ∧ t1 - millis r.ts ≤ RECO_STANDING_S * 1000

/-- The recommendations of the last quarter of an hour. -/
def recoRows : List RecoRow := s.reco.filter fun r => s.dbNow - 15 * MINUTE < r.ts

def recoOf (w : Work) (t1 : ℤ) : Option String × Option RecoRow :=
  if t1 - RECO_STANDING_S * 1000 ≥ s.recoFetchAt - 15 * 60 * 1000 + 5000 ∧ t1 ≤ s.recoFetchAt then
    match w.contno.bind fun c => standing ((recoRows s).filter fun r => r.contno = some c) t1 with
    | some r => (some "cont", some r)
    | none =>
      match standing ((recoRows s).filter fun r => r.qc = some w.qc ∧ r.queuename = some w.queue) t1 with
      | some r => (some "queue", some r)
      | none => (some "none", none)
  else (none, none)

def tosAtT1 (w : Work) : Option (Seen P) := (atT1 s (millis w.tosDis)).bind fun pool => findTruck pool w.tosYtno

/-- The trucks to pick from. -/
def pool (w : Work) : List (Seen P) :=
  if (tosAtT1 s w).isSome then (atT1 s (millis w.tosDis)).getD []
  else (iter (latestPos s)).map fun e => ⟨e.1, e.2.1, e.2.2⟩

/-- Where a truck is taken to be: in the snapshot, else where it was last seen. -/
def placeOf (w : Work) (ytno : String) : Option (P × String) :=
  (((atT1 s (millis w.tosDis)).bind fun pool => findTruck pool ytno).map fun e => (e.pos, e.state)).or
    ((latestPos s).lookup ytno)

def compareRow (w : Work) : Option Row := do
  let dest ← coordOf s w
  let cost := fun pos => s.cost pos dest (w.jobtype = "LD")
  let best ← (pool iter s w).foldl (bestStep cost) none
  let tosPos := ((tosAtT1 s w).map Seen.pos).or (((latestPos s).lookup w.tosYtno).map Prod.fst)
  let tosArrival := tosPos.map cost
  let agree : Bool := best.1 = w.tosYtno
  let reason :=
    if (tosAtT1 s w).isNone then .now
    else if agree then .same
    else if tosArrival.any fun t => best.2 < t then .oursCloser
    else .tosCloser
  let reco := recoOf s w (millis w.tosDis)
  let recoAt := reco.2.bind fun r => placeOf s w r.ytno
  let recoArrival := recoAt.map fun p => cost p.1
  return {
    ts := s.dbNow
    qc := w.qc
    queue := w.queue
    jobtype := w.jobtype
    tosYtno := w.tosYtno
    tosArrival := tosArrival
    ourYtno := best.1
    ourArrival := best.2
    agree := agree
    reason := reason
    delta := tosArrival.map fun t => t - best.2
    tosUpd := w.tosUpd
    t1Ver := if w.disRaw.isSome then 1 else 0
    t1Ts := w.tosDis
    recoYtno := reco.2.map RecoRow.ytno
    recoTs := reco.2.map RecoRow.ts
    recoSrc := reco.1
    recoArrival := recoArrival
    recoDelta := tosArrival.bind fun t => recoArrival.map fun r => t - r
    recoFree := recoAt.map fun p => available p.2
    recoTier := reco.2.bind RecoRow.matchTier }

/-! ## A tick -/

/-- The condition of the query: TOS has sent a truck. -/
def WorkRow.sent (r : WorkRow) : Bool :=
  (r.ytno.any fun y => y ≠ "") ∧ r.qc.isSome ∧ (r.jobtype = some "DS" ∨ r.jobtype = some "LD")

def WorkRow.work (r : WorkRow) : Option Work := do
  let qc ← r.qc
  let jobtype ← r.jobtype
  let ytno ← r.ytno
  let upd ← r.updTs
  return ⟨qc, r.queuename, jobtype, ytno, upd, r.ytDisTs.getD upd, r.ytDisTs, r.ytTopos, r.contno⟩

/-- The works that TOS has sent a truck to. A row without the time of its update is among the rows of the query (nulls come
first) and cannot be read, and then none is. -/
def works : List Work := ((s.work.filter WorkRow.sent).mapM WorkRow.work).getD []

/-- The latest work of each truck at each queue, of those that are not in the table. -/
def due (table : List Row) : List Work :=
  current Work.group (((works s).filter fun w => w.key ∉ table.map Row.key).mergeSort fun w w' => w.tosUpd ≤ w'.tosUpd)

/-- `ON CONFLICT DO NOTHING`. -/
def insertRow (table : List Row) (r : Row) : List Row := if r.key ∈ table.map Row.key then table else table ++ [r]

def PRUNE_AFTER : ℤ := 21 * 24 * 60 * MINUTE

/-- The rows that a tick works out, and the table after it. -/
def tick (table : List Row) : List Row × List Row :=
  if s.connected then
    let rows := (due s table).filterMap (compareRow iter s)
    (rows, (rows.foldl insertRow table).filter fun r => s.dbNow - PRUNE_AFTER ≤ r.ts)
  else ([], table)

/-- The rows of a run, and the table after it. -/
def step (acc : List Row × List Row) (s : Scene P) : List Row × List Row :=
  (acc.1 ++ (tick iter s acc.2).1, (tick iter s acc.2).2)

def run (ss : List (Scene P)) : List Row × List Row := ss.foldl (step iter) ([], [])

/-! ## What a row says -/

/-- The best of the available trucks of a pool. -/
structure Best (cost : P → ℤ) (l : List (Seen P)) (b : String × ℤ) : Prop where
  mem : ∃ e ∈ l, available e.state = true ∧ b = (e.ytno, cost e.pos)
  least : ∀ e ∈ l, available e.state = true → b.2 ≤ cost e.pos

/-- A truck that is in the snapshot, if ours is from it, and not in it, if ours is not. -/
def SameSource (w : Work) (ytno : String) : Prop :=
  (tosAtT1 s w).isSome = (((atT1 s (millis w.tosDis)).bind fun l => findTruck l ytno).isSome)

/-- What a row says of a pool. -/
structure Fair (w : Work) (dest : P) (r : Row) : Prop where
  best : Best (fun pos => s.cost pos dest (w.jobtype = "LD")) (pool iter s w) (r.ourYtno, r.ourArrival)
  tos : r.tosArrival = (findTruck (pool iter s w) w.tosYtno).map fun e => s.cost e.pos dest (w.jobtype = "LD")
  delta : r.delta = r.tosArrival.map fun t => t - r.ourArrival
  closer : r.reason = .tosCloser → ∀ t, r.tosArrival = some t → t ≤ r.ourArrival
  recoArrival : r.recoArrival = (r.recoYtno.bind (placeOf s w)).map fun p => s.cost p.1 dest (w.jobtype = "LD")
  recoFree : r.recoFree = (r.recoYtno.bind (placeOf s w)).map fun p => available p.2
  recoDelta : r.recoDelta = r.tosArrival.bind fun t => r.recoArrival.map fun a => t - a

theorem Best.concat {cost : P → ℤ} {l : List (Seen P)} {b : String × ℤ} {e : Seen P} (h : Best cost l b)
    (hle : available e.state = true → b.2 ≤ cost e.pos) : Best cost (l ++ [e]) b := by
  obtain ⟨e₀, he₀, hav₀, heq⟩ := h.mem
  refine ⟨⟨e₀, List.mem_append_left _ he₀, hav₀, heq⟩, fun e' he' hav' => ?_⟩
  rcases List.mem_append.mp he' with he' | he'
  · exact h.least e' he' hav'
  · obtain rfl := List.mem_singleton.mp he'
    exact hle hav'

theorem best_last {cost : P → ℤ} {l : List (Seen P)} {e : Seen P} (hav : available e.state = true)
    (hle : ∀ e' ∈ l, available e'.state = true → cost e.pos ≤ cost e'.pos) :
    Best cost (l ++ [e]) (e.ytno, cost e.pos) := by
  refine ⟨⟨e, List.mem_append_right _ List.mem_cons_self, hav, rfl⟩, fun e' he' hav' => ?_⟩
  rcases List.mem_append.mp he' with he' | he'
  · exact hle e' he' hav'
  · rw [List.mem_singleton.mp he']

theorem foldl_bestStep (cost : P → ℤ) (l : List (Seen P)) :
    (l.foldl (bestStep cost) none = none ∧ ∀ e ∈ l, available e.state = false) ∨
      ∃ b, l.foldl (bestStep cost) none = some b ∧ Best cost l b := by
  induction l using List.reverseRecOn with
  | nil => exact Or.inl ⟨rfl, fun e he => absurd he List.not_mem_nil⟩
  | append_singleton l e ih =>
    rw [List.foldl_concat]
    generalize l.foldl (bestStep cost) none = best at ih ⊢
    unfold bestStep
    cases hav : available e.state with
    | false =>
      rw [if_neg Bool.false_ne_true]
      rcases ih with ⟨hnone, hall⟩ | ⟨b, hb, hbest⟩
      · refine Or.inl ⟨hnone, fun e' he' => ?_⟩
        rcases List.mem_append.mp he' with he' | he'
        · exact hall e' he'
        · rw [List.mem_singleton.mp he', hav]
      · exact Or.inr ⟨b, hb, hbest.concat fun h => absurd (hav.symm.trans h) Bool.false_ne_true⟩
    | true =>
      rw [if_pos rfl]
      refine Or.inr ?_
      rcases ih with ⟨hnone, hall⟩ | ⟨b, hb, hbest⟩
      · rw [hnone, if_pos (by rfl)]
        exact ⟨_, rfl, best_last hav fun e' he' hav' => absurd ((hall e' he').symm.trans hav') Bool.false_ne_true⟩
      · rw [hb]
        by_cases hlt : cost e.pos < b.2
        · rw [if_pos (by simpa using hlt)]
          exact ⟨_, rfl, best_last hav fun e' he' hav' => hlt.le.trans (hbest.least e' he' hav')⟩
        · rw [if_neg (by simpa using hlt)]
          exact ⟨b, rfl, hbest.concat fun _ => not_lt.mp hlt⟩

variable {iter s}

/-- A work is not compared if it has no place, or no truck of the pool is available. -/
theorem compareRow_eq_none_iff {w : Work} :
    compareRow iter s w = none ↔ coordOf s w = none ∨ ∀ e ∈ pool iter s w, available e.state = false := by
  unfold compareRow
  cases hdest : coordOf s w with
  | none => exact iff_of_true rfl (Or.inl rfl)
  | some dest =>
    rw [Option.bind_eq_bind, Option.bind_some]
    rcases foldl_bestStep (fun pos => s.cost pos dest (w.jobtype = "LD")) (pool iter s w) with ⟨hnone, hall⟩ | ⟨b, hb, hbest⟩
    · dsimp only
      rw [hnone]
      exact iff_of_true rfl (Or.inr hall)
    · dsimp only
      rw [hb]
      refine iff_of_false (Option.some_ne_none _) ?_
      rintro (hnone | hall)
      · exact Option.some_ne_none _ hnone
      · obtain ⟨e, he, hav, -⟩ := hbest.mem
        exact Bool.false_ne_true ((hall e he).symm.trans hav)

theorem findTruck_iter (hiter : ∀ m k v, (k, v) ∈ iter m ↔ m.lookup k = some v) (m : Finmap fun _ : String => P × String)
    (ytno : String) : findTruck ((iter m).map fun e => ⟨e.1, e.2.1, e.2.2⟩) ytno =
      (m.lookup ytno).map fun v => ⟨ytno, v.1, v.2⟩ := by
  unfold findTruck
  cases hfind : List.find? (fun e : Seen P => e.ytno = ytno) ((iter m).map fun e => ⟨e.1, e.2.1, e.2.2⟩) with
  | none =>
    have hall := List.find?_eq_none.mp hfind
    cases hlook : m.lookup ytno with
    | none => rfl
    | some v =>
      exact absurd (decide_eq_true rfl) (hall _ (List.mem_map.mpr ⟨(ytno, v), (hiter m ytno v).mpr hlook, rfl⟩))
  | some e =>
    obtain ⟨⟨k, v⟩, hmem, rfl⟩ := List.mem_map.mp (List.mem_of_find?_eq_some hfind)
    have hk : k = ytno := by simpa using List.find?_some hfind
    subst hk
    rw [(hiter m k v).mp hmem]
    rfl

theorem tosPos_eq (hiter : ∀ m k v, (k, v) ∈ iter m ↔ m.lookup k = some v) (w : Work) :
    ((tosAtT1 s w).map Seen.pos).or (((latestPos s).lookup w.tosYtno).map Prod.fst) =
      (findTruck (pool iter s w) w.tosYtno).map Seen.pos := by
  unfold pool
  cases htos : tosAtT1 s w with
  | none =>
    rw [if_neg (by simp), findTruck_iter hiter]
    cases (latestPos s).lookup w.tosYtno <;> rfl
  | some e =>
    have hat : findTruck ((atT1 s (millis w.tosDis)).getD []) w.tosYtno = some e := by
      obtain ⟨l, hl, hfind⟩ := Option.bind_eq_some_iff.mp htos
      rw [hl]
      exact hfind
    rw [if_pos (by rfl), hat]
    rfl

theorem placeOf_eq (hiter : ∀ m k v, (k, v) ∈ iter m ↔ m.lookup k = some v) {w : Work} {ytno : String}
    (h : SameSource s w ytno) :
    placeOf s w ytno = (findTruck (pool iter s w) ytno).map fun e => (e.pos, e.state) := by
  unfold SameSource at h
  unfold placeOf pool
  cases hfind : (atT1 s (millis w.tosDis)).bind fun l => findTruck l ytno with
  | none =>
    rw [hfind] at h
    rw [if_neg (by simp [h]), findTruck_iter hiter]
    cases (latestPos s).lookup ytno <;> rfl
  | some e =>
    have hat : findTruck ((atT1 s (millis w.tosDis)).getD []) ytno = some e := by
      obtain ⟨l, hl, hl'⟩ := Option.bind_eq_some_iff.mp hfind
      rw [hl]
      exact hl'
    rw [hfind] at h
    rw [if_pos (by rw [h]; rfl), hat]
    rfl

theorem compareRow_fair (hiter : ∀ m k v, (k, v) ∈ iter m ↔ m.lookup k = some v) {w : Work} {r : Row}
    (h : compareRow iter s w = some r) : ∃ dest, coordOf s w = some dest ∧ Fair iter s w dest r := by
  unfold compareRow at h
  obtain ⟨dest, hdest, h⟩ := Option.bind_eq_some_iff.mp h
  obtain ⟨b, hb, h⟩ := Option.bind_eq_some_iff.mp h
  obtain rfl := Option.some_inj.mp h
  have hreco : ∀ o : Option RecoRow, (o.bind fun r => placeOf s w r.ytno) = (o.map RecoRow.ytno).bind (placeOf s w) := by
    intro o
    cases o <;> rfl
  rcases foldl_bestStep (fun pos => s.cost pos dest (w.jobtype = "LD")) (pool iter s w) with ⟨hnone, -⟩ | ⟨b', hb', hbest⟩
  · exact absurd (hb.symm.trans hnone) (Option.some_ne_none b)
  · obtain rfl := Option.some_inj.mp (hb.symm.trans hb')
    refine ⟨dest, hdest, hbest, ?_, rfl, ?_, ?_, ?_, rfl⟩
    · dsimp only
      rw [tosPos_eq hiter, Option.map_map]
      rfl
    · dsimp only
      intro hreason t ht
      rw [ht] at hreason
      split_ifs at hreason with hnone hagree hlt
      simpa using hlt
    · dsimp only
      rw [hreco]
    · dsimp only
      rw [hreco]

/-- The snapshot of a precise comparison is the last one up to the dispatch, and not much earlier. -/
theorem pool_snapshot {w : Work} (h : (tosAtT1 s w).isSome = true) :
    ∃ k, millis w.tosDis - T1_SNAP_MAX_SKEW_S * 1000 ≤ k ∧ k ≤ millis w.tosDis ∧ pool iter s w = snapAt s k ∧
      ∀ x ∈ snaps s, millis x.ts ≤ millis w.tosDis → millis x.ts ≤ k := by
  unfold pool
  rw [if_pos h]
  obtain ⟨e, he⟩ := Option.isSome_iff_exists.mp h
  obtain ⟨l, hl, -⟩ := Option.bind_eq_some_iff.mp he
  rw [hl]
  obtain ⟨k, hk, rfl⟩ := Option.map_eq_some_iff.mp hl
  obtain ⟨hmem, hmax⟩ := List.max?_eq_some_iff.mp hk
  obtain ⟨-, hrange⟩ := List.mem_filter.mp hmem
  have hbounds : millis w.tosDis - T1_SNAP_MAX_SKEW_S * 1000 ≤ k ∧ k ≤ millis w.tosDis := of_decide_eq_true hrange
  refine ⟨k, hbounds.1, hbounds.2, rfl, fun x hx hle => ?_⟩
  by_cases hearly : millis w.tosDis - T1_SNAP_MAX_SKEW_S * 1000 ≤ millis x.ts
  · exact hmax _ (List.mem_filter.mpr ⟨List.mem_map_of_mem hx, decide_eq_true ⟨hearly, hle⟩⟩)
  · exact (not_le.mp hearly).le.trans hbounds.1

/-- **The comparison is fair.** Our arrival is the least of the available trucks of a pool, and the arrival of the truck of TOS
is that of its place in the same pool: if it was available too, it is not sooner, and called closer only for a tie. So is a
recommended truck that was available and is taken from where ours is. A precise pool is the last snapshot before. -/
theorem compare_fair (hiter : ∀ m k v, (k, v) ∈ iter m ↔ m.lookup k = some v) {w : Work} {r : Row}
    (h : compareRow iter s w = some r) : ∃ dest, coordOf s w = some dest ∧ Fair iter s w dest r ∧
      (∀ e, findTruck (pool iter s w) w.tosYtno = some e → available e.state = true →
        ∃ d, r.delta = some d ∧ 0 ≤ d ∧ (r.reason = .tosCloser → d = 0)) ∧
      (∀ y, r.recoYtno = some y → SameSource s w y → r.recoFree = some true →
        ∃ a, r.recoArrival = some a ∧ r.ourArrival ≤ a ∧ ∀ d d', r.recoDelta = some d → r.delta = some d' → d ≤ d') ∧
      ((tosAtT1 s w).isSome = true → ∃ k, millis w.tosDis - T1_SNAP_MAX_SKEW_S * 1000 ≤ k ∧ k ≤ millis w.tosDis ∧
        pool iter s w = snapAt s k ∧ ∀ x ∈ snaps s, millis x.ts ≤ millis w.tosDis → millis x.ts ≤ k) := by
  obtain ⟨dest, hdest, hfair⟩ := compareRow_fair hiter h
  refine ⟨dest, hdest, hfair, fun e he hav => ?_, fun y hy hsame hfree => ?_, pool_snapshot⟩
  · have hle : r.ourArrival ≤ s.cost e.pos dest (w.jobtype = "LD") := hfair.best.least e (List.mem_of_find?_eq_some he) hav
    have htos : r.tosArrival = some (s.cost e.pos dest (w.jobtype = "LD")) := by
      rw [hfair.tos, he]
      rfl
    refine ⟨s.cost e.pos dest (w.jobtype = "LD") - r.ourArrival, ?_, sub_nonneg.mpr hle, fun hreason => ?_⟩
    · rw [hfair.delta, htos]
      rfl
    · rw [le_antisymm (hfair.closer hreason _ htos) hle, sub_self]
  · have hplace := placeOf_eq hiter hsame
    have hfree' := hfair.recoFree
    rw [hy, Option.bind_some, hplace, hfree] at hfree'
    obtain ⟨p, hp, hav⟩ := Option.map_eq_some_iff.mp hfree'.symm
    obtain ⟨e, he, rfl⟩ := Option.map_eq_some_iff.mp hp
    have hle : r.ourArrival ≤ s.cost e.pos dest (w.jobtype = "LD") := hfair.best.least e (List.mem_of_find?_eq_some he) hav
    have harrival : r.recoArrival = some (s.cost e.pos dest (w.jobtype = "LD")) := by
      rw [hfair.recoArrival, hy, Option.bind_some, hplace, he]
      rfl
    refine ⟨_, harrival, hle, fun d d' hd hd' => ?_⟩
    rw [hfair.recoDelta, harrival] at hd
    rw [hfair.delta] at hd'
    obtain ⟨t, ht, hd⟩ := Option.bind_eq_some_iff.mp hd
    obtain ⟨t', ht', rfl⟩ := Option.map_eq_some_iff.mp hd'
    obtain rfl := Option.some_inj.mp (ht.symm.trans ht')
    obtain rfl := Option.some_inj.mp hd
    exact sub_le_sub_left hle t

/-- Two idle trucks beside a crane, the further one sent to it. -/
def furtherSent : Scene ℤ where
  connected := true
  dbNow := 0
  latestAt := 0
  recoFetchAt := -1
  cost := fun a b _ => (a - b).natAbs
  hist := [⟨0, "T1", 2, some "idle"⟩, ⟨0, "T2", 7, some "idle"⟩]
  cranes := fun q => if q = "C1" then some 1 else none
  centroids := fun _ => none
  reco := []
  work := [⟨some "C1", "C1D", some "DS", some "T2", some 0, some 0, none, none⟩]

def furtherWork : Work := ⟨"C1", "C1D", "DS", "T2", 0, 0, some 0, none, none⟩

theorem compare_fair_further : ∃ r, compareRow (entriesBy (Equiv.refl String)) furtherSent furtherWork = some r ∧
    ∃ dest, coordOf furtherSent furtherWork = some dest ∧
      Fair (entriesBy (Equiv.refl String)) furtherSent furtherWork dest r := by
  have hsome : (compareRow (entriesBy (Equiv.refl String)) furtherSent furtherWork).isSome = true := by decide
  obtain ⟨r, hr⟩ := Option.isSome_iff_exists.mp hsome
  obtain ⟨dest, hdest, hfair, -⟩ := compare_fair (fun _ _ _ => mem_entriesBy (Equiv.refl String)) hr
  exact ⟨r, hr, dest, hdest, hfair⟩

/-! ## A run -/

/-- The table has the rows of the last twenty-one days, and no others than were written. -/
structure Kept (now : ℤ) (acc : List Row × List Row) : Prop where
  recent : ∀ r ∈ acc.1, now - PRUNE_AFTER ≤ r.ts → r ∈ acc.2
  written : acc.2 ⊆ acc.1
  apart : acc.1.Pairwise fun r r' => r.key = r'.key → r.ts + PRUNE_AFTER < r'.ts

theorem mem_due {table : List Row} {w : Work} (h : w ∈ due s table) :
    w ∈ works s ∧ w.key ∉ table.map Row.key := by
  unfold due at h
  obtain ⟨hw, hnew⟩ := List.mem_filter.mp (List.mem_mergeSort.mp (mem_of_mem_current h))
  exact ⟨hw, of_decide_eq_true hnew⟩

/-- Of the works that are not in the table the latest of each truck at each queue is due. -/
theorem exists_due {table : List Row} {w : Work} (hw : w ∈ works s) (hnew : w.key ∉ table.map Row.key) :
    ∃ w' ∈ due s table, w'.group = w.group ∧ w.tosUpd ≤ w'.tosUpd := by
  unfold due
  refine exists_current_le ?_ (List.mem_mergeSort.mpr (List.mem_filter.mpr ⟨hw, decide_eq_true hnew⟩))
  refine (List.pairwise_mergeSort (fun a b c hab hbc => ?_) (fun a b => ?_) _).imp of_decide_eq_true
  · exact decide_eq_true ((of_decide_eq_true hab).trans (of_decide_eq_true hbc))
  · rw [Bool.or_eq_true, decide_eq_true_iff, decide_eq_true_iff]
    exact le_total _ _

/-- A work that is due is the latest of its truck at its queue among those that are not in the table. -/
theorem le_of_mem_due {table : List Row} {w w' : Work} (h : w ∈ due s table) (hw' : w' ∈ works s)
    (hgroup : w'.group = w.group) (hnew : w'.key ∉ table.map Row.key) : w'.tosUpd ≤ w.tosUpd := by
  obtain ⟨w'', hdue, hgroup', hle⟩ := exists_due hw' hnew
  have hone : w'' = w := List.inj_on_of_nodup_map (nodup_current _) hdue h (hgroup'.trans hgroup)
  exact hone ▸ hle

theorem key_of_compareRow {w : Work} {r : Row} (h : compareRow iter s w = some r) : r.key = w.key ∧ r.ts = s.dbNow := by
  unfold compareRow at h
  obtain ⟨dest, -, h⟩ := Option.bind_eq_some_iff.mp h
  obtain ⟨b, -, h⟩ := Option.bind_eq_some_iff.mp h
  obtain rfl := Option.some_inj.mp h
  exact ⟨rfl, rfl⟩

/-- The rows of a tick are of works that are not in the table, no two of one. -/
theorem rows_of_due (table : List Row) :
    (((due s table).filterMap (compareRow iter s)).map Row.key).Nodup ∧
      ∀ r ∈ (due s table).filterMap (compareRow iter s), r.key ∉ table.map Row.key ∧ r.ts = s.dbNow := by
  have hgroups : (due s table).Pairwise fun w w' => w.group ≠ w'.group := List.pairwise_map.mp (nodup_current _)
  refine ⟨List.pairwise_map.mpr ?_, fun r hr => ?_⟩
  · refine List.pairwise_filterMap.mpr (hgroups.imp fun hne r hr r' hr' heq => hne ?_)
    have hkey := (key_of_compareRow hr).1.symm.trans (heq.trans (key_of_compareRow hr').1)
    unfold Work.key at hkey
    unfold Work.group
    obtain ⟨hqc, hkey⟩ := Prod.mk.inj hkey
    obtain ⟨hqueue, hkey⟩ := Prod.mk.inj hkey
    rw [hqc, hqueue, (Prod.mk.inj hkey).1]
  · obtain ⟨w, hw, hrow⟩ := List.mem_filterMap.mp hr
    obtain ⟨hkey, hts⟩ := key_of_compareRow hrow
    rw [hkey]
    exact ⟨(mem_due hw).2, hts⟩

theorem foldl_insertRow {table rows : List Row} (hnodup : (rows.map Row.key).Nodup)
    (hnew : ∀ r ∈ rows, r.key ∉ table.map Row.key) : rows.foldl insertRow table = table ++ rows := by
  induction rows generalizing table with
  | nil => exact (List.append_nil table).symm
  | cons r rows ih =>
    rw [List.map_cons, List.nodup_cons] at hnodup
    have hins : insertRow table r = table ++ [r] := by
      unfold insertRow
      rw [if_neg (hnew r List.mem_cons_self)]
    rw [List.foldl_cons, hins, ih hnodup.2, List.append_assoc, List.singleton_append]
    intro r' hr' hmem
    rw [List.map_append] at hmem
    rcases List.mem_append.mp hmem with hmem | hmem
    · exact hnew r' (List.mem_cons_of_mem _ hr') hmem
    · have hkey : r'.key = r.key := List.mem_singleton.mp hmem
      exact hnodup.1 (List.mem_map.mpr ⟨r', hr', hkey⟩)

theorem Kept.mono {now now' : ℤ} {acc : List Row × List Row} (h : Kept now acc) (hle : now ≤ now') : Kept now' acc where
  recent r hr hts := h.recent r hr ((sub_le_sub_right hle _).trans hts)
  written := h.written
  apart := h.apart

theorem kept_step {acc : List Row × List Row} (h : Kept s.dbNow acc) : Kept s.dbNow (step iter acc s) := by
  unfold step tick
  cases hconn : s.connected with
  | false =>
    rw [if_neg Bool.false_ne_true, List.append_nil]
    exact h
  | true =>
    have hrows : (((due s acc.2).filterMap (compareRow iter s)).map Row.key).Nodup ∧
        ∀ r ∈ (due s acc.2).filterMap (compareRow iter s), r.key ∉ acc.2.map Row.key ∧ r.ts = s.dbNow := rows_of_due acc.2
    obtain ⟨hnodup, hnew⟩ := hrows
    rw [if_pos rfl]
    dsimp only
    rw [foldl_insertRow hnodup fun r hr => (hnew r hr).1]
    refine ⟨fun r hr hts => ?_, fun r hr => ?_, ?_⟩
    · refine List.mem_filter.mpr ⟨?_, decide_eq_true hts⟩
      rcases List.mem_append.mp hr with hr | hr
      · exact List.mem_append_left _ (h.recent r hr hts)
      · exact List.mem_append_right _ hr
    · rcases List.mem_append.mp (List.mem_filter.mp hr).1 with hr | hr
      · exact List.mem_append_left _ (h.written hr)
      · exact List.mem_append_right _ hr
    · refine List.pairwise_append.mpr ⟨h.apart, ?_, fun r hr r' hr' hkey => ?_⟩
      · exact (List.pairwise_map.mp hnodup).imp fun hne hkey => absurd hkey hne
      · -- a row of the last twenty-one days is in the table
        obtain ⟨hnot, hts⟩ := hnew r' hr'
        rw [hts]
        by_contra hlate
        have hrecent : s.dbNow - PRUNE_AFTER ≤ r.ts := sub_le_iff_le_add.mpr (not_lt.mp hlate)
        exact hnot (List.mem_map.mpr ⟨r, h.recent r hr hrecent, hkey⟩)

theorem run_append_singleton (ss : List (Scene P)) : run iter (ss ++ [s]) = step iter (run iter ss) s := by
  unfold run
  rw [List.foldl_concat]

theorem kept_run {ss : List (Scene P)} {now : ℤ} (hclock : (ss.map Scene.dbNow ++ [now]).Pairwise (· ≤ ·)) :
    Kept now (run iter ss) := by
  induction ss using List.reverseRecOn generalizing now with
  | nil => exact ⟨fun r hr => absurd hr List.not_mem_nil, fun r hr => hr, List.Pairwise.nil⟩
  | append_singleton ss s ih =>
    rw [List.map_append] at hclock
    obtain ⟨hbefore, -, hlast⟩ := List.pairwise_append.mp hclock
    rw [run_append_singleton]
    exact (kept_step (ih hbefore)).mono (hlast s.dbNow (List.mem_append_right _ List.mem_cons_self) now List.mem_cons_self)

/-- **A work is compared once in twenty-one days.** At a tick a work that is listed has a row in the table already, or the latest
of its truck at its queue that has none gets one now, unless it has no place or no truck is available. -/
theorem compared_once {ss : List (Scene P)} (hclock : (ss.map Scene.dbNow ++ [s.dbNow]).Pairwise (· ≤ ·))
    (hconn : s.connected = true) :
    ((run iter (ss ++ [s])).1.Pairwise fun r r' => r.key = r'.key → r.ts + PRUNE_AFTER < r'.ts) ∧
      ∃ rows, (run iter (ss ++ [s])).1 = (run iter ss).1 ++ rows ∧ (∀ r ∈ rows, r.ts = s.dbNow) ∧
        ∀ w ∈ works s, (∃ r ∈ (run iter ss).2, r ∈ (run iter ss).1 ∧ r.key = w.key) ∨
          ∃ w' ∈ works s, w'.group = w.group ∧ w'.key ∉ (run iter ss).2.map Row.key ∧
            (∀ v ∈ works s, v.group = w.group → v.key ∉ (run iter ss).2.map Row.key → v.tosUpd ≤ w'.tosUpd) ∧
            ((∃ r ∈ rows, r.key = w'.key) ∨ coordOf s w' = none ∨ ∀ e ∈ pool iter s w', available e.state = false) := by
  have hkept : Kept s.dbNow (run iter ss) := kept_run hclock
  have htick : (tick iter s (run iter ss).2).1 = (due s (run iter ss).2).filterMap (compareRow iter s) := by
    unfold tick
    rw [if_pos hconn]
  rw [run_append_singleton]
  refine ⟨(kept_step hkept).apart, _, rfl, fun r hr => ?_, fun w hw => ?_⟩
  · rw [htick] at hr
    exact ((rows_of_due _).2 r hr).2
  by_cases hmem : w.key ∈ (run iter ss).2.map Row.key
  · obtain ⟨r, hr, hkey⟩ := List.mem_map.mp hmem
    exact Or.inl ⟨r, hr, hkept.written hr, hkey⟩
  · obtain ⟨w', hw', hgroup, -⟩ := exists_due hw hmem
    refine Or.inr ⟨w', (mem_due hw').1, hgroup, (mem_due hw').2, fun v hv hv' hnew => ?_, ?_⟩
    · exact le_of_mem_due hw' hv (hv'.trans hgroup.symm) hnew
    cases hrow : compareRow iter s w' with
    | none => exact Or.inr (compareRow_eq_none_iff.mp hrow)
    | some r =>
      rw [htick]
      exact Or.inl ⟨r, List.mem_filterMap.mpr ⟨w', hw', hrow⟩, (key_of_compareRow hrow).1⟩

/-- The truck was sent again, twice, and the first of these was never compared. -/
def sentAgain : Scene ℤ :=
  { furtherSent with
    dbNow := 1
    work := [⟨some "C1", "C1D", some "DS", some "T2", some 0, some 0, none, none⟩,
      ⟨some "C1", "C1D", some "DS", some "T2", some 5, some 0, none, none⟩,
      ⟨some "C1", "C1D", some "DS", some "T2", some 9, some 0, none, none⟩] }

def againWork (upd : ℤ) : Work := ⟨"C1", "C1D", "DS", "T2", upd, 0, some 0, none, none⟩

/-- The last one is compared. -/
theorem compared_once_again : ∃ rows, (run (entriesBy (Equiv.refl String)) ([furtherSent] ++ [sentAgain])).1 =
      (run (entriesBy (Equiv.refl String)) [furtherSent]).1 ++ rows ∧ ∃ r ∈ rows, r.key = (againWork 9).key := by
  obtain ⟨-, rows, hrows, -, hworks⟩ := @compared_once ℤ (entriesBy (Equiv.refl String)) sentAgain [furtherSent] (by decide) rfl
  refine ⟨rows, hrows, ?_⟩
  have hlisted : works sentAgain = [againWork 0, againWork 5, againWork 9] := rfl
  have htable : (run (entriesBy (Equiv.refl String)) [furtherSent]).2.map Row.key = [(againWork 0).key] := by
    have hdue : due furtherSent [] = [furtherWork] := by
      rw [due, show works furtherSent = [furtherWork] from rfl, List.filter_cons_of_pos (by decide), List.filter_nil,
        List.mergeSort_singleton]
      rfl
    rw [run, List.foldl_cons, List.foldl_nil, step, tick, if_pos (show furtherSent.connected = true from rfl)]
    dsimp only
    rw [hdue]
    decide +kernel
  have hnew : ∀ upd, upd ≠ 0 → (againWork upd).key ∉ (run (entriesBy (Equiv.refl String)) [furtherSent]).2.map Row.key := by
    intro upd hne
    rw [htable]
    simpa [againWork, Work.key] using hne
  rcases hworks (againWork 5) (by simp [hlisted]) with ⟨r, hr, -, hkey⟩ | ⟨w', hw', -, -, hlatest, hcompared⟩
  · exact absurd (hkey ▸ List.mem_map_of_mem hr) (hnew 5 (by decide))
  · have hle := hlatest (againWork 9) (by simp [hlisted]) rfl (hnew 9 (by decide))
    have hlast : w' = againWork 9 := by
      simp only [hlisted, List.mem_cons, List.not_mem_nil, or_false] at hw'
      rcases hw' with rfl | rfl | rfl
      · exact absurd hle (by decide)
      · exact absurd hle (by decide)
      · rfl
    subst hlast
    rcases hcompared with hrow | hnone | hbusy
    · exact hrow
    · exact absurd hnone (by decide)
    · exact absurd hbusy (by decide)

end Compare

end TtAiops.Dispatch.TosCompare
