import TtAiops.Lib.Logs

/-!
# The list of trucks that TOS may dispatch, replayed (`tos_avail.rs`)

Once a minute the extractor reads one snapshot of TOS with the change records since the last one, and replays what
happened in between.

* `State`, `freeSet` : what the list is computed from, and the list;
* `Anchor`, `Change`, `Snapshot`, `Transition` : the last snapshot, a record of a row, the new snapshot, and a truck that
  enters or leaves the list;
* `applyTxn`, `diffInto` : one commit applied to the state, and the transitions from one list to the next;
* `Cursor`, `Op`, `opStep`, `runOps` : the replay, one step for each logon and each commit;
* `replayOps`, `replaySteps`, `replay` : logons and commits in the order in which they are applied, and the whole replay.
-/

namespace TtAiops.TosAvail
open TtAiops.Lib

abbrev HashMap (K V : Type) := Finmap fun _ : K => V

/-- `RowKey`: container, point and sequence number of a work order. -/
abbrev RowKey := String × String × String

def BUSY : List String := ["A", "B", "F", "R", "X", "Q"]

structure JobRow where
  ytno : Option String
  ys : String
  deriving DecidableEq

structure Machine where
  onoff : String
  pool : Option String
  deriving DecidableEq

structure State where
  rows : HashMap RowKey JobRow
  machines : HashMap String Machine
  stopped : Finset String
  deriving DecidableEq

def JobRow.busyTruck (r : JobRow) : Option String := if r.ys ∈ BUSY then r.ytno else none

def State.busy (s : State) : Finset String :=
  s.rows.keys.biUnion fun k => ((s.rows.lookup k).bind JobRow.busyTruck).toFinset

def Machine.isOn (m : Machine) : Bool := m.onoff = "O"

def State.isOn (s : State) (code : String) : Bool := (s.machines.lookup code).any Machine.isOn

def State.freeSet (s : State) : Finset String :=
  s.machines.keys.filter fun c => s.isOn c ∧ c ∉ s.stopped ∧ c ∉ s.busy

/-- `Logons`: the last login and the last logout of every truck. -/
structure Logons where
  lastOn : HashMap String ℤ
  lastOff : HashMap String ℤ

structure Anchor where
  asOf : ℤ
  state : State
  scn : ℕ
  lastTs : ℤ
  logons : Option Logons

/-- `Change`: what a row of the work orders held after a change. -/
structure Change where
  scn : ℕ
  ts : ℤ
  ty : Char
  key : RowKey
  ytno : Option String
  ys : String
  jobtype : Option String
  program : Option String
  deriving DecidableEq

structure Snapshot where
  asOf : ℤ
  state : State
  lastOn : HashMap String ℤ
  lastOff : HashMap String ℤ

/-- The causes of a transition, and of the end of an interval. -/
inductive Cause
  | login
  | late
  | release
  | logout
  | dispatch
  | reconcile
  | init
  | gap
  deriving DecidableEq

structure Transition where
  ytno : String
  ts : ℤ
  enter : Bool
  cause : Cause
  program : Option String
  contno : Option String
  jobtype : Option String
  deriving DecidableEq

structure Replay where
  transitions : List Transition
  replayFree : Finset String
  truthFree : Finset String
  nEvents : ℕ
  nTxn : ℕ
  nLate : ℕ
  nLogon : ℕ
  scn : ℕ
  lastTs : ℤ

def tyRank (ty : Char) : ℕ := if ty = 'U' then 0 else if ty = 'D' then 1 else 2

def stepTs (want last : ℤ) : ℤ := if last < want then want else last + 1

/-- `Blame`: the record that made a truck busy, and the one that set it free. -/
structure Blame where
  took : HashMap String Change
  freed : HashMap String Change

/-- The body of the loop of `apply_txn`. -/
def applyChange (x : State × Blame) (ev : Change) : State × Blame :=
  let freed := match (x.1.rows.lookup ev.key).bind JobRow.ytno with
    | some y =>
      let stillHolds := ev.ty ≠ 'D' ∧ ev.ytno = some y ∧ ev.ys ∈ BUSY
      if stillHolds then x.2.freed else x.2.freed.insert y ev
    | none => x.2.freed
  let took := if ev.ty ≠ 'D' ∧ ev.ys ∈ BUSY then
      match ev.ytno with
      | some y => x.2.took.insert y ev
      | none => x.2.took
    else x.2.took
  let rows := if ev.ty = 'D' then x.1.rows.erase ev.key else x.1.rows.insert ev.key ⟨ev.ytno, ev.ys⟩
  ({ x.1 with rows := rows }, ⟨took, freed⟩)

def applyTxn (cur : State) (evs : List Change) : State × Blame := evs.foldl applyChange (cur, ⟨∅, ∅⟩)

/-- `diff_into`: what it appends. -/
def diffInto (before after : Finset String) (ts : ℤ) (blame : Option Blame) (logonChanged : Finset String)
    (late : Bool) : List Transition :=
  (inOrder (after \ before)).map (fun y =>
    let ev := blame.bind fun b => b.freed.lookup y
    let cause := if y ∈ logonChanged then .login else if late then .late else .release
    { ytno := y
      ts := ts
      enter := true
      cause := cause
      program := if cause = .login then none else ev.bind Change.program
      contno := none
      jobtype := none }) ++
  (inOrder (before \ after)).map (fun y =>
    let ev := if y ∈ logonChanged then none else blame.bind fun b => b.took.lookup y
    { ytno := y
      ts := ts
      enter := false
      cause := if y ∈ logonChanged then .logout else if late then .late else .dispatch
      program := ev.bind Change.program
      contno := ev.map fun e => e.key.1
      jobtype := ev.bind Change.jobtype })

/-- A login or a logout. -/
structure Logon where
  ts : ℤ
  code : String
  on : Bool
  deriving DecidableEq

/-- `is_new`: without the logons of the anchor, from the second of the anchor on. -/
def isNew (asOf : ℤ) (seen : Option (HashMap String ℤ)) (c : String) (t : ℤ) : Bool :=
  match seen with
  | some m => m.lookup c ≠ some t
  | none => asOf - asOf % 1000000 ≤ t

/-- The entries of `last_on` or of `last_off` that are new. -/
def newLogons (anchor : Anchor) (snap : Snapshot) (seen : Option (HashMap String ℤ)) (last : HashMap String ℤ)
    (on : Bool) : List Logon :=
  (inOrder last.keys).filterMap fun c => (last.lookup c).bind fun t =>
    if t ≤ snap.asOf ∧ isNew anchor.asOf seen c t then some ⟨t, c, on⟩ else none

/-- Logons are sorted as the tuple of time, truck and direction. -/
def Logon.rank (l : Logon) : ℤ ×ₗ String ×ₗ Bool := toLex (l.ts, toLex (l.code, l.on))

def sortLogons (l : List Logon) : List Logon := l.insertionSort fun a b => a.rank ≤ b.rank

def logonList (anchor : Anchor) (snap : Snapshot) : List Logon :=
  sortLogons (newLogons anchor snap (anchor.logons.map Logons.lastOn) snap.lastOn true ++
    newLogons anchor snap (anchor.logons.map Logons.lastOff) snap.lastOff false)

/-- Records of one commit are sorted by time and kind. -/
def Change.rank (e : Change) : ℤ ×ₗ ℕ := toLex (e.ts, tyRank e.ty)

def sortChanges (evs : List Change) : List Change := evs.insertionSort fun a b => a.rank ≤ b.rank

/-- `txns`: the records after commit `scn`, by commit. -/
def txns (scn : ℕ) (changes : List Change) : List (ℕ × List Change) :=
  let fresh := changes.filter fun c => scn < c.scn
  (inOrder (fresh.map Change.scn).toFinset).map fun n => (n, fresh.filter fun c => c.scn = n)

def groupTs (evs : List Change) : ℤ := (evs.map Change.ts).max?.getD 0

/-- Where the replay is: the state, its list, the last time written, and the trucks that changed late so far. -/
structure Cursor where
  cur : State
  free : Finset String
  last : ℤ
  nLate : ℕ

/-- A step of the replay. -/
inductive Op
  | logon (l : Logon)
  | commit (evs : List Change)

/-- `apply_logon` on the machines. -/
def setOnoff (snap : Snapshot) (cur : State) (l : Logon) : State :=
  let pool := (snap.state.machines.lookup l.code).bind Machine.pool
  let m := (cur.machines.lookup l.code).getD ⟨"F", pool⟩
  { cur with machines := cur.machines.insert l.code { m with onoff := if l.on then "O" else "F" } }

/-- `apply_logon`: what it appends, and the cursor after it. -/
def applyLogon (asOf : ℤ) (snap : Snapshot) (l : Logon) (c : Cursor) : List Transition × Cursor :=
  let wasOn := c.cur.isOn l.code
  let cur := setOnoff snap c.cur l
  if wasOn = l.on then ([], { c with cur := cur })
  else
    let after := cur.freeSet
    if after ≠ c.free then
      let ts := stepTs (max l.ts asOf) c.last
      (diffInto c.free after ts none {l.code} false, { c with cur := cur, free := after, last := ts })
    else ([], { c with cur := cur })

/-- A commit of the loop of `replay`. -/
def applyCommit (asOf : ℤ) (evs : List Change) (c : Cursor) : List Transition × Cursor :=
  let gTs := groupTs evs
  let late := decide (gTs ≤ asOf)
  let txn := applyTxn c.cur evs
  let after := txn.1.freeSet
  if after ≠ c.free then
    let nLate := if late then c.nLate + (symmDiff after c.free).card else c.nLate
    let ts := stepTs (max gTs asOf) c.last
    (diffInto c.free after ts (some txn.2) ∅ late, ⟨txn.1, after, ts, nLate⟩)
  else ([], { c with cur := txn.1 })

def opStep (asOf : ℤ) (snap : Snapshot) : Op → Cursor → List Transition × Cursor
  | .logon l => applyLogon asOf snap l
  | .commit evs => applyCommit asOf evs

/-- The loop of `replay`: before each commit the logons that are earlier than its last record, the others at the end. -/
def replayOps : List (List Change) → List Logon → List Op
  | [], ls => ls.map .logon
  | evs :: groups, ls =>
    (ls.takeWhile fun l => l.ts < groupTs evs).map .logon ++
      .commit evs :: replayOps groups (ls.dropWhile fun l => l.ts < groupTs evs)

/-- A step with the cursor before and after it, and its transitions. -/
structure Step where
  op : Op
  before : Cursor
  out : List Transition
  after : Cursor

def runOps (asOf : ℤ) (snap : Snapshot) : List Op → Cursor → List Step
  | [], _ => []
  | op :: ops, c =>
    ⟨op, c, (opStep asOf snap op c).1, (opStep asOf snap op c).2⟩ :: runOps asOf snap ops (opStep asOf snap op c).2

def endCursor (c : Cursor) (steps : List Step) : Cursor := (steps.getLast?.map Step.after).getD c

def startCursor (anchor : Anchor) : Cursor := ⟨anchor.state, anchor.state.freeSet, max anchor.asOf anchor.lastTs, 0⟩

/-- The steps of `replay` up to the comparison with the snapshot. -/
def replaySteps (anchor : Anchor) (changes : List Change) (snap : Snapshot) : List Step :=
  runOps anchor.asOf snap
    (replayOps ((txns anchor.scn changes).map fun g => sortChanges g.2) (logonList anchor snap)) (startCursor anchor)

/-- The transitions that make `free` the list of the snapshot. -/
def reconcileInto (free truth : Finset String) (ts : ℤ) : List Transition :=
  (diffEdits free truth).map fun e => ⟨e.1, ts, e.2, .reconcile, none, none, none⟩

/-- The comparison with the snapshot at the end of `replay`: what it appends, and the last time written. -/
def reconcile (snap : Snapshot) (c : Cursor) : List Transition × ℤ :=
  let truth := snap.state.freeSet
  if truth ≠ c.free then
    let ts := stepTs snap.asOf c.last
    (reconcileInto c.free truth ts, ts)
  else ([], c.last)

def replay (anchor : Anchor) (changes : List Change) (snap : Snapshot) : Replay :=
  let groups := txns anchor.scn changes
  let steps := replaySteps anchor changes snap
  let fin := endCursor (startCursor anchor) steps
  { transitions := steps.flatMap Step.out ++ (reconcile snap fin).1
    replayFree := fin.free
    truthFree := snap.state.freeSet
    nEvents := (groups.map fun g => g.2.length).sum
    nTxn := groups.length
    nLate := fin.nLate
    nLogon := (logonList anchor snap).length
    scn := max ((changes.map Change.scn).max?.getD 0) anchor.scn
    lastTs := (reconcile snap fin).2 }

end TtAiops.TosAvail
