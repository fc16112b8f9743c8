import TtAiops.Lib.Runs
import TtAiops.TosAvail.Script

/-!
# One tick of the collector (`tick_tos_avail`)

* `Interval`, `Db` : the rows of `tos_avail_interval`, and the tables that a tick reads and writes;
* `writeTransition`, `writeAll` : a transition written into the intervals, and how many were skipped or closed nothing;
* `backTick`, `replayTick`, `freshTick`, `tick` : the ticks after the clock went back, with a usable anchor and without one.

The text of an anchor is taken as the anchor itself.
-/

namespace TtAiops.TosAvail
open TtAiops.Lib

/-- A row of `tos_avail_interval`. -/
structure Interval where
  ytno : String
  enterTs : ℤ
  exitTs : Option ℤ
  enterCause : Cause
  exitCause : Option Cause
  enterProgram : Option String
  exitProgram : Option String
  exitContno : Option String
  exitJobtype : Option String
  pool : Option String
  deriving DecidableEq

/-- The tables of the collector; of `tos_avail_check` only `as_of_ts` is read. -/
structure Db where
  intervals : List Interval
  anchor : Option Anchor
  checks : List ℤ

def Interval.isOpen (r : Interval) : Bool := r.exitTs = none

/-- The key of the table, or the index on the open interval of a truck, forbids the new row. -/
def conflicts (t : Transition) (r : Interval) : Bool := r.ytno = t.ytno ∧ (r.enterTs = t.ts ∨ r.isOpen)

def openInterval (snap : Snapshot) (t : Transition) : Interval where
  ytno := t.ytno
  enterTs := t.ts
  exitTs := none
  enterCause := t.cause
  exitCause := none
  enterProgram := t.program
  exitProgram := none
  exitContno := none
  exitJobtype := none
  pool := (snap.state.machines.lookup t.ytno).bind Machine.pool

def closes (t : Transition) (r : Interval) : Bool := r.ytno = t.ytno ∧ r.isOpen

def closeInterval (t : Transition) (r : Interval) : Interval :=
  { r with
    exitTs := some (max r.enterTs t.ts)
    exitCause := some t.cause
    exitProgram := t.program
    exitContno := t.contno
    exitJobtype := t.jobtype }

/-- `write_transition`: whether one row was written, and the intervals. -/
def writeTransition (snap : Snapshot) (t : Transition) (tbl : List Interval) : Bool × List Interval :=
  if t.enter then
    if tbl.any (conflicts t) then (false, tbl) else (true, tbl ++ [openInterval snap t])
  else (decide (tbl.countP (closes t) = 1), tbl.map fun r => if closes t r then closeInterval t r else r)

/-- The transitions written one after the other, and `n_desync`. -/
def writeAll (snap : Snapshot) : List Transition → List Interval → ℕ × List Interval
  | [], tbl => (0, tbl)
  | t :: ts, tbl =>
    let w := writeTransition snap t tbl
    let rest := writeAll snap ts w.2
    (if w.1 then rest.1 else rest.1 + 1, rest.2)

def MAX_REPLAY_S : ℤ := 900

def OVERLAP_S : ℤ := 120

def CLOCK_MARGIN_S : ℤ := 10

/-- `usable`: the anchor, if it is not too old. -/
def usable (anchor : Option Anchor) (now : ℤ) : Option Anchor :=
  anchor.filter fun a => (now - a.asOf).tdiv 1000000 ≤ MAX_REPLAY_S

def histFrom (anchor : Option ℤ) (now : ℤ) : ℤ :=
  match anchor with
  | some a => a - OVERLAP_S * 1000000
  | none => now - (OVERLAP_S + CLOCK_MARGIN_S) * 1000000

def fetchedScn (changes : List Change) : ℕ := (changes.map Change.scn).max?.getD 0

inductive Mode
  | back
  | replay
  | gap
  | init
  deriving DecidableEq

/-- What a tick fetches: its clock, the snapshot and the records. -/
structure TickIn where
  now : ℤ
  snap : Snapshot
  changes : List Change

structure TickOut where
  mode : Mode
  nDesync : ℕ
  nTrans : ℕ

/-- The row of `tos_avail_check`, unless there is one. -/
def insertCheck (asOf : ℤ) (checks : List ℤ) : List ℤ := if asOf ∈ checks then checks else checks ++ [asOf]

/-- The cut of an interval that reaches beyond the new snapshot. -/
def cutInterval (asOf : ℤ) (r : Interval) : Interval :=
  if r.exitTs.all fun x => asOf < x then { r with exitTs := some (max r.enterTs asOf), exitCause := some .gap } else r

/-- The clock of Oracle went back: the intervals are cut, the anchor is deleted. -/
def backTick (snap : Snapshot) (db : Db) : TickOut × Db :=
  (⟨.back, 0, 0⟩, ⟨db.intervals.map (cutInterval snap.asOf), none, insertCheck snap.asOf db.checks⟩)

def nextAnchor (snap : Snapshot) (scn : ℕ) (lastTs : ℤ) : Anchor :=
  ⟨snap.asOf, snap.state, scn, lastTs, some ⟨snap.lastOn, snap.lastOff⟩⟩

def replayTick (anchor : Anchor) (inp : TickIn) (db : Db) : TickOut × Db :=
  let r := replay anchor inp.changes inp.snap
  let w := writeAll inp.snap r.transitions db.intervals
  (⟨.replay, w.1, r.transitions.length⟩,
    ⟨w.2, some (nextAnchor inp.snap r.scn r.lastTs), insertCheck inp.snap.asOf db.checks⟩)

/-- An open interval closed at the last time that is known. -/
def gapInterval (known : Option ℤ) (r : Interval) : Interval :=
  if r.isOpen then { r with exitTs := some (max r.enterTs (known.getD r.enterTs)), exitCause := some .gap } else r

def initTransitions (snap : Snapshot) : List Transition :=
  (inOrder snap.state.freeSet).map fun y => ⟨y, snap.asOf, true, .init, none, none, none⟩

def freshTick (inp : TickIn) (db : Db) : TickOut × Db :=
  let known := (db.anchor.map Anchor.asOf).or db.checks.max?
  let ts := initTransitions inp.snap
  let w := writeAll inp.snap ts (db.intervals.map (gapInterval known))
  (⟨if db.anchor.isSome then .gap else .init, w.1, ts.length⟩,
    ⟨w.2, some (nextAnchor inp.snap (fetchedScn inp.changes) inp.snap.asOf), insertCheck inp.snap.asOf db.checks⟩)

/-- `tick_tos_avail`. -/
def tick (inp : TickIn) (db : Db) : TickOut × Db :=
  if db.anchor.any fun a => inp.snap.asOf ≤ a.asOf then backTick inp.snap db
  else
    match usable db.anchor inp.now with
    | some anchor => replayTick anchor inp db
    | none => freshTick inp db

def emptyDb : Db := ⟨[], none, []⟩

end TtAiops.TosAvail
