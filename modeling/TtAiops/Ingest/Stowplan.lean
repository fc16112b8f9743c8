import TtAiops.Ingest.Stream
import TtAiops.Lib.Ints
import TtAiops.Lib.Runs
import TtAiops.Lib.Tables
import TtAiops.Lib.Texts

/-!
# The stowage plan (`stowplan.rs`, `stowplan_delta.sql`, `stowplan_seed.sql`, `stowplan.sql`)

* `PlanRow`, `PlanEntry`, `Tick`, `PlanDb` : a row of the plan in TOS, a row of `live_stow_plan`, what a tick meets, and the
  tables that it writes;
* `srcStowplanSnapshot`, `srcStowplanDelta` : the two modes of a tick;
* `planAt`, `deltaTicks` : the plan after the first changes of its history, and the tables after ticks of the delta mode.

Instants are seconds since 1970.
-/

namespace TtAiops.Ingest.Stowplan
open TtAiops.Lib

abbrev Voyage := String × String

instance lawfulBEqVoyage : LawfulBEq Voyage := inferInstance

/-- `'D'`, `'L'`. -/
inductive DisLoad
  | discharge
  | load
  deriving DecidableEq

/-- A row of `VSP_SHIP` with `PLANST = 'P'` and `DISLOAD IN ('D', 'L')`. -/
structure PlanRow where
  voyage : Voyage
  queuename : Option String
  disload : DisLoad
  contno : Option String
  planseq : Option ℤ
  compdate : Option String
  upd : ℕ
  deriving DecidableEq

/-- The key of `live_stow_plan`. -/
structure PlanKey where
  voyage : Voyage
  contno : String
  disload : DisLoad
  deriving DecidableEq

/-- A row of `live_stow_plan`. -/
structure PlanEntry where
  key : PlanKey
  queuename : String
  planseq : Option ℤ
  deriving DecidableEq

/-- The tables that a tick writes: the mirror, and the watermarks of its stream. -/
structure PlanDb where
  mirror : List PlanEntry
  marks : List Mark

/-- What a tick meets: the active voyages, the day, how many changes of the plan are visible, and the order in which a query
returns its rows. -/
structure Tick where
  voyages : List Voyage
  day : ℤ
  seen : ℕ
  order : List PlanRow → List PlanRow
  order_perm : ∀ l, (order l).Perm l

def MAX_VOYAGES : ℕ := 40

def WM_FLOOR : ℤ := 0

def SAFETY_LAG_S : ℤ := 120

def Tick.used (t : Tick) : List Voyage := t.voyages.take MAX_VOYAGES

/-- `VSP_SHP_COMPDATE IS NULL`. -/
def PlanRow.pending (r : PlanRow) : Bool := r.compdate.isNone

def PlanRow.completed (r : PlanRow) : Bool := (r.compdate.map fun s => decide (Texts.trimmed s ≠ "")).getD false

/-- A queue name that is not empty. -/
def PlanRow.queue (r : PlanRow) : Option String := r.queuename.filter fun q => q ≠ ""

/-- The container name as the delta mode reads it, which the snapshot mode does not trim. -/
def PlanRow.box (r : PlanRow) : Option String := (r.contno.map Texts.trimmed).filter fun c => c ≠ ""

/-! ## The snapshot mode -/

def entryOf (r : PlanRow) (q c : String) : PlanEntry := ⟨⟨r.voyage, c, r.disload⟩, q, r.planseq.map asI32⟩

def snapshotRow (mirror : List PlanEntry) (r : PlanRow) : List PlanEntry :=
  match r.queuename, r.contno with
  | some q, some c => if q = "" ∨ c = "" then mirror else upsert PlanEntry.key mirror (entryOf r q c)
  | _, _ => mirror

/-- `stowplan.sql`. -/
def snapshotQuery (plan : List PlanRow) (used : List Voyage) : List PlanRow :=
  plan.filter fun r => r.pending ∧ r.voyage ∈ used

/-- `src_stowplan_snapshot`: what the mirror holds after it. -/
def srcStowplanSnapshot (plan : List PlanRow) (t : Tick) (mirror : List PlanEntry) : List PlanEntry :=
  if t.voyages = [] then mirror else (t.order (snapshotQuery plan t.used)).foldl snapshotRow []

/-! ## The delta mode -/

def readPlanMark (marks : List Mark) : Option ℤ := (marks.map Mark.last).max?

def seedVoyages (t : Tick) (db : PlanDb) : List Voyage :=
  if readPlanMark db.marks = none then []
  else t.used.filter fun v => !db.mirror.any fun e => e.key.voyage = v

/-- `stowplan_delta.sql`, with `stowplan_seed.sql` behind it. -/
def deltaQuery (plan : List PlanRow) (t : Tick) (db : PlanDb) : List PlanRow :=
  plan.filter (fun r => (readPlanMark db.marks).getD WM_FLOOR ≤ (r.upd : ℤ) ∧ r.voyage ∈ t.used) ++
    plan.filter fun r => r.pending ∧ r.voyage ∈ seedVoyages t db

def deltaRow (mirror : List PlanEntry) (r : PlanRow) : List PlanEntry :=
  match r.box with
  | none => mirror
  | some c =>
    if r.completed then mirror.filter fun e => e.key ≠ ⟨r.voyage, c, r.disload⟩
    else
      match r.queue with
      | none => mirror
      | some q => upsert PlanEntry.key mirror (entryOf r q c)

def srcStowplanDelta (plan : List PlanRow) (t : Tick) (db : PlanDb) : PlanDb :=
  if t.voyages = [] then db
  else
    let rows := t.order (deltaQuery plan t db)
    let mirror := if readPlanMark db.marks = none then db.mirror.filter fun e => e.key.voyage ∉ t.used else db.mirror
    { mirror := rows.foldl deltaRow mirror
      marks := match (rows.map PlanRow.upd).max? with
        | some mx => writeMark t.day (mx - SAFETY_LAG_S) db.marks
        | none => db.marks }

/-- The columns that tell the rows of the plan apart. -/
def PlanRow.id (r : PlanRow) : Voyage × Option String × DisLoad := (r.voyage, r.contno, r.disload)

/-- The plan after the first changes of its history. -/
def planAt (history : List PlanRow) (n : ℕ) : List PlanRow := current PlanRow.id (history.take n)

def deltaTicks (history : List PlanRow) (ticks : List Tick) (db : PlanDb) : PlanDb :=
  ticks.foldl (fun db t => srcStowplanDelta (planAt history t.seen) t db) db

end TtAiops.Ingest.Stowplan
