import TtAiops.Lib.Runs
import TtAiops.Lib.Windows

/-!
# Streams of TOS rows behind a watermark (`qc_moves.rs`, `rtg_moves.rs`, `handover.rs`)

A poll reads the rows of TOS from its watermark on, up to the clock, and lands them in a log; the watermarks of a stream
are one row a day in `etl_watermark`, and the poll reads the greatest of them that is not ahead of the clock. Keys are the
instants that their texts of full width name, whose order as texts is their order in time; names are trimmed.

* `Row`, `LogRow`, `Mark`, `Db` : a row of TOS, what is landed of it, a row of `etl_watermark`, and the tables of a stream;
* `Stream`, `Poll` : what differs from stream to stream, and what a poll meets;
* `readMark`, `fetch`, `landRows`, `writeMark`, `pollStream` : the steps of a poll;
* `qcMove`, `rtgMove`, `handoverLabel`, `tickQcMoves`, `tickRtgMoves`, `tickHandover` : the three streams.
-/

namespace TtAiops.Ingest
open TtAiops.Lib

variable {K α : Type} [DecidableEq K]

/-- A row of TOS: the columns of its natural key, if all are there, its sequence key, whether the text of that key has full
width and digits only, the instant of completion, if it can be read, and the other columns. -/
structure Row (K α : Type) where
  ident : Option K
  key : ℤ
  fullKey : Bool
  compTs : Option ℤ
  cols : α

structure LogRow (K α : Type) where
  ident : K
  key : ℤ
  compTs : ℤ
  cols : α

/-- What is landed of a row; a row without its key or its completion is left out. -/
def Row.logRow (r : Row K α) : Option (LogRow K α) :=
  r.ident.bind fun k => r.compTs.map fun t => ⟨k, r.key, t, r.cols⟩

/-- A row of `etl_watermark`: the day, and the last key seen on it. -/
structure Mark where
  day : ℤ
  last : ℤ
  deriving DecidableEq

/-- The tables of a stream. -/
structure Db (K α : Type) where
  marks : List Mark
  log : List (LogRow K α)

/-- A stream: how many rows a poll reads, how far it reads back behind its watermark, the last key that the clock admits,
where a poll starts that finds no watermark, and the day of an instant of the clock. -/
structure Stream where
  cap : ℕ
  lag : ℤ
  til : ℤ → ℤ
  start : ℤ → ℤ
  day : ℤ → ℤ
  lag_nonneg : 0 ≤ lag
  til_mono : Monotone til
  start_mono : Monotone start
  start_le : ∀ clock, start clock ≤ til clock

/-- A poll: its clock, the rows that TOS shows, in any order, and whether it succeeds as a whole. -/
structure Poll (K α : Type) where
  clock : ℤ
  visible : List (Row K α)
  ok : Bool

section Steps

variable (s : Stream)

/-- The greatest watermark that is not ahead of the clock, if there is one. -/
def readable (marks : List Mark) (clock : ℤ) : Option ℤ := ((marks.map Mark.last).filter fun m => m ≤ s.til clock).max?

/-- `wm`. -/
def readMark (marks : List Mark) (clock : ℤ) : ℤ := (readable s marks clock).getD (s.start clock)

/-- The rows that the query of a poll returns. -/
def fetch (marks : List Mark) (p : Poll K α) : List (Row K α) :=
  window Row.key s.cap (readMark s marks p.clock - s.lag) (s.til p.clock) p.visible

/-- `INSERT … ON CONFLICT DO NOTHING`. -/
def landRow (log : List (LogRow K α)) (r : Row K α) : List (LogRow K α) :=
  match r.logRow with
  | some l => if log.any (fun l' => l'.ident = l.ident) then log else log ++ [l]
  | none => log

def landRows (rows : List (Row K α)) (log : List (LogRow K α)) : List (LogRow K α) := rows.foldl landRow log

/-- `max_seqno`, `max_evt`: the greatest key of full width among the rows that are landed. -/
def maxKey (rows : List (Row K α)) : Option ℤ :=
  ((rows.filter fun r => r.logRow.isSome && r.fullKey).map Row.key).max?

/-- The upsert of the day's watermark, which keeps the greater one. -/
def writeMark (day key : ℤ) (marks : List Mark) : List Mark :=
  if marks.any fun m => m.day = day then marks.map fun m => if m.day = day then { m with last := max m.last key } else m
  else marks ++ [⟨day, key⟩]

def pollStream (p : Poll K α) (db : Db K α) : Db K α :=
  if p.ok then
    let rows := fetch s db.marks p
    { marks := match maxKey rows with
        | some mx => writeMark (s.day p.clock) mx db.marks
        | none => db.marks
      log := landRows rows db.log }
  else db

def pollAll (polls : List (Poll K α)) (db : Db K α) : Db K α := polls.foldl (fun db p => pollStream s p db) db

end Steps

/-! ## The streams -/

/-- The natural key of a move: machine, container and sequence number. -/
abbrev MoveKey := String × String × String

/-- The natural key of a handover: container, point and sequence number. -/
abbrev LabelKey := String × ℤ × String

/-- `qc_moves.rs`: `FETCH_CAP`, the safety lag of 120 s, the clock itself, the start of the day. Keys in seconds. -/
def qcMove : Stream where
  cap := 5000
  lag := 120
  til := fun clock => clock
  start := fun clock => clock / 86400 * 86400
  day := fun clock => clock / 86400
  lag_nonneg := by decide
  til_mono := fun _ _ h => h
  start_mono := fun a b h => by dsimp only; omega
  start_le := fun clock => by omega

/-- `rtg_moves.rs`. Keys in seconds. -/
def rtgMove : Stream where
  cap := 5000
  lag := 120
  til := fun clock => clock
  start := fun clock => clock / 86400 * 86400
  day := fun clock => clock / 86400
  lag_nonneg := by decide
  til_mono := fun _ _ h => h
  start_mono := fun a b h => by dsimp only; omega
  start_le := fun clock => by omega

/-- `handover.rs`: no lag behind the watermark, the end of the current second, ten minutes back. Keys in milliseconds. -/
def handoverLabel : Stream where
  cap := 3000
  lag := 0
  til := fun clock => clock / 1000 * 1000 + 999
  start := fun clock => (clock - 600000) / 1000 * 1000
  day := fun clock => clock / 86400000
  lag_nonneg := le_rfl
  til_mono := fun a b h => by dsimp only; omega
  start_mono := fun a b h => by dsimp only; omega
  start_le := fun clock => by omega

def tickQcMoves : Poll MoveKey α → Db MoveKey α → Db MoveKey α := pollStream qcMove

def tickRtgMoves : Poll MoveKey α → Db MoveKey α → Db MoveKey α := pollStream rtgMove

def tickHandover : Poll LabelKey α → Db LabelKey α → Db LabelKey α := pollStream handoverLabel

end TtAiops.Ingest
