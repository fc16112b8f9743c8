import TtAiops.Lib.Tables
import TtAiops.Lib.Runs

/-!
# The operational alerts

* `OpsAlert`, `opsAlertCap`, `alert`, `prune` : the table of the alerts, its row cap, raising an alert and the retention;
* `Cmd`, `note`, `Rows` : the statements a database sees, the row each of them writes, and what holds of the rows after a run;
* `alerts_bounded` : however many keys are raised, there are at most 501 rows, one for a key;
* `alert_edge` : an alert is new exactly when its key has no row, and then it has been silent for the whole retention;
* `opsAlerts`, `opsAlertBanner` : what a person gets to see;
* `raised_shown`, `banner_down_iff` : no alert of the last day is lost, and the bar is red exactly while one is critical.
-/

namespace TtAiops.Ops
open TtAiops.Lib

/-! ## The table -/

inductive Severity
  | warn
  | crit
deriving DecidableEq

/-- What a caller says. -/
structure Raise where
  source : String
  subject : String
  severity : Severity
  message : String
  detail : Option String

/-- A row of `ops_alert`; times in microseconds. -/
structure OpsAlert where
  source : String
  subject : String
  severity : Severity
  message : String
  detail : Option String
  firstTs : ℤ
  lastTs : ℤ
  occurrences : ℤ
deriving DecidableEq

def OpsAlert.key (r : OpsAlert) : String × String := (r.source, r.subject)

def Raise.key (a : Raise) : String × String := (a.source, a.subject)

/-- The row of an `INSERT`, with the defaults of the table. -/
def Raise.row (now : ℤ) (a : Raise) : OpsAlert :=
  { source := a.source, subject := a.subject, severity := a.severity, message := a.message, detail := a.detail,
    firstTs := now, lastTs := now, occurrences := 1 }

/-- `INSERT .. ON CONFLICT (source, subject) DO UPDATE`: the row that it leaves. -/
def onConflict (update : OpsAlert → OpsAlert) (new : OpsAlert) (rows : List OpsAlert) : OpsAlert :=
  ((rows.find? fun r => r.key = new.key).map update).getD new

def ROW_CAP : ℕ := 500

def capRaise : Raise :=
  { source := "ops_alert", subject := "cap", severity := .crit,
    message := "ops_alert 행 상한(500) 도달 — 새 알림 키가 버려지고 있다",
    detail := some "dedupe 키에 가변값(타임스탬프·차량번호·좌표)을 넣은 호출자를 찾아라" }

def capRow (now : ℤ) (rows : List OpsAlert) : OpsAlert :=
  onConflict (fun old => { old with lastTs := now, occurrences := old.occurrences + 1 }) (capRaise.row now) rows

/-- The trigger of the row cap: whether the insert goes on. -/
def opsAlertCap (now : ℤ) (new : OpsAlert) (rows : List OpsAlert) : Bool × List OpsAlert :=
  if new.source = "ops_alert" then (true, rows)
  else if ∃ r ∈ rows, r.key = new.key then (true, rows)
  else if ROW_CAP ≤ rows.length then (false, upsert OpsAlert.key rows (capRow now rows))
  else (true, rows)

/-- The row that raising leaves, where the cap does not keep it out. -/
def raisedRow (now : ℤ) (a : Raise) (rows : List OpsAlert) : OpsAlert :=
  onConflict (fun old => { old with
    lastTs := now, occurrences := old.occurrences + 1, severity := a.severity, message := a.message,
    detail := a.detail }) (a.row now) rows

/-- Whether it is the first occurrence, and the rows. -/
def alert (now : ℤ) (a : Raise) (rows : List OpsAlert) : Bool × List OpsAlert :=
  match opsAlertCap now (a.row now) rows with
  -- the cap has swallowed a new key: the statement returns no row
  | (false, rows) => (false, rows)
  | (true, rows) => ((raisedRow now a rows).occurrences = 1, upsert OpsAlert.key rows (raisedRow now a rows))

def DAY : ℤ := 86400 * 1000000

def ALERT_RETENTION : ℤ := 30 * DAY

/-- `DELETE FROM ops_alert WHERE last_ts < now() - interval '30 days'`. -/
def prune (now : ℤ) (rows : List OpsAlert) : List OpsAlert := rows.filter fun r => now - ALERT_RETENTION ≤ r.lastTs

/-! ## What one statement writes -/

/-- The cap keeps `a` out. -/
def Swallowed (a : Raise) (rows : List OpsAlert) : Prop :=
  a.source ≠ "ops_alert" ∧ (∀ r ∈ rows, r.key ≠ a.key) ∧ ROW_CAP ≤ rows.length

instance (a : Raise) (rows : List OpsAlert) : Decidable (Swallowed a rows) := by
  unfold Swallowed
  infer_instance

/-- The row that raising `a` writes: its own, or that of the cap. -/
def note (now : ℤ) (a : Raise) (rows : List OpsAlert) : OpsAlert :=
  if Swallowed a rows then capRow now rows else raisedRow now a rows

theorem alert_swallowed {now : ℤ} {a : Raise} {rows : List OpsAlert} (h : Swallowed a rows) :
    alert now a rows = (false, upsert OpsAlert.key rows (note now a rows)) := by
  obtain ⟨hsource, hnone, hcap⟩ := h
  have hcapped : opsAlertCap now (a.row now) rows = (false, upsert OpsAlert.key rows (capRow now rows)) := by
    unfold opsAlertCap
    exact (if_neg hsource).trans ((if_neg fun ⟨r, hr, hkey⟩ => hnone r hr hkey).trans (if_pos hcap))
  unfold alert note
  rw [hcapped, if_pos ⟨hsource, hnone, hcap⟩]

theorem alert_raised {now : ℤ} {a : Raise} {rows : List OpsAlert} (h : ¬ Swallowed a rows) :
    alert now a rows = (decide ((note now a rows).occurrences = 1), upsert OpsAlert.key rows (note now a rows)) := by
  have hcap : opsAlertCap now (a.row now) rows = (true, rows) := by
    unfold opsAlertCap
    by_cases hsource : (a.row now).source = "ops_alert"
    · rw [if_pos hsource]
    · by_cases hex : ∃ r ∈ rows, r.key = (a.row now).key
      · rw [if_neg hsource, if_pos hex]
      · rw [if_neg hsource, if_neg hex, if_neg]
        exact fun hle => h ⟨hsource, fun r hr hkey => hex ⟨r, hr, hkey⟩, hle⟩
  unfold alert note
  rw [hcap, if_neg h]

theorem alert_rows (now : ℤ) (a : Raise) (rows : List OpsAlert) :
    (alert now a rows).2 = upsert OpsAlert.key rows (note now a rows) := by
  by_cases h : Swallowed a rows
  · rw [alert_swallowed h]
  · rw [alert_raised h]

/-- The row after a conflict is that of the old row or the new one, as there is an old one or not. -/
theorem onConflict_cases (update : OpsAlert → OpsAlert) (new : OpsAlert) (rows : List OpsAlert) :
    (∃ old ∈ rows, old.key = new.key ∧ onConflict update new rows = update old) ∨
      ((∀ r ∈ rows, r.key ≠ new.key) ∧ onConflict update new rows = new) := by
  unfold onConflict
  cases hfind : rows.find? fun r => r.key = new.key with
  | none => exact Or.inr ⟨fun r hr => of_decide_eq_false (Bool.not_eq_true _ ▸ List.find?_eq_none.mp hfind r hr), rfl⟩
  | some old => exact Or.inl ⟨old, List.mem_of_find?_eq_some hfind, by simpa using List.find?_some hfind, rfl⟩

/-- The key of the row that the trigger writes. -/
def capKey : String × String := capRaise.key

theorem capRow_cases (now : ℤ) (rows : List OpsAlert) :
    (∃ old ∈ rows, old.key = capKey ∧ capRow now rows = { old with lastTs := now, occurrences := old.occurrences + 1 }) ∨
      ((∀ r ∈ rows, r.key ≠ capKey) ∧ capRow now rows = capRaise.row now) :=
  onConflict_cases _ (capRaise.row now) rows

theorem raisedRow_cases (now : ℤ) (a : Raise) (rows : List OpsAlert) :
    (∃ old ∈ rows, old.key = a.key ∧ raisedRow now a rows = { old with
        lastTs := now, occurrences := old.occurrences + 1, severity := a.severity, message := a.message,
        detail := a.detail }) ∨
      ((∀ r ∈ rows, r.key ≠ a.key) ∧ raisedRow now a rows = a.row now) :=
  onConflict_cases _ (a.row now) rows

/-- A row that is written either goes on from the row of its key or starts a new one. -/
structure Goes (now : ℤ) (rows : List OpsAlert) (w : OpsAlert) : Prop where
  lastTs : w.lastTs = now
  life : (∃ old ∈ rows, old.key = w.key ∧ w.firstTs = old.firstTs ∧ w.occurrences = old.occurrences + 1) ∨
    ((∀ r ∈ rows, r.key ≠ w.key) ∧ w.firstTs = now ∧ w.occurrences = 1)

theorem capRow_goes (now : ℤ) (rows : List OpsAlert) : Goes now rows (capRow now rows) ∧ (capRow now rows).key = capKey := by
  rcases capRow_cases now rows with ⟨old, hold, hkey, heq⟩ | ⟨hnone, heq⟩
  · rw [heq]
    exact ⟨⟨rfl, Or.inl ⟨old, hold, rfl, rfl, rfl⟩⟩, hkey⟩
  · rw [heq]
    exact ⟨⟨rfl, Or.inr ⟨hnone, rfl, rfl⟩⟩, rfl⟩

theorem raisedRow_goes (now : ℤ) (a : Raise) (rows : List OpsAlert) :
    Goes now rows (raisedRow now a rows) ∧ (raisedRow now a rows).key = a.key := by
  rcases raisedRow_cases now a rows with ⟨old, hold, hkey, heq⟩ | ⟨hnone, heq⟩
  · rw [heq]
    exact ⟨⟨rfl, Or.inl ⟨old, hold, rfl, rfl, rfl⟩⟩, hkey⟩
  · rw [heq]
    exact ⟨⟨rfl, Or.inr ⟨hnone, rfl, rfl⟩⟩, rfl⟩

theorem note_goes (now : ℤ) (a : Raise) (rows : List OpsAlert) : Goes now rows (note now a rows) := by
  unfold note
  split_ifs
  · exact (capRow_goes now rows).1
  · exact (raisedRow_goes now a rows).1

theorem key_note (now : ℤ) (a : Raise) (rows : List OpsAlert) :
    (note now a rows).key = if Swallowed a rows then capKey else a.key := by
  unfold note
  split_ifs
  · exact (capRow_goes now rows).2
  · exact (raisedRow_goes now a rows).2

/-! ## Runs of statements -/

/-- The statements that the database sees. -/
inductive Cmd
  | raise (now : ℤ) (a : Raise)
  | prune (now : ℤ)

def Cmd.now : Cmd → ℤ
  | .raise now _ => now
  | .prune now => now

def Cmd.Caller : Cmd → Prop
  | .raise _ a => a.source ≠ "ops_alert"
  | .prune _ => True

/-- One statement: the row that it writes, and the rows after it. -/
def step : Cmd → List OpsAlert → Option OpsAlert × List OpsAlert
  | .raise now a, rows => (some (note now a rows), (alert now a rows).2)
  | .prune now, rows => (none, prune now rows)

/-- The rows after a run, from an empty table on. -/
def rowsAfter (cmds : List Cmd) : List OpsAlert := lastOf step cmds []

/-- The rows that a run writes, in their order. -/
def notes (cmds : List Cmd) : List OpsAlert := (runInputs step cmds []).filterMap Prod.fst

/-- A run of the callers, its statements in the order of their times and none after `now`. -/
structure RunUpTo (now : ℤ) (cmds : List Cmd) : Prop where
  ordered : (cmds.map Cmd.now).Pairwise (· ≤ ·)
  past : ∀ c ∈ cmds, c.now ≤ now
  callers : ∀ c ∈ cmds, c.Caller

theorem rowsAfter_concat (cmds : List Cmd) (c : Cmd) : rowsAfter (cmds ++ [c]) = (step c (rowsAfter cmds)).2 := by
  unfold rowsAfter
  rw [lastOf_append]
  rfl

theorem notes_concat (cmds : List Cmd) (c : Cmd) :
    notes (cmds ++ [c]) = notes cmds ++ (step c (rowsAfter cmds)).1.toList := by
  unfold notes rowsAfter
  rw [runInputs_append, List.filterMap_append]
  cases h : (step c (lastOf step cmds [])).1 <;> simp [runInputs, h]

/-- The notes of `r`'s life: as many as its occurrences, the last ones of its key, the first of them at `firstTs`. -/
def Life (l : List OpsAlert) (r : OpsAlert) : Prop :=
  ∃ before life, (l.filter fun w => w.key = r.key) = before ++ life ∧ r.occurrences = life.length ∧
    life.head?.map OpsAlert.lastTs = some r.firstTs

/-- What holds of the rows after a run that wrote the notes `l`. -/
structure Rows (now : ℤ) (l rows : List OpsAlert) : Prop where
  nodup : (rows.map OpsAlert.key).Nodup
  bounded : rows.length ≤ ROW_CAP ∨ (rows.length = ROW_CAP + 1 ∧ ∃ r ∈ rows, r.key = capKey)
  ordered : l.Pairwise fun w w' => w.lastTs ≤ w'.lastTs
  past : ∀ w ∈ l, w.lastTs ≤ now
  last : ∀ r ∈ rows, r ∈ current OpsAlert.key l
  kept : ∀ r ∈ current OpsAlert.key l, now - ALERT_RETENTION ≤ r.lastTs → r ∈ rows
  life : ∀ r ∈ rows, Life l r

theorem Rows.mono {now now' : ℤ} {l rows : List OpsAlert} (h : Rows now l rows) (hle : now ≤ now') : Rows now' l rows :=
  { h with
    past := fun w hw => (h.past w hw).trans hle
    kept := fun r hr hlast => h.kept r hr (by omega) }

theorem Rows.prune {now : ℤ} {l rows : List OpsAlert} (h : Rows now l rows) : Rows now l (Ops.prune now rows) where
  nodup := h.nodup.sublist (List.filter_sublist.map _)
  bounded := by
    have hle : (Ops.prune now rows).length ≤ rows.length := List.length_filter_le _ _
    rcases h.bounded with hb | ⟨hb, hcap⟩
    · exact Or.inl (hle.trans hb)
    · rcases Nat.lt_or_ge (Ops.prune now rows).length rows.length with hlt | hge
      · exact Or.inl (by omega)
      · -- nothing was pruned
        have hall : Ops.prune now rows = rows := List.filter_sublist.eq_of_length_le hge
        rw [hall]
        exact Or.inr ⟨hb, hcap⟩
  ordered := h.ordered
  past := h.past
  last := fun r hr => h.last r (List.mem_filter.mp hr).1
  kept := fun r hr hlast => List.mem_filter.mpr ⟨h.kept r hr hlast, decide_eq_true hlast⟩
  life := fun r hr => h.life r (List.mem_filter.mp hr).1

/-- A life goes on with the note that is written, and one of another key is left as it is. -/
theorem life_concat {l rows : List OpsAlert} {now : ℤ} {w r : OpsAlert} (hlife : ∀ r ∈ rows, Life l r)
    (hw : Goes now rows w) (hr : r = w ∨ (r ∈ rows ∧ r.key ≠ w.key)) : Life (l ++ [w]) r := by
  rcases hr with rfl | ⟨hr, hkey⟩
  · have hself : [r].filter (fun w => w.key = r.key) = [r] := by simp
    rcases hw.life with ⟨old, hold, hkey, hfirst, hocc⟩ | ⟨-, hfirst, hocc⟩
    · obtain ⟨before, life, hsplit, hlen, hhead⟩ := hlife old hold
      refine ⟨before, life ++ [r], ?_, ?_, ?_⟩
      · rw [List.filter_append, hself, ← hkey, hsplit, List.append_assoc]
      · rw [hocc, hlen, List.length_append, List.length_singleton]
        push_cast
        rfl
      · rw [hfirst, ← hhead]
        cases life with
        | nil => exact absurd hhead (by simp)
        | cons x life => rfl
    · refine ⟨l.filter fun w => w.key = r.key, [r], ?_, hocc, ?_⟩
      · rw [List.filter_append, hself]
      · rw [hfirst, ← hw.lastTs]
        rfl
  · obtain ⟨before, life, hsplit, hlen, hhead⟩ := hlife r hr
    refine ⟨before, life, ?_, hlen, hhead⟩
    have hother : [w].filter (fun w' => w'.key = r.key) = [] := by simp [Ne.symm hkey]
    rw [List.filter_append, hother, List.append_nil, hsplit]

theorem Rows.raise {now : ℤ} {a : Raise} {l rows : List OpsAlert} (h : Rows now l rows)
    (hcaller : a.source ≠ "ops_alert") :
    Rows now (l ++ [note now a rows]) (upsert OpsAlert.key rows (note now a rows)) where
  nodup := nodup_upsert h.nodup _
  bounded := by
    by_cases hex : ∃ r ∈ rows, r.key = (note now a rows).key
    · rw [length_upsert_of_mem h.nodup hex]
      refine h.bounded.imp id fun ⟨hb, hcap⟩ => ⟨hb, ?_⟩
      obtain ⟨r, hr, hkey⟩ := hcap
      by_cases hsame : r.key = (note now a rows).key
      · exact ⟨_, mem_upsert.mpr (Or.inl rfl), hsame ▸ hkey⟩
      · exact ⟨r, mem_upsert.mpr (Or.inr ⟨hr, hsame⟩), hkey⟩
    · have hnone : ∀ r ∈ rows, r.key ≠ (note now a rows).key := fun r hr hkey => hex ⟨r, hr, hkey⟩
      rw [length_upsert_of_not_mem hnone]
      rw [key_note] at hnone
      by_cases hs : Swallowed a rows
      · -- the cap has no row yet, so the table has just filled up
        rw [if_pos hs] at hnone
        rcases h.bounded with hb | ⟨-, r, hr, hkey⟩
        · refine Or.inr ⟨?_, note now a rows, mem_upsert.mpr (Or.inl rfl), by rw [key_note, if_pos hs]⟩
          rw [Nat.le_antisymm hb hs.2.2]
        · exact absurd hkey (hnone r hr)
      · rw [if_neg hs] at hnone
        refine Or.inl (Nat.lt_of_not_le fun hle => hs ⟨hcaller, hnone, hle⟩)
  ordered := by
    refine List.pairwise_append.mpr ⟨h.ordered, List.pairwise_singleton _ _, fun w hw w' hw' => ?_⟩
    rw [List.mem_singleton.mp hw', (note_goes now a rows).lastTs]
    exact h.past w hw
  past := by
    intro w hw
    rcases List.mem_append.mp hw with hw | hw
    · exact h.past w hw
    · rw [List.mem_singleton.mp hw, (note_goes now a rows).lastTs]
  last := by
    intro r hr
    rw [current_append_singleton]
    exact mem_upsert.mpr ((mem_upsert.mp hr).imp id fun ⟨hr, hkey⟩ => ⟨h.last r hr, hkey⟩)
  kept := by
    intro r hr hlast
    rw [current_append_singleton] at hr
    exact mem_upsert.mpr ((mem_upsert.mp hr).imp id fun ⟨hr, hkey⟩ => ⟨h.kept r hr hlast, hkey⟩)
  life := fun r hr => life_concat h.life (note_goes now a rows) (mem_upsert.mp hr)

theorem rows_nil (now : ℤ) : Rows now [] [] where
  nodup := List.nodup_nil
  bounded := Or.inl (Nat.zero_le _)
  ordered := List.Pairwise.nil
  past := fun _ hw => absurd hw List.not_mem_nil
  last := fun _ hr => absurd hr List.not_mem_nil
  kept := fun _ hr => absurd hr List.not_mem_nil
  life := fun _ hr => absurd hr List.not_mem_nil

/-- **What holds of the rows after every run.** -/
theorem rows_run {cmds : List Cmd} : ∀ {now : ℤ}, RunUpTo now cmds → Rows now (notes cmds) (rowsAfter cmds) := by
  induction cmds using List.reverseRecOn with
  | nil => exact fun {now} _ => rows_nil now
  | append_singleton cmds c ih =>
    intro now hrun
    have hordered := hrun.ordered
    rw [List.map_append, List.pairwise_append] at hordered
    have hbefore : RunUpTo c.now cmds :=
      { ordered := hordered.1
        past := fun c' hc' => hordered.2.2 _ (List.mem_map_of_mem hc') _ List.mem_cons_self
        callers := fun c' hc' => hrun.callers c' (List.mem_append_left _ hc') }
    have hc : c ∈ cmds ++ [c] := List.mem_append_right _ List.mem_cons_self
    have hrows := ih hbefore
    rw [notes_concat, rowsAfter_concat]
    refine Rows.mono ?_ (hrun.past c hc)
    cases c with
    | raise t a =>
      show Rows t (notes cmds ++ [note t a (rowsAfter cmds)]) (alert t a (rowsAfter cmds)).2
      rw [alert_rows]
      exact hrows.raise (hrun.callers _ hc)
    | prune t =>
      show Rows t (notes cmds ++ []) (Ops.prune t (rowsAfter cmds))
      rw [List.append_nil]
      exact hrows.prune

theorem exists_note {cmds : List Cmd} {t : ℤ} {a : Raise} (h : Cmd.raise t a ∈ cmds) :
    ∃ w ∈ notes cmds, (w.key = a.key ∨ w.key = capKey) ∧ w.lastTs = t := by
  induction cmds using List.reverseRecOn with
  | nil => exact absurd h List.not_mem_nil
  | append_singleton cmds c ih =>
    rw [notes_concat]
    rcases List.mem_append.mp h with h | h
    · obtain ⟨w, hw, hspec⟩ := ih h
      exact ⟨w, List.mem_append_left _ hw, hspec⟩
    · rw [← List.mem_singleton.mp h]
      refine ⟨note t a (rowsAfter cmds), List.mem_append_right _ List.mem_cons_self, ?_, (note_goes t a _).lastTs⟩
      rw [key_note]
      split_ifs
      · exact Or.inr rfl
      · exact Or.inl rfl

/-- A note stands in the table until its key is noted again or the retention has passed. -/
theorem Rows.exists_row {now : ℤ} {l rows : List OpsAlert} (h : Rows now l rows) {w : OpsAlert} (hw : w ∈ l)
    (hlast : now - ALERT_RETENTION ≤ w.lastTs) : ∃ r ∈ rows, r.key = w.key ∧ w.lastTs ≤ r.lastTs := by
  have hcurrent : ∃ r ∈ current OpsAlert.key l, r.key = w.key ∧ w.lastTs ≤ r.lastTs := exists_current_le h.ordered hw
  obtain ⟨r, hr, hkey, hle⟩ := hcurrent
  exact ⟨r, h.kept r hr (hlast.trans hle), hkey, hle⟩

theorem Life.pos {l : List OpsAlert} {r : OpsAlert} (h : Life l r) : 1 ≤ r.occurrences := by
  obtain ⟨before, life, -, hocc, hhead⟩ := h
  cases life with
  | nil => exact absurd hhead (by simp)
  | cons x life =>
    rw [hocc, List.length_cons]
    omega

/-- **The table stays small, and true of what was raised.** Whatever keys the callers make up, a run leaves at most 500
rows beside that of the cap, one for a key; each is the last one written for its key, and counts the occurrences since its
first one. -/
theorem alerts_bounded {now : ℤ} {cmds : List Cmd} (h : RunUpTo now cmds) :
    ((rowsAfter cmds).map OpsAlert.key).Nodup ∧
      ((rowsAfter cmds).filter fun r => r.key ≠ capKey).length ≤ ROW_CAP ∧
      ∀ r ∈ rowsAfter cmds, r ∈ current OpsAlert.key (notes cmds) ∧ Life (notes cmds) r := by
  have hrows := rows_run h
  refine ⟨hrows.nodup, ?_, fun r hr => ⟨hrows.last r hr, hrows.life r hr⟩⟩
  rcases hrows.bounded with hb | ⟨hb, r, hr, hkey⟩
  · exact (List.length_filter_le _ _).trans hb
  · have hlt : ((rowsAfter cmds).filter fun r => r.key ≠ capKey).length < (rowsAfter cmds).length :=
      List.length_filter_lt_length_iff_exists.mpr ⟨r, hr, by simp [hkey]⟩
    omega

/-- **An alert is new once.** Raising it is an edge exactly when its key has no row and the table has room, and then
everything that was noted for the key before is older than the retention. -/
theorem alert_edge {now : ℤ} {cmds : List Cmd} (h : RunUpTo now cmds) {a : Raise} (ha : a.source ≠ "ops_alert") :
    ((alert now a (rowsAfter cmds)).1 = true ↔
        (∀ r ∈ rowsAfter cmds, r.key ≠ a.key) ∧ (rowsAfter cmds).length < ROW_CAP) ∧
      ((alert now a (rowsAfter cmds)).1 = true → ∀ w ∈ notes cmds, w.key = a.key → w.lastTs < now - ALERT_RETENTION) := by
  have hrows := rows_run h
  have hedge : (alert now a (rowsAfter cmds)).1 = true ↔
      (∀ r ∈ rowsAfter cmds, r.key ≠ a.key) ∧ (rowsAfter cmds).length < ROW_CAP := by
    by_cases hs : Swallowed a (rowsAfter cmds)
    · rw [alert_swallowed hs]
      exact ⟨fun hfalse => absurd hfalse Bool.false_ne_true, fun hroom => absurd hs.2.2 (Nat.not_le_of_lt hroom.2)⟩
    · rw [alert_raised hs, decide_eq_true_iff]
      have hkey := key_note now a (rowsAfter cmds)
      rw [if_neg hs] at hkey
      rcases (note_goes now a (rowsAfter cmds)).life with ⟨old, hold, hsame, -, hocc⟩ | ⟨hnone, -, hocc⟩
      · have hpos := (hrows.life old hold).pos
        exact ⟨fun hone => by omega, fun hroom => absurd (hsame.trans hkey) (hroom.1 old hold)⟩
      · rw [hkey] at hnone
        exact ⟨fun _ => ⟨hnone, Nat.lt_of_not_le fun hle => hs ⟨ha, hnone, hle⟩⟩, fun _ => hocc⟩
  refine ⟨hedge, fun htrue w hw hkey => ?_⟩
  by_contra hlast
  obtain ⟨r, hr, hrkey, -⟩ := hrows.exists_row hw (not_lt.mp hlast)
  exact (hedge.mp htrue).1 r hr (hrkey.trans hkey)

/-! ## What a person gets to see -/

structure OpsAlertRow where
  source : String
  subject : String
  severity : Severity
  message : String
  detail : Option String
  occurrences : ℤ
  ageS : ℤ
  firstSeenS : ℤ

/-- `extract(epoch FROM ..) as i64`. -/
def wholeSeconds (d : ℤ) : ℤ := d.tdiv 1000000

def OpsAlert.toRow (now : ℤ) (r : OpsAlert) : OpsAlertRow :=
  { source := r.source, subject := r.subject, severity := r.severity, message := r.message, detail := r.detail,
    occurrences := r.occurrences, ageS := wholeSeconds (now - r.lastTs), firstSeenS := wholeSeconds (now - r.firstTs) }

/-- `ORDER BY (severity = 'crit') DESC, last_ts DESC`. -/
def ahead (r r' : OpsAlert) : Bool :=
  if r.severity = r'.severity then r'.lastTs ≤ r.lastTs else r.severity = .crit

def LIMIT : ℕ := 50

def selected (now : ℤ) (rows : List OpsAlert) : List OpsAlert :=
  ((rows.filter fun r => now - DAY < r.lastTs).mergeSort ahead).take LIMIT

def opsAlerts (now : ℤ) (rows : List OpsAlert) : List OpsAlertRow := (selected now rows).map (OpsAlert.toRow now)

structure Banner where
  down : Bool
  head : OpsAlertRow
  more : ℕ

def OPS_ACTIVE_S : ℤ := 3600

def opsAlertBanner (rows : List OpsAlertRow) : Option Banner :=
  let active := rows.filter fun r => r.ageS < OPS_ACTIVE_S
  let crit := active.filter fun r => r.severity = .crit
  match active with
  | [] => none
  | first :: more => some { down := 0 < crit.length, head := crit.head?.getD first, more := more.length }

theorem ahead_trans {r r' r'' : OpsAlert} (h : ahead r r') (h' : ahead r' r'') : ahead r r'' := by
  unfold ahead at h h' ⊢
  cases hr : r.severity <;> cases hr' : r'.severity <;> cases hr'' : r''.severity <;> simp [hr, hr', hr''] at h h' ⊢
  · exact h'.trans h
  · exact h'.trans h

theorem ahead_total (r r' : OpsAlert) : ahead r r' || ahead r' r := by
  unfold ahead
  cases r.severity <;> cases r'.severity <;> simp [le_total]

theorem pairwise_mergeSort_ahead (l : List OpsAlert) : (l.mergeSort ahead).Pairwise fun r r' => ahead r r' = true := by
  have htrans : ∀ r r' r'' : OpsAlert, ahead r r' = true → ahead r' r'' = true → ahead r r'' = true :=
    fun _ _ _ => ahead_trans
  exact List.pairwise_mergeSort htrans ahead_total l

/-- A row of the last day is selected, or there are as many as the page takes ahead of it. -/
theorem selected_or_ahead {now : ℤ} {rows : List OpsAlert} {r : OpsAlert} (hr : r ∈ rows) (hlast : now - DAY < r.lastTs) :
    r ∈ selected now rows ∨ ((selected now rows).length = LIMIT ∧ ∀ r' ∈ selected now rows, ahead r' r = true) := by
  have hmem : r ∈ (rows.filter fun r => now - DAY < r.lastTs).mergeSort ahead :=
    List.mem_mergeSort.mpr (List.mem_filter.mpr ⟨hr, decide_eq_true hlast⟩)
  have hsorted := pairwise_mergeSort_ahead (rows.filter fun r => now - DAY < r.lastTs)
  unfold selected
  rw [← List.take_append_drop LIMIT (List.mergeSort _ ahead)] at hmem hsorted
  rcases List.mem_append.mp hmem with htake | hdrop
  · exact Or.inl htake
  · have hlong := List.length_pos_of_mem hdrop
    rw [List.length_drop] at hlong
    exact Or.inr ⟨by rw [List.length_take]; omega, fun r' hr' => (List.pairwise_append.mp hsorted).2.2 r' hr' r hdrop⟩

/-- **No alert of the last day is lost.** What was raised in the last day is in the answer, with its own key or as an alert
of the row cap, not older than when it was raised, or the answer is full of alerts that come ahead of it. -/
theorem raised_shown {now : ℤ} {cmds : List Cmd} (h : RunUpTo now cmds) {rows : List OpsAlert}
    (hscan : rows.Perm (rowsAfter cmds)) {t : ℤ} {a : Raise} (hraise : Cmd.raise t a ∈ cmds) (hday : now - DAY < t) :
    ∃ r ∈ rows, (r.key = a.key ∨ r.key = capKey) ∧ t ≤ r.lastTs ∧
      (r ∈ selected now rows ∨ ((selected now rows).length = LIMIT ∧ ∀ r' ∈ selected now rows, ahead r' r = true)) := by
  have hrows := rows_run h
  obtain ⟨w, hw, hkey, hlast⟩ := exists_note hraise
  obtain ⟨r, hr, hrkey, hle⟩ := hrows.exists_row hw (by unfold ALERT_RETENTION DAY at *; omega)
  have hr := hscan.mem_iff.mpr hr
  exact ⟨r, hr, by rwa [hrkey], hlast ▸ hle, selected_or_ahead hr (by omega)⟩

theorem wholeSeconds_lt {d s : ℤ} (hs : 0 < s) : wholeSeconds d < s ↔ d < s * 1000000 := by
  unfold wholeSeconds
  rcases le_total 0 d with hd | hd
  · rw [Int.tdiv_eq_ediv_of_nonneg hd]
    omega
  · have hneg : 0 ≤ (-d).tdiv 1000000 := Int.tdiv_nonneg (by omega) (by decide)
    rw [Int.neg_tdiv] at hneg
    omega

/-- With a critical alert of the last hour, the latest of them heads the answer. -/
theorem selected_head {now : ℤ} {rows : List OpsAlert} {r : OpsAlert} (hr : r ∈ rows) (hcrit : r.severity = .crit)
    (hlast : now - DAY < r.lastTs) : ∃ head more, selected now rows = head :: more ∧ head.severity = .crit ∧
      ∀ r' ∈ rows, r'.severity = .crit → now - DAY < r'.lastTs → r'.lastTs ≤ head.lastTs := by
  have hwindow : ∀ r', r' ∈ (rows.filter fun r => now - DAY < r.lastTs).mergeSort ahead ↔
      r' ∈ rows ∧ now - DAY < r'.lastTs := by
    intro r'
    rw [List.mem_mergeSort, List.mem_filter, decide_eq_true_iff]
  have hsorted := pairwise_mergeSort_ahead (rows.filter fun r => now - DAY < r.lastTs)
  unfold selected
  cases hl : (rows.filter fun r => now - DAY < r.lastTs).mergeSort ahead with
  | nil => exact absurd ((hwindow r).mpr ⟨hr, hlast⟩) (by rw [hl]; exact List.not_mem_nil)
  | cons head more =>
    rw [hl] at hsorted
    have hahead : ∀ r' ∈ rows, now - DAY < r'.lastTs → r' = head ∨ ahead head r' = true := by
      intro r' hr' hlast'
      have hmem := (hwindow r').mpr ⟨hr', hlast'⟩
      rw [hl] at hmem
      exact (List.mem_cons.mp hmem).imp id fun hmore => (List.pairwise_cons.mp hsorted).1 r' hmore
    have hhead : head.severity = .crit := by
      rcases hahead r hr hlast with rfl | h
      · exact hcrit
      · unfold ahead at h
        cases hs : head.severity
        · simp [hs, hcrit] at h
        · rfl
    refine ⟨head, more.take 49, rfl, hhead, fun r' hr' hcrit' hlast' => ?_⟩
    rcases hahead r' hr' hlast' with rfl | h
    · exact le_rfl
    · simpa [ahead, hhead, hcrit'] using h

theorem banner_down_cases {now : ℤ} {l rows' rows : List OpsAlert} (h : Rows now l rows') (hscan : rows.Perm rows') {b : Banner}
    (hb : opsAlertBanner (opsAlerts now rows) = some b) (hdown : b.down = true) :
    ∃ r ∈ current OpsAlert.key l, r.severity = .crit ∧ now - r.lastTs < 3600 * 1000000 := by
  unfold opsAlertBanner at hb
  simp only at hb
  split at hb
  · exact absurd hb (by simp)
  · rw [← Option.some_inj.mp hb] at hdown
    obtain ⟨row, hrow⟩ := List.exists_mem_of_length_pos (of_decide_eq_true hdown)
    obtain ⟨hrow, hcrit⟩ := List.mem_filter.mp hrow
    obtain ⟨hrow, hactive⟩ := List.mem_filter.mp hrow
    obtain ⟨r, hr, rfl⟩ := List.mem_map.mp hrow
    have hmem := hscan.mem_iff.mp (List.mem_filter.mp (List.mem_mergeSort.mp (List.mem_of_mem_take hr))).1
    exact ⟨r, h.last r hmem, of_decide_eq_true hcrit, (wholeSeconds_lt (by decide)).mp (of_decide_eq_true hactive)⟩

/-- **The bar is red exactly while an alert is critical.** For every run and every order in which the table is scanned, the
bar is red if and only if some key was last noted as critical, less than an hour ago; its headline is then that of the
latest of these, however many other alerts there are. -/
theorem banner_down_iff {now : ℤ} {cmds : List Cmd} (h : RunUpTo now cmds) {rows : List OpsAlert}
    (hscan : rows.Perm (rowsAfter cmds)) :
    ((∃ b, opsAlertBanner (opsAlerts now rows) = some b ∧ b.down = true) ↔
        ∃ r ∈ current OpsAlert.key (notes cmds), r.severity = .crit ∧ now - r.lastTs < 3600 * 1000000) ∧
      ∀ b, opsAlertBanner (opsAlerts now rows) = some b → b.down = true →
        ∃ r ∈ current OpsAlert.key (notes cmds), r.severity = .crit ∧ b.head = r.toRow now ∧
          ∀ r' ∈ current OpsAlert.key (notes cmds), r'.severity = .crit → r'.lastTs ≤ r.lastTs := by
  have hrows := rows_run h
  have hred : ∀ r ∈ current OpsAlert.key (notes cmds), r.severity = .crit → now - r.lastTs < 3600 * 1000000 →
      ∃ b, opsAlertBanner (opsAlerts now rows) = some b ∧ b.down = true ∧
        ∃ r ∈ current OpsAlert.key (notes cmds), r.severity = .crit ∧ b.head = r.toRow now ∧
          ∀ r' ∈ current OpsAlert.key (notes cmds), r'.severity = .crit → r'.lastTs ≤ r.lastTs := by
    intro r hr hcrit hhour
    have hkept : ∀ r ∈ current OpsAlert.key (notes cmds), now - DAY < r.lastTs → r ∈ rows := fun r hr hlast =>
      hscan.mem_iff.mpr (hrows.kept r hr (by unfold ALERT_RETENTION DAY at *; omega))
    have hlast : now - DAY < r.lastTs := by unfold DAY; omega
    obtain ⟨head, more, hselected, hhead, hlatest⟩ := selected_head (hkept r hr hlast) hcrit hlast
    have hle := hlatest r (hkept r hr hlast) hcrit hlast
    have hrow : head ∈ rowsAfter cmds := by
      have hmem : head ∈ selected now rows := hselected ▸ List.mem_cons_self
      exact hscan.mem_iff.mp (List.mem_filter.mp (List.mem_mergeSort.mp (List.mem_of_mem_take hmem))).1
    have hactive : (head.toRow now).ageS < OPS_ACTIVE_S := (wholeSeconds_lt (by decide)).mpr (by unfold OPS_ACTIVE_S; omega)
    have hsev : (head.toRow now).severity = .crit := hhead
    refine ⟨⟨true, head.toRow now, ((more.map (OpsAlert.toRow now)).filter fun r => r.ageS < OPS_ACTIVE_S).length⟩, ?_,
      rfl, head, hrows.last head hrow, hhead, rfl, fun r' hr' hcrit' => ?_⟩
    · unfold opsAlertBanner opsAlerts
      simp [hselected, hactive, hsev]
    · rcases lt_or_ge (now - DAY) r'.lastTs with hlast' | hlast'
      · exact hlatest r' (hkept r' hr' hlast') hcrit' hlast'
      · omega
  refine ⟨⟨?_, fun ⟨r, hr, hcrit, hhour⟩ => ?_⟩, ?_⟩
  · rintro ⟨b, hb, hdown⟩
    exact banner_down_cases hrows hscan hb hdown
  · obtain ⟨b, hb, hdown, -⟩ := hred r hr hcrit hhour
    exact ⟨b, hb, hdown⟩
  · intro b hb hdown
    obtain ⟨r, hr, hcrit, hhour⟩ := banner_down_cases hrows hscan hb hdown
    obtain ⟨b', hb', -, hspec⟩ := hred r hr hcrit hhour
    rw [hb'] at hb
    rw [← Option.some_inj.mp hb]
    exact hspec

/-! ## A table that stopped growing -/

def stalled : Raise :=
  { source := "deadman", subject := "live_workqueue", severity := .crit,
    message := "live_workqueue 이 11분간 새 행이 없다(허용 10분) — 이 표를 쓰는 작업이 멈췄다", detail := none }

theorem stalled_run : RunUpTo 60000000 [.raise 0 stalled] where
  ordered := List.pairwise_singleton _ _
  past := by simp [Cmd.now]
  callers := by simp [Cmd.Caller, stalled]

/-- A caller that puts the number of the occurrence into its key, and then comes back to the first one. -/
def crowd : List Cmd :=
  (List.range 600).map (fun i => .raise i { stalled with subject := toString i }) ++ [.raise 600 { stalled with subject := "0" }]

/-- Of the 600 keys at most 500 have a row. -/
theorem alerts_bounded_crowd : crowd.length = 601 ∧ ((rowsAfter crowd).map OpsAlert.key).Nodup ∧
    ((rowsAfter crowd).filter fun r => r.key ≠ capKey).length ≤ 500 ∧
    ∀ r ∈ rowsAfter crowd, r ∈ current OpsAlert.key (notes crowd) ∧ Life (notes crowd) r := by
  have hrun : RunUpTo 600 crowd := by
    refine ⟨?_, ?_, ?_⟩
    · have hnow : crowd.map Cmd.now = (List.range 601).map (fun i : ℕ => (i : ℤ)) := by
        rw [List.range_succ, List.map_append, crowd, List.map_append, List.map_map]
        rfl
      rw [hnow, List.pairwise_map]
      exact List.pairwise_le_range.imp fun h => Int.ofNat_le.mpr h
    · intro c hc
      obtain hc | hc := List.mem_append.mp hc
      · obtain ⟨i, hi, rfl⟩ := List.mem_map.mp hc
        have := List.mem_range.mp hi
        show (i : ℤ) ≤ 600
        omega
      · rw [List.mem_singleton.mp hc]
        exact le_rfl
    · intro c hc
      obtain hc | hc := List.mem_append.mp hc
      · obtain ⟨i, -, rfl⟩ := List.mem_map.mp hc
        exact (by decide : "deadman" ≠ "ops_alert")
      · rw [List.mem_singleton.mp hc]
        exact (by decide : "deadman" ≠ "ops_alert")
  exact ⟨by simp [crowd], alerts_bounded hrun⟩

theorem alert_edge_one : (alert 60000000 stalled (rowsAfter [.raise 0 stalled])).1 ≠ true := fun htrue =>
  ((alert_edge stalled_run (by decide)).1.mp htrue).1 (stalled.row 0) (by decide) rfl

/-- Another table that stopped growing, and the first one again. -/
def twice : List Cmd := [.raise 0 stalled, .raise 1 { stalled with subject := "live_qc_move" }, .raise 2 stalled]

theorem raised_shown_twice :
    ∃ r ∈ rowsAfter twice, (r.key = stalled.key ∨ r.key = capKey) ∧ 2 ≤ r.lastTs ∧ r ∈ selected 60000000 (rowsAfter twice) := by
  have hrun : RunUpTo 60000000 twice := by
    refine ⟨by decide, by decide, fun c hc => ?_⟩
    fin_cases hc <;> exact (by decide : "deadman" ≠ "ops_alert")
  obtain ⟨r, hr, hkey, hlast, hshown | ⟨hfull, -⟩⟩ :=
    raised_shown hrun (List.Perm.refl _) (t := 2) (a := stalled) (by simp [twice]) (by decide)
  · exact ⟨r, hr, hkey, hlast, hshown⟩
  · have hlen : (selected 60000000 (rowsAfter twice)).length ≤ (rowsAfter twice).length := by
      rw [selected, List.length_take, List.length_mergeSort]
      exact (min_le_right _ _).trans (List.length_filter_le _ _)
    have hrows : (rowsAfter twice).length = 2 := by decide +kernel
    rw [hfull, hrows] at hlen
    exact absurd hlen (by decide)

theorem banner_down_iff_one :
    ∃ b, opsAlertBanner (opsAlerts 60000000 (rowsAfter [.raise 0 stalled])) = some b ∧ b.down = true :=
  (banner_down_iff stalled_run (List.Perm.refl _)).1.mpr ⟨stalled.row 0, by decide, rfl, by decide⟩

end TtAiops.Ops
