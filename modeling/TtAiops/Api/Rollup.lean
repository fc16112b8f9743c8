import TtAiops.Api.Agg
import TtAiops.Lib.Means
import TtAiops.Lib.Tables

/-!
# The day so far, from its shifts

A tick of a shift folds the rows of a source to the cumulative values of its KPIs, and `kpi_shift` keeps them, rounded, with
their weights. `rollup_today_from_shifts` combines the shifts of a day to a provisional row of `kpi_daily`.

* `Amount`, `MphRow` … `CraneQRow`, `Source` : the rows of the sources, their weights as the queries count them;
* `srcUtil` … `srcCraneq`, `Tick`, `kpiShift` : the ticks, and the table after a run of them;
* `rolled`, `rollupTodayFromShifts` : the roll-up;
* `Headline`, `headlines`, `writes_headline` : the six KPIs that are weighted means;
* `mem_kpiShift`, `valued_perm`, `abs_combined_sub_le` : the table after a run, what the roll-up takes of it, and how near it is;
* `WithinRounding`, `rollup_within_rounding` : **the roll-up is the fold over the rows of the day, up to half a unit of the
  rounding of the shifts and half a unit of its own**.

Numbers are exact, and the columns wide enough for them.
-/

namespace TtAiops.Api.Rollup
open TtAiops.Lib TtAiops.Api.Agg

/-! ## The rows of the sources -/

/-- A count, or a length in metres: what `NUMERIC(18,4)` holds of what is not negative. -/
structure Amount where
  val : ℚ
  units : ∃ n : ℕ, val = n / 10 ^ 4

/-- `k_mph_realtime::Row`. -/
structure MphRow where
  vessel : String
  voyage : String
  activeHours : Option Amount
  kMphPerActiveHour : Option ℚ

/-- `k_qc_q::Row`. -/
structure QcQRow where
  idlePeriods : Option Amount
  avgIdleSec : Option ℚ
  sameBayPeriods : Option Amount
  sameBayAvgSec : Option ℚ

/-- `k_empty::Row`. The query groups the jobs, and counts those whose metres it adds up. -/
structure EmptyRow where
  jobs : Option Amount
  totalEmptyM : Option Amount
  totalLadenM : Option Amount
  counted : ∀ m ∈ totalEmptyM, 0 < m.val → ∃ j ∈ jobs, 0 < j.val

/-- `k_tt_cycle::Row`. -/
structure CycleRow where
  samples : Option ℚ
  medSec : Option ℚ

/-- `LocalCraneQRow`. -/
structure CraneQRow where
  kCraneQAvgSec : Option ℚ
  inRange : Option Amount

inductive Source
  | util
  | mph
  | qcq
  | empty
  | cycle
  | craneq
deriving DecidableEq

def Source.Row : Source → Type
  | .util => UtilTtSample
  | .mph => MphRow
  | .qcq => QcQRow
  | .empty => EmptyRow
  | .cycle => CycleRow
  | .craneq => CraneQRow

/-! ## A tick -/

inductive Shift
  | night
  | day
  | evening
deriving DecidableEq

def Shift.all : List Shift := [.night, .day, .evening]

/-- A row of `kpi_shift`. -/
structure ShiftRow extends KpiShift where
  shift : Shift
  unit : String

/-- The primary key of `kpi_shift`. -/
def ShiftRow.pk (r : ShiftRow) : ℤ × Shift × Kpi := (r.businessDate, r.shift, r.kpiKey)

def amount (x : Option Amount) : Option ℚ := x.map Amount.val

def sum (it : List (Option ℚ)) : ℚ := it.reduceOption.sum

/-- The row as the columns keep it, with four decimals. -/
def upsertShift (date : ℤ) (sh : Shift) (kpiKey : Kpi) (unit : String) (value : Option ℚ) (sampleN : Option ℤ)
    (aggWeight : Option ℚ) : ShiftRow :=
  ⟨⟨date, kpiKey, value.map (roundTo 4), sampleN, aggWeight.map (roundTo 4)⟩, sh, unit⟩

def srcUtil (date : ℤ) (sh : Shift) (samples : List UtilTtSample) : List ShiftRow :=
  [upsertShift date sh .util "%" ((avgN (samples.map utilRatio)).map (roundTo 1)) (some samples.length) none]

def srcMphVessels (date : ℤ) (sh : Shift) (rows : List MphRow) : List ShiftRow :=
  let num := sum (rows.map fun r => Option.map₂ (· * ·) r.kMphPerActiveHour (amount r.activeHours))
  let den := sum (rows.map fun r => amount r.activeHours)
  let value := if 0 < den then some (roundTo 2 (num / den)) else none
  let voyages := (rows.map fun r => r.vessel ++ "/" ++ r.voyage).dedup.length
  [upsertShift date sh .mph "move/hr" value (some voyages) (some den)]

def srcQcq (date : ℤ) (sh : Shift) (rows : List QcQRow) : List ShiftRow :=
  let num := sum (rows.map fun r => Option.map₂ (· * ·) r.avgIdleSec (amount r.idlePeriods))
  let den := sum (rows.map fun r => amount r.idlePeriods)
  let value := if 0 < den then some (roundTo 1 (num / den)) else none
  let sbNum := sum (rows.map fun r => Option.map₂ (· * ·) r.sameBayAvgSec (amount r.sameBayPeriods))
  let sbDen := sum (rows.map fun r => amount r.sameBayPeriods)
  let sbValue := if 0 < sbDen then some (roundTo 1 (sbNum / sbDen)) else none
  [upsertShift date sh .qcNomove "s" value (some ⌊den⌋) (some den),
    upsertShift date sh .qcTtWait "s" sbValue (some ⌊sbDen⌋) (some sbDen)]

def srcEmpty (date : ℤ) (sh : Shift) (rows : List EmptyRow) : List ShiftRow :=
  let jobs := sum (rows.map fun r => amount r.jobs)
  let empty := sum (rows.map fun r => amount r.totalEmptyM)
  let laden := sum (rows.map fun r => amount r.totalLadenM)
  let emptyKm := if 0 < jobs then some (roundTo 4 (empty / jobs / 1000)) else none
  let ratio := if 0 < empty + laden then some (roundTo 4 (empty / (empty + laden) * 100)) else none
  [upsertShift date sh .empty "km/Job" emptyKm (some ⌊jobs⌋) (some jobs),
    upsertShift date sh .emptyR "%" ratio (some ⌊jobs⌋) (some (empty + laden))]

def srcCycle (date : ℤ) (sh : Shift) (rows : List CycleRow) : List ShiftRow :=
  let samples := (rows.head?.bind CycleRow.samples).getD 0
  let value := (rows.head?.bind CycleRow.medSec).filter fun _ => 0 < samples
  [upsertShift date sh .cycle "s" value (some ⌊samples⌋) (some samples)]

def srcCraneq (date : ℤ) (sh : Shift) (rows : List CraneQRow) : List ShiftRow :=
  let num := sum (rows.map fun r => Option.map₂ (· * ·) r.kCraneQAvgSec (amount r.inRange))
  let den := sum (rows.map fun r => amount r.inRange)
  let value := if 0 < den then some (roundTo 1 (num / den)) else none
  [upsertShift date sh .rtgQ "s" value (some ⌊den⌋) (some den)]

/-- A source that is folded for a shift, with all its rows of the shift so far. -/
structure Tick where
  date : ℤ
  shift : Shift
  src : Source
  rows : List src.Row

def Tick.writes : Tick → List ShiftRow
  | ⟨date, sh, .util, rows⟩ => srcUtil date sh rows
  | ⟨date, sh, .mph, rows⟩ => srcMphVessels date sh rows
  | ⟨date, sh, .qcq, rows⟩ => srcQcq date sh rows
  | ⟨date, sh, .empty, rows⟩ => srcEmpty date sh rows
  | ⟨date, sh, .cycle, rows⟩ => srcCycle date sh rows
  | ⟨date, sh, .craneq, rows⟩ => srcCraneq date sh rows

/-- `kpi_shift` after the ticks. -/
def kpiShift (run : List Tick) : List ShiftRow := current ShiftRow.pk (run.flatMap Tick.writes)

def Tick.rowsOf (src : Source) (t : Tick) : Option (List src.Row) := if h : t.src = src then some (h ▸ t.rows) else none

/-- The rows that the last tick of a shift had, if there was one. -/
def lastRows (run : List Tick) (date : ℤ) (src : Source) (sh : Shift) : Option (List src.Row) :=
  ((run.filter fun t => t.date = date ∧ t.shift = sh).filterMap (Tick.rowsOf src)).getLast?

/-! ## The roll-up -/

/-- The KPIs of the roll-up. `K_UTIL`, a mean of ratios, is not among them. -/
def rollupKeys : List Kpi := [.mph, .empty, .emptyR, .cycle, .rtgQ, .qcNomove, .qcTtWait]

/-- `value * coalesce(agg_weight, sample_n)`. -/
def ShiftRow.weighted (r : ShiftRow) : Option ℚ := Option.map₂ (· * ·) r.value r.weight

/-- The rows of a KPI that have a value and a weight. -/
def valued (shifts : List ShiftRow) (date : ℤ) (key : Kpi) : List ShiftRow :=
  shifts.filter fun r => r.businessDate = date ∧ r.kpiKey = key ∧ r.value.isSome ∧ r.weight.isSome

/-- The row that the query has for a KPI, if it has one. -/
def rolled (shifts : List ShiftRow) (date : ℤ) (key : Kpi) : Option DailyRow :=
  let rows := valued shifts date key
  let weight := sumNum (fun r => r.weight) rows
  if key ∈ rollupKeys ∧ positive weight then
    ((divN (sumNum ShiftRow.weighted rows) (nullif weight)).map (roundTo 4)).map fun value =>
      ⟨key, date, value, sumInt (fun r => r.sampleN) rows, (rows.map ShiftRow.unit).max?.getD "", "shift-rollup", true⟩
  else none

/-- `kpi_daily`, by its primary key. -/
abbrev KpiDaily := Kpi → ℤ → Option DailyRow

/-- `ON CONFLICT … DO UPDATE … WHERE kpi_daily.is_provisional`. -/
def onConflict (row new : Option DailyRow) : Option DailyRow :=
  match row, new with
  | row, none => row
  | none, some r => some r
  | some row, some r => if row.isProvisional then some r else some row

def rollupTodayFromShifts (shifts : List ShiftRow) (date : ℤ) (daily : KpiDaily) : KpiDaily := fun key d =>
  if d = date then onConflict (daily key d) (rolled shifts date key) else daily key d

/-! ## Weighted means -/

/-- A KPI that is the mean of a column of its source, by the weights of another. -/
structure Headline (R : Type) where
  kpiKey : Kpi
  unit : String
  prec : ℕ
  scale : ℚ
  num : R → ℚ
  weight : R → Amount
  sampleN : List R → ℤ
  rolls : kpiKey ∈ rollupKeys
  fits : prec ≤ 4
  weighed : ∀ r, (weight r).val = 0 → num r = 0

namespace Headline
variable {R : Type} (h : Headline R)

def amount (rows : List R) : ℚ := (rows.map h.num).sum

def total (rows : List R) : ℚ := (rows.map fun r => (h.weight r).val).sum

/-- The fold over the rows, not rounded. -/
def fold (rows : List R) : ℚ := h.amount rows / h.total rows * h.scale

/-- What a tick keeps of the rows of a shift. -/
def row (date : ℤ) (sh : Shift) (rows : List R) : ShiftRow :=
  upsertShift date sh h.kpiKey h.unit (if 0 < h.total rows then some (roundTo h.prec (h.fold rows)) else none)
    (some (h.sampleN rows)) (some (h.total rows))

end Headline

def Amount.zero : Amount := ⟨0, 0, by simp⟩

def Amount.add (x y : Amount) : Amount := 
  ⟨x.val + y.val, by
    obtain ⟨m, hm⟩ := x.units
    obtain ⟨n, hn⟩ := y.units
    exact ⟨m + n, by rw [hm, hn]; push_cast; ring⟩⟩

theorem Amount.nonneg (x : Amount) : 0 ≤ x.val := by
  obtain ⟨n, hn⟩ := x.units
  rw [hn]
  positivity

def orZero (x : Option Amount) : Amount := x.getD .zero

theorem orZero_val (x : Option Amount) : (orZero x).val = (amount x).getD 0 := by cases x <;> rfl

/-- The mean of a column of means, by the column of their counts. -/
def ofMeans {R : Type} (kpiKey : Kpi) (unit : String) (prec : ℕ) (v : R → Option ℚ) (w : R → Option Amount)
    (sampleN : List R → ℤ) (rolls : kpiKey ∈ rollupKeys) (fits : prec ≤ 4) : Headline R where
  kpiKey := kpiKey
  unit := unit
  prec := prec
  scale := 1
  num := fun r => (Option.map₂ (· * ·) (v r) (amount (w r))).getD 0
  weight := fun r => orZero (w r)
  sampleN := sampleN
  rolls := rolls
  fits := fits
  weighed := by
    intro r hr
    rw [orZero_val] at hr
    cases hv : v r with
    | none => rfl
    | some x =>
      cases hw : amount (w r) with
      | none => rfl
      | some y =>
        rw [hw] at hr
        exact mul_eq_zero_of_right x hr

def kMph : Headline MphRow := 
  ofMeans .mph "move/hr" 2 MphRow.kMphPerActiveHour MphRow.activeHours
    (fun rows => (rows.map fun r => r.vessel ++ "/" ++ r.voyage).dedup.length) (by decide) (by decide)

/-- The sum of the counts, as the samples of the KPI. -/
def counted {R : Type} (w : R → Option Amount) (rows : List R) : ℤ := ⌊sum (rows.map fun r => amount (w r))⌋

def kQcNomove : Headline QcQRow := 
  ofMeans .qcNomove "s" 1 QcQRow.avgIdleSec QcQRow.idlePeriods (counted QcQRow.idlePeriods) (by decide) (by decide)

def kQcTtWait : Headline QcQRow := 
  ofMeans .qcTtWait "s" 1 QcQRow.sameBayAvgSec QcQRow.sameBayPeriods (counted QcQRow.sameBayPeriods) (by decide) (by decide)

def kRtgQ : Headline CraneQRow := 
  ofMeans .rtgQ "s" 1 CraneQRow.kCraneQAvgSec CraneQRow.inRange (counted CraneQRow.inRange) (by decide) (by decide)

def kEmpty : Headline EmptyRow where
  kpiKey := .empty
  unit := "km/Job"
  prec := 4
  scale := 1 / 1000
  num := fun r => (orZero r.totalEmptyM).val
  weight := fun r => orZero r.jobs
  sampleN := counted EmptyRow.jobs
  rolls := by decide
  fits := le_rfl
  weighed := by
    intro r hr
    cases hm : r.totalEmptyM with
    | none => rfl
    | some m =>
      by_contra hpos
      obtain ⟨j, hj, hlt⟩ := r.counted m hm (lt_of_le_of_ne m.nonneg (Ne.symm hpos))
      rw [Option.mem_def.mp hj] at hr
      exact hlt.ne' hr

def kEmptyR : Headline EmptyRow where
  kpiKey := .emptyR
  unit := "%"
  prec := 4
  scale := 100
  num := fun r => (orZero r.totalEmptyM).val
  weight := fun r => (orZero r.totalEmptyM).add (orZero r.totalLadenM)
  sampleN := counted EmptyRow.jobs
  rolls := by decide
  fits := le_rfl
  weighed := fun r hr => ((add_eq_zero_iff_of_nonneg (orZero _).nonneg (orZero _).nonneg).mp hr).1

/-- The six KPIs, by source. The others of the table are no weighted means of rows. -/
def headlines : (src : Source) → List (Headline src.Row)
  | .util => []
  | .mph => [kMph]
  | .qcq => [kQcNomove, kQcTtWait]
  | .empty => [kEmpty, kEmptyR]
  | .cycle => []
  | .craneq => [kRtgQ]

theorem sum_eq {R : Type} (f : R → Option ℚ) (rows : List R) : sum (rows.map f) = (rows.map fun r => (f r).getD 0).sum :=
  sum_reduceOption_map f rows

section sources
variable (date : ℤ) (sh : Shift)

theorem ofMeans_row {R : Type} {k : Kpi} {unit : String} {prec : ℕ} {v : R → Option ℚ} {w : R → Option Amount}
    {n : List R → ℤ} {rolls : k ∈ rollupKeys} {fits : prec ≤ 4} (rows : List R) :
    (ofMeans k unit prec v w n rolls fits).row date sh rows =
      let num := sum (rows.map fun r => Option.map₂ (· * ·) (v r) (amount (w r)))
      let den := sum (rows.map fun r => amount (w r))
      upsertShift date sh k unit (if 0 < den then some (roundTo prec (num / den)) else none) (some (n rows)) (some den) := by
  simp [ofMeans, Headline.row, Headline.fold, Headline.amount, Headline.total, sum_eq, orZero_val]

theorem srcMphVessels_eq (rows : List MphRow) : srcMphVessels date sh rows = [kMph.row date sh rows] := by
  rw [kMph, ofMeans_row]
  rfl

theorem srcQcq_eq (rows : List QcQRow) :
    srcQcq date sh rows = [kQcNomove.row date sh rows, kQcTtWait.row date sh rows] := by
  rw [kQcNomove, kQcTtWait, ofMeans_row, ofMeans_row]
  rfl

theorem srcCraneq_eq (rows : List CraneQRow) : srcCraneq date sh rows = [kRtgQ.row date sh rows] := by
  rw [kRtgQ, ofMeans_row]
  rfl

theorem srcEmpty_eq (rows : List EmptyRow) :
    srcEmpty date sh rows = [kEmpty.row date sh rows, kEmptyR.row date sh rows] := by
  have hboth : kEmptyR.total rows =
      sum (rows.map fun r => amount r.totalEmptyM) + sum (rows.map fun r => amount r.totalLadenM) := by
    rw [sum_eq, sum_eq, ← List.sum_map_add]
    simp only [← orZero_val]
    rfl
  unfold srcEmpty Headline.row Headline.fold
  rw [hboth]
  simp [kEmpty, kEmptyR, Headline.amount, Headline.total, counted, sum_eq, orZero_val, div_eq_mul_inv]

end sources

/-! ## What a tick writes -/

def Kpi.source : Kpi → Source
  | .util => .util
  | .mph => .mph
  | .qcNomove => .qcq
  | .qcTtWait => .qcq
  | .empty => .empty
  | .emptyR => .empty
  | .rtgQ => .craneq
  | .cycle => .cycle
  | .cycleDs => .cycle
  | .cycleLd => .cycle

theorem headlines_cases {P : (src : Source) → Headline src.Row → Prop} (mph : P .mph kMph) (nomove : P .qcq kQcNomove)
    (wait : P .qcq kQcTtWait) (empty : P .empty kEmpty) (emptyR : P .empty kEmptyR) (rtgQ : P .craneq kRtgQ) :
    ∀ src h, h ∈ headlines src → P src h
  | .util, _, hh => absurd hh List.not_mem_nil
  | .mph, _, hh => List.mem_singleton.mp hh ▸ mph
  | .qcq, _, hh => (List.mem_cons.mp hh).elim (fun e => e ▸ nomove) fun hh => List.mem_singleton.mp hh ▸ wait
  | .empty, _, hh => (List.mem_cons.mp hh).elim (fun e => e ▸ empty) fun hh => List.mem_singleton.mp hh ▸ emptyR
  | .cycle, _, hh => absurd hh List.not_mem_nil
  | .craneq, _, hh => List.mem_singleton.mp hh ▸ rtgQ

variable {src : Source} {h : Headline src.Row}

theorem source_headline (hh : h ∈ headlines src) : Kpi.source h.kpiKey = src := 
  headlines_cases (P := fun src h => Kpi.source h.kpiKey = src) rfl rfl rfl rfl rfl rfl src h hh

theorem mem_writes {t : Tick} {r : ShiftRow} (hr : r ∈ t.writes) :
    r.businessDate = t.date ∧ r.shift = t.shift ∧ Kpi.source r.kpiKey = t.src := by
  obtain ⟨date, sh, src, rows⟩ := t
  cases src with
  | qcq | empty =>
    rcases List.mem_cons.mp hr with rfl | hr
    · exact ⟨rfl, rfl, rfl⟩
    · rw [List.mem_singleton.mp hr]
      exact ⟨rfl, rfl, rfl⟩
  | _ =>
    rw [List.mem_singleton.mp hr]
    exact ⟨rfl, rfl, rfl⟩

theorem writes_eq (date : ℤ) (sh : Shift) : ∀ (src : Source) (rows : List src.Row), headlines src ≠ [] →
    (Tick.mk date sh src rows).writes = (headlines src).map fun h => h.row date sh rows
  | .mph, rows, _ => srcMphVessels_eq date sh rows
  | .qcq, rows, _ => srcQcq_eq date sh rows
  | .empty, rows, _ => srcEmpty_eq date sh rows
  | .craneq, rows, _ => srcCraneq_eq date sh rows
  | .util, _, hne => absurd rfl hne
  | .cycle, _, hne => absurd rfl hne

theorem writes_own (hh : h ∈ headlines src) (date : ℤ) (sh : Shift) (rows : List src.Row) :
    (Tick.mk date sh src rows).writes.filter (fun r => r.kpiKey = h.kpiKey) = [h.row date sh rows] := by
  rw [writes_eq date sh src rows (List.ne_nil_of_mem hh)]
  refine headlines_cases (P := fun src h => ∀ rows : List src.Row, ((headlines src).map fun h => h.row date sh rows).filter
    (fun r => r.kpiKey = h.kpiKey) = [h.row date sh rows]) ?_ ?_ ?_ ?_ ?_ ?_ src h hh rows <;> exact fun rows => rfl

/-- **A tick of the source of a KPI writes its row**, and one of another source none. -/
theorem writes_headline (hh : h ∈ headlines src) (t : Tick) :
    t.writes.filter (fun r => r.kpiKey = h.kpiKey) = ((t.rowsOf src).map (h.row t.date t.shift)).toList := by
  by_cases hsrc : t.src = src
  · subst hsrc
    rw [writes_own hh, Tick.rowsOf, dif_pos rfl]
    rfl
  · rw [Tick.rowsOf, dif_neg hsrc, Option.map_none, Option.toList_none, List.filter_eq_nil_iff]
    intro r hr hkey
    apply hsrc
    rw [← (mem_writes hr).2.2, ← source_headline hh, of_decide_eq_true hkey]

/-! ## The table after a run -/

section run
variable (run : List Tick) (date : ℤ)

theorem filter_writes (hh : h ∈ headlines src) (sh : Shift) :
    (run.flatMap Tick.writes).filter (fun r => r.pk = (date, sh, h.kpiKey)) =
      ((run.filter fun t => t.date = date ∧ t.shift = sh).filterMap (Tick.rowsOf src)).map (h.row date sh) := by
  induction run with
  | nil => rfl
  | cons t run ih =>
    have htick : t.writes.filter (fun r => r.pk = (date, sh, h.kpiKey)) =
        if t.date = date ∧ t.shift = sh then ((t.rowsOf src).map (h.row date sh)).toList else [] := by
      split
      · rename_i ht
        rw [← ht.1, ← ht.2, ← writes_headline hh]
        apply List.filter_congr
        intro r hr
        simp [ShiftRow.pk, (mem_writes hr).1, (mem_writes hr).2.1]
      · rename_i ht
        rw [List.filter_eq_nil_iff]
        intro r hr hpk
        obtain ⟨hdate, hsh⟩ := Prod.mk.inj (of_decide_eq_true hpk)
        exact ht ⟨(mem_writes hr).1 ▸ hdate, (mem_writes hr).2.1 ▸ (Prod.mk.inj hsh).1⟩
    rw [List.flatMap_cons, List.filter_append, ih, htick]
    by_cases ht : t.date = date ∧ t.shift = sh
    · rw [if_pos ht, List.filter_cons_of_pos (by simpa using ht)]
      cases hrows : t.rowsOf src <;> simp [hrows]
    · rw [if_neg ht, List.filter_cons_of_neg (by simpa using ht)]
      rfl

/-- **The table has the rows of the last ticks.** -/
theorem mem_kpiShift (hh : h ∈ headlines src) {r : ShiftRow} :
    r ∈ kpiShift run ∧ r.businessDate = date ∧ r.kpiKey = h.kpiKey ↔
      ∃ sh, ∃ rows ∈ lastRows run date src sh, r = h.row date sh rows := by
  have hlast : ∀ sh, ((run.flatMap Tick.writes).filter fun r' => r'.pk = (date, sh, h.kpiKey)).getLast? =
      (lastRows run date src sh).map (h.row date sh) := by
    intro sh
    rw [filter_writes run date hh, List.getLast?_map]
    rfl
  unfold kpiShift
  rw [mem_current_iff]
  constructor
  · intro ⟨hr, hdate, hkey⟩
    have hpk : r.pk = (date, r.shift, h.kpiKey) := by rw [← hdate, ← hkey]; rfl
    rw [hpk, hlast] at hr
    obtain ⟨rows, hrows, heq⟩ := Option.map_eq_some_iff.mp hr
    exact ⟨r.shift, rows, hrows, heq.symm⟩
  · intro ⟨sh, rows, hrows, hr⟩
    subst hr
    refine ⟨?_, rfl, rfl⟩
    rw [show (h.row date sh rows).pk = (date, sh, h.kpiKey) from rfl, hlast, Option.mem_def.mp hrows]
    rfl

end run

/-! ## The columns -/

theorem abs_roundTo_sub_le (prec : ℕ) (x : ℚ) : |roundTo prec x - x| ≤ 1 / 2 / 10 ^ prec := by
  have hpos : (0 : ℚ) < 10 ^ prec := by positivity
  have hround := abs_roundAway_sub_le (x * 10 ^ prec)
  rw [roundTo, le_div_iff₀ hpos, ← abs_of_pos hpos, ← abs_mul, abs_of_pos hpos, sub_mul, div_mul_cancel₀ _ hpos.ne']
  exact hround

theorem roundTo_decimals {p q : ℕ} (hpq : p ≤ q) (z : ℤ) : roundTo q (z / 10 ^ p) = z / 10 ^ p := by
  obtain ⟨k, rfl⟩ := Nat.exists_eq_add_of_le hpq
  have hp : (10 ^ p : ℚ) ≠ 0 := by positivity
  have hk : (10 ^ k : ℚ) ≠ 0 := by positivity
  have hwhole : (z / 10 ^ p * 10 ^ (p + k) : ℚ) = ((z * 10 ^ k : ℤ) : ℚ) := by
    rw [pow_add]
    push_cast
    field_simp
  rw [roundTo, hwhole, roundAway_intCast, pow_add]
  push_cast
  field_simp

namespace Headline
variable {R : Type} (h : Headline R) (date : ℤ) (sh : Shift) (rows : List R)

theorem total_nonneg : 0 ≤ h.total rows := by
  apply List.sum_nonneg
  intro x hx
  obtain ⟨r, -, rfl⟩ := List.mem_map.mp hx
  exact (h.weight r).nonneg

theorem amount_eq_zero (hrows : h.total rows = 0) : h.amount rows = 0 := by
  have hzero : ∀ x ∈ rows.map fun r => (h.weight r).val, x = 0 := by
    apply List.all_zero_of_le_zero_le_of_sum_eq_zero
    · intro x hx
      obtain ⟨r, -, rfl⟩ := List.mem_map.mp hx
      exact (h.weight r).nonneg
    · exact hrows
  apply List.sum_eq_zero
  intro x hx
  obtain ⟨r, hr, rfl⟩ := List.mem_map.mp hx
  exact h.weighed r (hzero _ (List.mem_map_of_mem hr))

theorem roundTo_total : roundTo 4 (h.total rows) = h.total rows := by
  have hunits : ∃ z : ℤ, h.total rows = z / 10 ^ 4 := by
    induction rows with
    | nil => exact ⟨0, by simp [total]⟩
    | cons r rows ih =>
      obtain ⟨z, hz⟩ := ih
      obtain ⟨n, hn⟩ := (h.weight r).units
      refine ⟨n + z, ?_⟩
      unfold total at hz ⊢
      rw [List.map_cons, List.sum_cons, hz, hn]
      push_cast
      ring
  obtain ⟨z, hz⟩ := hunits
  rw [hz, roundTo_decimals le_rfl]

theorem row_weight : (h.row date sh rows).weight = some (h.total rows) := by
  have hstored : (h.row date sh rows).weight = some (roundTo 4 (h.total rows)) := rfl
  rw [hstored, roundTo_total]

theorem row_value : (h.row date sh rows).value = if 0 < h.total rows then some (roundTo h.prec (h.fold rows)) else none := by
  have hstored : (h.row date sh rows).value =
      (if 0 < h.total rows then some (roundTo h.prec (h.fold rows)) else none).map (roundTo 4) := rfl
  rw [hstored]
  split
  · exact congrArg some (roundTo_decimals h.fits _)
  · rfl

theorem row_weighted (hrows : 0 < h.total rows) :
    (h.row date sh rows).weighted = some (roundTo h.prec (h.fold rows) * h.total rows) := by
  rw [ShiftRow.weighted, row_value, if_pos hrows, row_weight]
  rfl

end Headline

/-! ## The shifts of a day -/

theorem Shift.mem_all (sh : Shift) : sh ∈ Shift.all := by cases sh <;> decide

theorem Shift.nodup_all : Shift.all.Nodup := by decide

/-- The rows that a shift has had, as far as its last tick. -/
def rowsOf (run : List Tick) (date : ℤ) (src : Source) (sh : Shift) : List src.Row := (lastRows run date src sh).getD []

def weighty (h : Headline src.Row) (run : List Tick) (date : ℤ) : List Shift :=
  Shift.all.filter fun sh => 0 < h.total (rowsOf run date src sh)

section day
variable (run : List Tick) (date : ℤ)

theorem lastRows_of_weighty {sh : Shift} (hsh : sh ∈ weighty h run date) :
    rowsOf run date src sh ∈ lastRows run date src sh := by
  have hpos := of_decide_eq_true (List.mem_filter.mp hsh).2
  unfold rowsOf at hpos ⊢
  cases hrows : lastRows run date src sh with
  | none =>
    rw [hrows] at hpos
    exact absurd rfl hpos.ne
  | some rows => rfl

theorem positive_of_weighty {sh : Shift} (hsh : sh ∈ weighty h run date) : 0 < h.total (rowsOf run date src sh) :=
  of_decide_eq_true (List.mem_filter.mp hsh).2

theorem mem_valued (hh : h ∈ headlines src) {r : ShiftRow} : r ∈ valued (kpiShift run) date h.kpiKey ↔
    ∃ sh ∈ weighty h run date, h.row date sh (rowsOf run date src sh) = r := by
  unfold valued
  rw [List.mem_filter, decide_eq_true_iff]
  constructor
  · intro ⟨hr, hdate, hkey, hvalue, _⟩
    obtain ⟨sh, rows, hrows, rfl⟩ := (mem_kpiShift run date hh).mp ⟨hr, hdate, hkey⟩
    have hrows' : rowsOf run date src sh = rows := by rw [rowsOf, Option.mem_def.mp hrows]; rfl
    refine ⟨sh, List.mem_filter.mpr ⟨sh.mem_all, ?_⟩, by rw [hrows']⟩
    rw [hrows', decide_eq_true_iff]
    by_contra hpos
    rw [h.row_value, if_neg hpos] at hvalue
    exact Bool.noConfusion hvalue
  · intro ⟨sh, hsh, heq⟩
    subst heq
    obtain ⟨hmem, hdate, hkey⟩ := (mem_kpiShift run date hh).mpr ⟨sh, _, lastRows_of_weighty run date hsh, rfl⟩
    refine ⟨hmem, hdate, hkey, ?_, ?_⟩
    · rw [h.row_value, if_pos (positive_of_weighty run date hsh)]
      rfl
    · rw [h.row_weight]
      rfl

/-- **The roll-up takes the shifts with weight**, each once. -/
theorem valued_perm (hh : h ∈ headlines src) : (valued (kpiShift run) date h.kpiKey).Perm
    ((weighty h run date).map fun sh => h.row date sh (rowsOf run date src sh)) := by
  have hnodup : (kpiShift run).Nodup := List.Nodup.of_map ShiftRow.pk (nodup_current _)
  have hinj : Function.Injective fun sh => h.row date sh (rowsOf run date src sh) :=
    fun _ _ heq => congrArg ShiftRow.shift heq
  refine (List.perm_ext_iff_of_nodup (hnodup.filter _) ((Shift.nodup_all.filter _).map hinj)).mpr fun r => ?_
  exact (mem_valued run date hh).trans List.mem_map.symm

/-- The weight of the shifts, as the query adds it up. -/
def shiftWeight (h : Headline src.Row) : ℚ := ((weighty h run date).map fun sh => h.total (rowsOf run date src sh)).sum

/-- The values of the shifts with their weights, as the query adds them up. -/
def shiftWeighted (h : Headline src.Row) : ℚ :=
  ((weighty h run date).map fun sh =>
    roundTo h.prec (h.fold (rowsOf run date src sh)) * h.total (rowsOf run date src sh)).sum

theorem weight_rows (hh : h ∈ headlines src) :
    (sumNum (fun r => r.weight) (valued (kpiShift run) date h.kpiKey)).getD 0 = shiftWeight run date h := by
  rw [sumNum, sumN_map_getD, ((valued_perm run date hh).map _).sum_eq, List.map_map]
  apply congrArg List.sum
  apply List.map_congr_left
  intro sh _
  simp only [Function.comp_apply, h.row_weight]
  rfl

theorem weighted_rows (hh : h ∈ headlines src) :
    (sumNum ShiftRow.weighted (valued (kpiShift run) date h.kpiKey)).getD 0 = shiftWeighted run date h := by
  rw [sumNum, sumN_map_getD, ((valued_perm run date hh).map _).sum_eq, List.map_map]
  apply congrArg List.sum
  apply List.map_congr_left
  intro sh hsh
  simp only [Function.comp_apply, h.row_weighted _ _ _ (positive_of_weighty run date hsh)]
  rfl

/-- The query has a row if there is weight, and its value is the quotient. -/
theorem rolled_value (hh : h ∈ headlines src) : (rolled (kpiShift run) date h.kpiKey).map DailyRow.value =
    if 0 < shiftWeight run date h then some (roundTo 4 (shiftWeighted run date h / shiftWeight run date h)) else none := by
  unfold rolled
  simp only [positive_iff, weight_rows run date hh]
  by_cases hpos : 0 < shiftWeight run date h
  · rw [if_pos ⟨h.rolls, hpos⟩, if_pos hpos, divN_eq (by rwa [weight_rows run date hh]), weight_rows run date hh]
    have hsome : (sumNum ShiftRow.weighted (valued (kpiShift run) date h.kpiKey)).isSome := by
      obtain ⟨sh, hsh⟩ : ∃ sh, sh ∈ weighty h run date := by
        by_contra hnone
        rw [shiftWeight, List.eq_nil_iff_forall_not_mem.mpr fun sh hsh => hnone ⟨sh, hsh⟩] at hpos
        exact lt_irrefl _ hpos
      rw [sumNum, sumN_map_isSome]
      refine ⟨_, (valued_perm run date hh).mem_iff.mpr (List.mem_map_of_mem hsh), ?_⟩
      rw [h.row_weighted _ _ _ (positive_of_weighty run date hsh)]
      rfl
    obtain ⟨num, hnum⟩ := Option.isSome_iff_exists.mp hsome
    rw [← weighted_rows run date hh, hnum]
    rfl
  · rw [if_neg (fun hand => hpos hand.2), if_neg hpos]
    rfl

/-! ## The roll-up and the fold -/

variable {day : List src.Row}

theorem shiftWeight_eq (hday : day.Perm (Shift.all.flatMap (rowsOf run date src))) :
    shiftWeight run date h = h.total day := by
  rw [Headline.total, sum_map_parts _ hday]
  exact sum_map_filter fun sh _ hsh => le_antisymm (not_lt.mp hsh) (h.total_nonneg _)

theorem amount_eq (hday : day.Perm (Shift.all.flatMap (rowsOf run date src))) :
    ((weighty h run date).map fun sh => h.amount (rowsOf run date src sh)).sum = h.amount day := by
  rw [Headline.amount, sum_map_parts _ hday]
  exact sum_map_filter fun sh _ hsh => h.amount_eq_zero _ (le_antisymm (not_lt.mp hsh) (h.total_nonneg _))

theorem abs_combined_sub_le (hday : day.Perm (Shift.all.flatMap (rowsOf run date src))) (hpos : 0 < h.total day) :
    |shiftWeighted run date h / shiftWeight run date h - h.fold day| ≤ 1 / 2 / 10 ^ h.prec := by
  have hpart : ∀ sh ∈ weighty h run date,
      |roundTo h.prec (h.fold (rowsOf run date src sh)) * h.total (rowsOf run date src sh) -
        h.amount (rowsOf run date src sh) * h.scale| ≤ 1 / 2 / 10 ^ h.prec * h.total (rowsOf run date src sh) := by
    intro sh hsh
    have htotal := positive_of_weighty run date hsh
    have hfold : h.amount (rowsOf run date src sh) * h.scale =
        h.fold (rowsOf run date src sh) * h.total (rowsOf run date src sh) := by
      unfold Headline.fold
      field_simp
    rw [hfold, ← sub_mul, abs_mul, abs_of_pos htotal]
    exact mul_le_mul_of_nonneg_right (abs_roundTo_sub_le _ _) htotal.le
  have hscale : ((weighty h run date).map fun sh => h.amount (rowsOf run date src sh) * h.scale).sum =
      h.amount day * h.scale := by
    rw [List.sum_map_mul_right, amount_eq run date hday]
  have hmean := abs_mean_sub_le (by rw [← shiftWeight, shiftWeight_eq run date hday]; exact hpos) hpart
  rw [hscale, ← shiftWeight, ← shiftWeighted, shiftWeight_eq run date hday, mul_div_right_comm] at hmean
  rw [shiftWeight_eq run date hday]
  exact hmean

end day

/-- What the roll-up of a day makes of a KPI, with the rows `day` in the shifts. -/
structure WithinRounding (h : Headline src.Row) (run : List Tick) (date : ℤ) (day : List src.Row) (daily : KpiDaily) :
    Prop where
  isSome_iff : (rolled (kpiShift run) date h.kpiKey).isSome ↔ 0 < h.total day
  near : ∀ r ∈ rolled (kpiShift run) date h.kpiKey, |r.value - h.fold day| ≤ 1 / 2 / 10 ^ h.prec + 1 / 2 / 10 ^ 4
  written : ∀ r ∈ rolled (kpiShift run) date h.kpiKey, (∀ row ∈ daily h.kpiKey date, row.isProvisional) →
    rollupTodayFromShifts (kpiShift run) date daily h.kpiKey date = some r
  unweighted : h.total day = 0 → rollupTodayFromShifts (kpiShift run) date daily h.kpiKey date = daily h.kpiKey date
  kept : ∀ key d, ∀ row ∈ daily key d, ¬ row.isProvisional → rollupTodayFromShifts (kpiShift run) date daily key d = some row

theorem onConflict_authoritative {row : DailyRow} (h : ¬ row.isProvisional) (new : Option DailyRow) :
    onConflict (some row) new = some row := by
  cases new with
  | none => rfl
  | some r => exact if_neg h

theorem onConflict_provisional {row : Option DailyRow} (h : ∀ r ∈ row, r.isProvisional) (r : DailyRow) :
    onConflict row (some r) = some r := by
  cases row with
  | none => rfl
  | some row => exact if_pos (h row rfl)

/-- **The roll-up of the day**: whatever the ticks were, if the rows of the day are those that the last ticks of its shifts
had, then each of the six KPIs has a value exactly if its weight is positive, and it is the fold over all the rows, up to half a
unit of the rounding of the shifts and half a unit of its own. It replaces what is provisional, and nothing that is not. -/
theorem rollup_within_rounding (run : List Tick) (date : ℤ) (src : Source) (h : Headline src.Row) (hh : h ∈ headlines src)
    (day : List src.Row) (hday : day.Perm (Shift.all.flatMap (rowsOf run date src))) (daily : KpiDaily) :
    WithinRounding h run date day daily := by
  have hvalue := rolled_value run date hh
  rw [shiftWeight_eq run date hday] at hvalue
  have hsome : (rolled (kpiShift run) date h.kpiKey).isSome ↔ 0 < h.total day := by
    rw [← Option.isSome_map (f := DailyRow.value), hvalue]
    split <;> simp [*]
  refine ⟨hsome, ?_, ?_, ?_, ?_⟩
  · intro r hr
    have hpos := hsome.mp (Option.isSome_of_mem hr)
    rw [Option.mem_def.mp hr, if_pos hpos] at hvalue
    have hround := abs_roundTo_sub_le 4 (shiftWeighted run date h / h.total day)
    have hfold := abs_combined_sub_le run date hday hpos
    rw [shiftWeight_eq run date hday] at hfold
    rw [Option.some_inj.mp hvalue, add_comm]
    calc |roundTo 4 (shiftWeighted run date h / h.total day) - h.fold day|
        ≤ |roundTo 4 (shiftWeighted run date h / h.total day) - shiftWeighted run date h / h.total day| +
          |shiftWeighted run date h / h.total day - h.fold day| := abs_sub_le _ _ _
      _ ≤ 1 / 2 / 10 ^ 4 + 1 / 2 / 10 ^ h.prec := add_le_add hround hfold
  · intro r hr hprov
    rw [rollupTodayFromShifts, if_pos rfl, Option.mem_def.mp hr]
    exact onConflict_provisional hprov r
  · intro hzero
    have hnone : rolled (kpiShift run) date h.kpiKey = none := by
      rw [← Option.not_isSome_iff_eq_none, hsome, hzero]
      exact lt_irrefl 0
    rw [rollupTodayFromShifts, if_pos rfl, hnone]
    cases daily h.kpiKey date <;> rfl
  · intro key d row hrow hauth
    rw [rollupTodayFromShifts, Option.mem_def.mp hrow]
    split
    · exact onConflict_authoritative hauth _
    · rfl

def hoursRow (hours : ℕ) (mph : Option ℚ) : MphRow :=
  ⟨"V", "1", some ⟨hours, hours * 10 ^ 4, by push_cast; ring⟩, mph⟩

/-- A night of two ticks with a row that has no rate, a day without rows, and an evening. -/
def threeShifts : List Tick := 
  [⟨9, .night, .mph, [hoursRow 2 (some 20)]⟩, ⟨9, .night, .mph, [hoursRow 2 (some 21), hoursRow 1 none]⟩,
    ⟨9, .day, .mph, []⟩, ⟨9, .evening, .mph, [hoursRow 3 (some (76 / 3))]⟩]

theorem rollup_within_rounding_three : 
    @WithinRounding .mph kMph threeShifts 9 [hoursRow 3 (some (76 / 3)), hoursRow 2 (some 21), hoursRow 1 none]
      (fun _ _ => none) :=
  have hday : ([hoursRow 3 (some (76 / 3))] ++ [hoursRow 2 (some 21), hoursRow 1 none]).Perm
      ([hoursRow 2 (some 21), hoursRow 1 none] ++ [hoursRow 3 (some (76 / 3))]) := List.perm_append_comm
  rollup_within_rounding threeShifts 9 .mph kMph List.mem_cons_self _ hday _

end TtAiops.Api.Rollup
