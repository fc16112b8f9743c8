import TtAiops.Lib.Durations
import TtAiops.Lib.Nulls

/-!
# The headline KPIs of a day and of a range of days

`agg.rs` aggregates a range from the raw tables, `transform.rs` writes the nightly row of one day.

* `Tables` : the raw tables, their columns nullable where the schema has them so;
* `rawNd`, `todayContrib`, `finish`, `aggregate` : the range;
* `select`, `upsertDaily`, `kpiDaily` : the nightly rows;
* `Agrees` : the range of one day returns what the night writes;
* `Complete`, `agrees_iff` : that is so unless a KPI has weight and no numerator, or jobs nowhere to count.
-/

namespace TtAiops.Api.Agg
open TtAiops.Lib

/-! ## The raw tables -/

structure RawKEmpty where
  snapshotDate : ℤ
  jobs : Option ℤ
  totalEmptyM : Option ℚ
  totalLadenM : Option ℚ

structure RawKTtCycle where
  snapshotDate : ℤ
  samples : Option ℤ
  medSec : Option ℚ
  dsSamples : Option ℤ
  dsMedSec : Option ℚ
  ldSamples : Option ℤ
  ldMedSec : Option ℚ

structure RawKCraneQDaily where
  workDate : ℤ
  inRange : Option ℤ
  kCraneQAvgSec : Option ℚ

structure RawKMphRealtime where
  snapshotDate : ℤ
  vessel : String
  voyage : String
  activeHours : Option ℚ
  kMphPerActiveHour : Option ℚ

structure RawKQcQ where
  snapshotDate : ℤ
  idlePeriods : Option ℤ
  avgIdleSec : Option ℚ
  sameBayPeriods : Option ℤ
  sameBayAvgSec : Option ℚ

/-- A sample of the trucks at work. Samples of a nearly empty pool are not written. -/
structure UtilTtSample where
  businessDate : ℤ
  assigned : ℤ
  onDuty : ℤ
  onDuty_pos : 1 ≤ onDuty

inductive Kpi
  | util
  | empty
  | emptyR
  | cycle
  | cycleDs
  | cycleLd
  | rtgQ
  | mph
  | qcNomove
  | qcTtWait
deriving DecidableEq, Repr

structure KpiShift where
  businessDate : ℤ
  kpiKey : Kpi
  value : Option ℚ
  sampleN : Option ℤ
  aggWeight : Option ℚ

structure Tables where
  rawKEmpty : List RawKEmpty
  rawKTtCycle : List RawKTtCycle
  rawKCraneQDaily : List RawKCraneQDaily
  rawKMphRealtime : List RawKMphRealtime
  rawKQcQ : List RawKQcQ
  utilTtSample : List UtilTtSample
  kpiShift : List KpiShift

/-! ## Sums over columns -/

section sums
variable {R : Type*}

/-- `sum(w)` of a column of integers, as a number. -/
def sumInt (w : R → Option ℤ) (rows : List R) : Option ℤ := sumN (rows.map w)

/-- `sum(v)`. -/
def sumNum (v : R → Option ℚ) (rows : List R) : Option ℚ := sumN (rows.map v)

def asNum (n : Option ℤ) : Option ℚ := n.map fun n => (n : ℚ)

/-- `v * w`. -/
def mulInt (v : R → Option ℚ) (w : R → Option ℤ) (r : R) : Option ℚ := 
  Option.map₂ (fun (x : ℚ) (n : ℤ) => x * n) (v r) (w r)

/-- `count(distinct vessel||'/'||voyage)`. -/
def countVoyages (rows : List RawKMphRealtime) : ℤ := (rows.map fun r => r.vessel ++ "/" ++ r.voyage).dedup.length

def emptyAndLaden (r : RawKEmpty) : Option ℚ := Option.map₂ (· + ·) r.totalEmptyM r.totalLadenM

def mphHours (r : RawKMphRealtime) : Option ℚ := Option.map₂ (· * ·) r.kMphPerActiveHour r.activeHours

/-- `100.0*assigned/nullif(on_duty,0)`. -/
def utilRatio (r : UtilTtSample) : Option ℚ := 
  divN (some (100 * (r.assigned : ℚ))) (nullif (some (r.onDuty : ℚ)))

/-- `round(x, prec)`. -/
def roundTo (prec : ℕ) (x : ℚ) : ℚ := roundAway (x * 10 ^ prec) / 10 ^ prec

/-- `WHERE date BETWEEN from AND to`. -/
def between (date : R → ℤ) (table : List R) (lo hi : ℤ) : List R := table.filter fun r => lo ≤ date r ∧ date r ≤ hi

/-! ## The range -/

/-- Numerator, denominator and sample count of a query over the raw range, nulls as zero. -/
def rawNd (date : R → ℤ) (table : List R) (num den : List R → Option ℚ) (n : List R → Option ℤ) (lo hi : ℤ) :
    ℚ × ℚ × ℤ :=
  if hi < lo then (0, 0, 0)
  else ((num (between date table lo hi)).getD 0, (den (between date table lo hi)).getD 0,
    (n (between date table lo hi)).getD 0)

/-- The query of a mean weighted with an integer column, which is also what it counts. -/
def weightedNd (date : R → ℤ) (table : List R) (v : R → Option ℚ) (w : R → Option ℤ) (lo hi : ℤ) : ℚ × ℚ × ℤ :=
  rawNd date table (sumNum (mulInt v w)) (fun rows => asNum (sumInt w rows)) (sumInt w) lo hi

end sums

/-- `coalesce(agg_weight, sample_n)`. -/
def KpiShift.weight (r : KpiShift) : Option ℚ := r.aggWeight.or (asNum r.sampleN)

/-- What the shifts of today add to a KPI: sums of value times weight, of weight and of samples. -/
def todayContrib (shifts : List KpiShift) (date : ℤ) (key : Kpi) : ℚ × ℚ × ℤ :=
  let rows := shifts.filter fun r =>
    r.businessDate = date ∧ r.kpiKey = key ∧ r.value.isSome ∧ r.weight.isSome
  ((sumNum (fun r => Option.map₂ (· * ·) r.value r.weight) rows).getD 0, (sumNum KpiShift.weight rows).getD 0,
    (sumInt KpiShift.sampleN rows).getD 0)

/-- The rounded value and its samples, nothing without a denominator. -/
def finish (num den : ℚ) (n : ℤ) (prec : ℕ) (scale : ℚ) : Option ℚ × Option ℤ :=
  if den ≤ 0 then (none, none)
  else (some (roundAway (num / den * scale * 10 ^ prec) / 10 ^ prec), some n)

/-- The KPIs of the days from `lo` to `hi`, seen on the day `today`. -/
def aggregate (t : Tables) (today lo hi : ℤ) (k : Kpi) : Option ℚ × Option ℤ :=
  let rawTo := min hi (today - 1)
  let tc := fun key => if lo ≤ today ∧ today ≤ hi then todayContrib t.kpiShift today key else (0, 0, 0)
  match k with
  | .empty =>
    let (num, den, nr) := rawNd RawKEmpty.snapshotDate t.rawKEmpty
      (fun rows => (sumNum RawKEmpty.totalEmptyM rows).map (· / 1000)) (fun rows => asNum (sumInt RawKEmpty.jobs rows))
      (sumInt RawKEmpty.jobs) lo rawTo
    let (vw, w, nt) := tc .empty
    finish (num + vw) (den + w) (nr + nt) 4 1
  | .emptyR =>
    let (num, den, nr) := rawNd RawKEmpty.snapshotDate t.rawKEmpty (sumNum RawKEmpty.totalEmptyM)
      (sumNum emptyAndLaden) (sumInt RawKEmpty.jobs) lo rawTo
    let (vw, w, nt) := tc .emptyR
    finish (num + vw / 100) (den + w) (nr + nt) 4 100
  | .cycle =>
    let (num, den, nr) := weightedNd RawKTtCycle.snapshotDate t.rawKTtCycle RawKTtCycle.medSec RawKTtCycle.samples lo rawTo
    let (vw, w, nt) := tc .cycle
    finish (num + vw) (den + w) (nr + nt) 1 1
  | .cycleDs =>
    -- these two read the whole range: the ticks write the row of today as well
    let (num, den, nr) := weightedNd RawKTtCycle.snapshotDate t.rawKTtCycle RawKTtCycle.dsMedSec RawKTtCycle.dsSamples lo hi
    finish num den nr 1 1
  | .cycleLd =>
    let (num, den, nr) := weightedNd RawKTtCycle.snapshotDate t.rawKTtCycle RawKTtCycle.ldMedSec RawKTtCycle.ldSamples lo hi
    finish num den nr 1 1
  | .rtgQ =>
    let (num, den, nr) := weightedNd RawKCraneQDaily.workDate t.rawKCraneQDaily RawKCraneQDaily.kCraneQAvgSec
      RawKCraneQDaily.inRange lo rawTo
    let (vw, w, nt) := tc .rtgQ
    finish (num + vw) (den + w) (nr + nt) 1 1
  | .mph =>
    let (num, den, nr) := rawNd RawKMphRealtime.snapshotDate t.rawKMphRealtime (sumNum mphHours)
      (sumNum RawKMphRealtime.activeHours) (fun rows => some (countVoyages rows)) lo rawTo
    let (vw, w, nt) := tc .mph
    finish (num + vw) (den + w) (nr + nt) 2 1
  | .qcNomove =>
    let (num, den, nr) := weightedNd RawKQcQ.snapshotDate t.rawKQcQ RawKQcQ.avgIdleSec RawKQcQ.idlePeriods lo rawTo
    let (vw, w, nt) := tc .qcNomove
    finish (num + vw) (den + w) (nr + nt) 1 1
  | .qcTtWait =>
    let (num, den, nr) := weightedNd RawKQcQ.snapshotDate t.rawKQcQ RawKQcQ.sameBayAvgSec RawKQcQ.sameBayPeriods lo rawTo
    let (vw, w, nt) := tc .qcTtWait
    finish (num + vw) (den + w) (nr + nt) 1 1
  | .util =>
    -- the samples carry their day, so today is in the range as any other day
    let rows := between UtilTtSample.businessDate t.utilTtSample lo hi
    finish ((sumNum utilRatio rows).getD 0) rows.length rows.length 1 1

/-! ## The night -/

/-- A row of `kpi_daily`. -/
structure DailyRow where
  kpiKey : Kpi
  snapshotDate : ℤ
  value : ℚ
  sampleN : Option ℤ
  unit : String
  sourceGrain : String
  isProvisional : Bool

/-- `SELECT value, n … HAVING having`, over the rows of one day. -/
def select {R : Type*} (date : R → ℤ) (table : List R) (d : ℤ) (value : List R → Option ℚ) (n : List R → Option ℤ)
    (having : List R → Bool) : Option (Option ℚ × Option ℤ) :=
  if having (table.filter fun r => date r = d) then
    some (value (table.filter fun r => date r = d), n (table.filter fun r => date r = d))
  else none

/-- The row the selection writes; a value that is null writes none. -/
def upsertDaily (date : ℤ) (kpiKey : Kpi) (unit grain : String) (agg : Option (Option ℚ × Option ℤ)) (provisional : Bool) :
    Option DailyRow :=
  agg.bind fun a => a.1.map fun value => ⟨kpiKey, date, value, a.2, unit, grain, provisional⟩

/-- The selection of a mean weighted with an integer column. -/
def weightedDay {R : Type*} (date : R → ℤ) (table : List R) (d : ℤ) (v : R → Option ℚ) (w : R → Option ℤ) :
    Option (Option ℚ × Option ℤ) :=
  select date table d (fun rows => (divN (sumNum (mulInt v w) rows) (nullif (asNum (sumInt w rows)))).map (roundTo 1))
    (sumInt w) fun rows => positive (sumInt w rows)

def kpiDaily (t : Tables) (date : ℤ) (provisional : Bool) (k : Kpi) : Option DailyRow :=
  match k with
  | .util =>
    upsertDaily date .util "%" "mean(assigned/on_duty) over util_tt_sample"
      (select UtilTtSample.businessDate t.utilTtSample date
        (fun rows => (avgN (rows.map utilRatio)).map (roundTo 1))
        (fun rows => some rows.length) fun rows => decide (0 < rows.length)) provisional
  | .empty =>
    upsertDaily date .empty "km/Job" "sum(total_empty_m)/sum(jobs)/1000"
      (select RawKEmpty.snapshotDate t.rawKEmpty date
        (fun rows => ((divN (sumNum RawKEmpty.totalEmptyM rows) (nullif (asNum (sumInt RawKEmpty.jobs rows)))).map
          (· / 1000)).map (roundTo 4))
        (sumInt RawKEmpty.jobs) fun rows => positive (sumInt RawKEmpty.jobs rows)) provisional
  | .emptyR =>
    upsertDaily date .emptyR "%" "sum(empty)/sum(empty+laden)"
      (select RawKEmpty.snapshotDate t.rawKEmpty date
        (fun rows => ((divN (sumNum RawKEmpty.totalEmptyM rows) (nullif (sumNum emptyAndLaden rows))).map (· * 100)).map
          (roundTo 4))
        (sumInt RawKEmpty.jobs) fun rows => positive (sumNum emptyAndLaden rows)) provisional
  | .cycle =>
    upsertDaily date .cycle "s" "samples-weighted median(med_sec) from raw_k_tt_cycle"
      (weightedDay RawKTtCycle.snapshotDate t.rawKTtCycle date RawKTtCycle.medSec RawKTtCycle.samples) provisional
  | .cycleDs =>
    upsertDaily date .cycleDs "s" "DS samples-weighted median from raw_k_tt_cycle"
      (weightedDay RawKTtCycle.snapshotDate t.rawKTtCycle date RawKTtCycle.dsMedSec RawKTtCycle.dsSamples) provisional
  | .cycleLd =>
    upsertDaily date .cycleLd "s" "LD samples-weighted median from raw_k_tt_cycle"
      (weightedDay RawKTtCycle.snapshotDate t.rawKTtCycle date RawKTtCycle.ldMedSec RawKTtCycle.ldSamples) provisional
  | .rtgQ =>
    upsertDaily date .rtgQ "s" "in_range-weighted mean(avg_sec)"
      (weightedDay RawKCraneQDaily.workDate t.rawKCraneQDaily date RawKCraneQDaily.kCraneQAvgSec RawKCraneQDaily.inRange)
      provisional
  | .mph =>
    upsertDaily date .mph "move/hr" "active_hours-weighted mean(per_active_hour)"
      (select RawKMphRealtime.snapshotDate t.rawKMphRealtime date
        (fun rows => (divN (sumNum mphHours rows) (nullif (sumNum RawKMphRealtime.activeHours rows))).map (roundTo 2))
        (fun rows => some (countVoyages rows)) fun rows => positive (sumNum RawKMphRealtime.activeHours rows)) provisional
  | .qcNomove =>
    upsertDaily date .qcNomove "s" "idle_periods-weighted mean(avg_idle_sec)"
      (weightedDay RawKQcQ.snapshotDate t.rawKQcQ date RawKQcQ.avgIdleSec RawKQcQ.idlePeriods) provisional
  | .qcTtWait =>
    upsertDaily date .qcTtWait "s" "same_bay_periods-weighted mean(same_bay_avg_sec)"
      (weightedDay RawKQcQ.snapshotDate t.rawKQcQ date RawKQcQ.sameBayAvgSec RawKQcQ.sameBayPeriods) provisional

/-! ## One day -/

/-- The aggregate returns a value exactly when the night writes a row, and then its value and sample count. -/
def Agrees (a : Option ℚ × Option ℤ) (r : Option DailyRow) : Prop :=
  (a.1.isSome ↔ r.isSome) ∧ ∀ row ∈ r, a = (some row.value, row.sampleN)

/-- If the weights of the day are more than nothing, one of them has a value. -/
def Weighed {R : Type*} (date : R → ℤ) (table : List R) (d : ℤ) (v : R → Option ℚ) (w : R → Option ℤ) : Prop :=
  0 < (sumInt w (table.filter fun r => date r = d)).getD 0 →
    ∃ r ∈ table.filter (fun r => date r = d), (v r).isSome ∧ (w r).isSome

/-- The raw rows of a day have what their weights need: a KPI with weight has a value to weigh. -/
def Complete (t : Tables) (d : ℤ) : Kpi → Prop
  | .empty =>
    let rows := t.rawKEmpty.filter fun r => r.snapshotDate = d
    0 < (sumInt RawKEmpty.jobs rows).getD 0 → ∃ r ∈ rows, r.totalEmptyM.isSome
  | .emptyR =>
    let rows := t.rawKEmpty.filter fun r => r.snapshotDate = d
    0 < (sumNum emptyAndLaden rows).getD 0 → ∃ r ∈ rows, r.jobs.isSome
  | .cycle => Weighed RawKTtCycle.snapshotDate t.rawKTtCycle d RawKTtCycle.medSec RawKTtCycle.samples
  | .cycleDs => Weighed RawKTtCycle.snapshotDate t.rawKTtCycle d RawKTtCycle.dsMedSec RawKTtCycle.dsSamples
  | .cycleLd => Weighed RawKTtCycle.snapshotDate t.rawKTtCycle d RawKTtCycle.ldMedSec RawKTtCycle.ldSamples
  | .rtgQ => Weighed RawKCraneQDaily.workDate t.rawKCraneQDaily d RawKCraneQDaily.kCraneQAvgSec RawKCraneQDaily.inRange
  | .mph =>
    let rows := t.rawKMphRealtime.filter fun r => r.snapshotDate = d
    0 < (sumNum RawKMphRealtime.activeHours rows).getD 0 → ∃ r ∈ rows, r.kMphPerActiveHour.isSome ∧ r.activeHours.isSome
  | .qcNomove => Weighed RawKQcQ.snapshotDate t.rawKQcQ d RawKQcQ.avgIdleSec RawKQcQ.idlePeriods
  | .qcTtWait => Weighed RawKQcQ.snapshotDate t.rawKQcQ d RawKQcQ.sameBayAvgSec RawKQcQ.sameBayPeriods
  | .util => True

theorem between_day {R : Type*} (date : R → ℤ) (table : List R) (d : ℤ) :
    between date table d d = table.filter fun r => date r = d := by
  apply List.filter_congr
  intro r _
  simp only [decide_eq_decide]
  omega

theorem rawNd_day {R : Type*} (date : R → ℤ) (table : List R) (num den : List R → Option ℚ) (n : List R → Option ℤ)
    (d : ℤ) : rawNd date table num den n d d =
      ((num (table.filter fun r => date r = d)).getD 0, (den (table.filter fun r => date r = d)).getD 0,
        (n (table.filter fun r => date r = d)).getD 0) := by
  rw [rawNd, if_neg (lt_irrefl d), between_day]

/-- Nothing without a denominator on one side and with none above zero on the other; the values are the same
otherwise, as far as there are any. -/
theorem agrees_iff_isSome {num den v : Option ℚ} {n : Option ℤ} {prec : ℕ} {scale : ℚ} {having : Bool} {k : Kpi} {d : ℤ}
    {unit grain : String} {p : Bool} (hhaving : having = true ↔ 0 < den.getD 0)
    (hv : 0 < den.getD 0 → v = num.map fun x => roundTo prec (x / den.getD 0 * scale)) :
    Agrees (finish (num.getD 0) (den.getD 0) (n.getD 0) prec scale)
      (upsertDaily d k unit grain (if having then some (v, n) else none) p) ↔
      (0 < den.getD 0 → num.isSome ∧ n.isSome) := by
  unfold finish upsertDaily Agrees
  by_cases hden : 0 < den.getD 0
  · rw [if_neg (not_le.mpr hden), if_pos (hhaving.mpr hden), hv hden]
    cases num <;> cases n <;> simp [hden, roundTo]
  · have hno : having = false := by simpa using mt hhaving.mp hden
    rw [if_pos (not_lt.mp hden), hno]
    simp [hden]

theorem asNum_getD (n : Option ℤ) : (asNum n).getD 0 = (n.getD 0 : ℤ) := by
  cases n <;> simp [asNum]

theorem asNum_pos {n : Option ℤ} : 0 < (asNum n).getD 0 ↔ 0 < n.getD 0 := by
  rw [asNum_getD]
  exact Int.cast_pos

theorem isSome_of_pos {n : Option ℤ} (h : 0 < n.getD 0) : n.isSome := by
  cases n
  · simp at h
  · rfl

theorem divN_eq {num den : Option ℚ} (h : 0 < den.getD 0) : divN num (nullif den) = num.map (· / den.getD 0) := by
  cases den
  · simp at h
  · exact divN_nullif h.ne'

/-- **A weighted mean agrees exactly when a weight of the day has a value.** -/
theorem weighted_agrees_iff {R : Type*} (date : R → ℤ) (table : List R) (d : ℤ) (v : R → Option ℚ) (w : R → Option ℤ)
    (k : Kpi) (unit grain : String) (p : Bool) :
    Agrees (finish (weightedNd date table v w d d).1 (weightedNd date table v w d d).2.1 (weightedNd date table v w d d).2.2
        1 1) (upsertDaily d k unit grain (weightedDay date table d v w) p) ↔ Weighed date table d v w := by
  rw [weightedNd, rawNd_day]
  unfold weightedDay select
  refine (agrees_iff_isSome (positive_iff.trans asNum_pos.symm) ?_).trans ?_
  · intro hden
    dsimp only
    rw [divN_eq hden, Option.map_map]
    simp [Function.comp_def]
  · rw [asNum_pos, sumNum, sumN_map_isSome, Weighed]
    simp only [mulInt, isSome_map₂]
    exact forall_congr' fun hden => and_iff_left (isSome_of_pos hden)

theorem emptyR_num {rows : List RawKEmpty} (h : 0 < (sumNum emptyAndLaden rows).getD 0) :
    (sumNum RawKEmpty.totalEmptyM rows).isSome := by
  have hsome : (sumNum emptyAndLaden rows).isSome := by
    by_contra hnone
    rw [Option.not_isSome_iff_eq_none.mp hnone] at h
    exact lt_irrefl _ h
  obtain ⟨r, hr, hboth⟩ := sumN_map_isSome.mp hsome
  exact sumN_map_isSome.mpr ⟨r, hr, (isSome_map₂.mp hboth).1⟩

theorem utilRatio_eq (r : UtilTtSample) : utilRatio r = some (100 * (r.assigned : ℚ) / r.onDuty) := by
  have hduty : (r.onDuty : ℚ) ≠ 0 := by
    have := r.onDuty_pos
    exact_mod_cast (by omega : r.onDuty ≠ 0)
  exact divN_nullif hduty

/-- Every sample counts, so the mean of the ratios is their sum by the number of samples. -/
theorem avgN_utilRatio (rows : List UtilTtSample) :
    avgN (rows.map utilRatio) = (sumNum utilRatio rows).map fun s => s / (rows.length : ℚ) := by
  have hall : (rows.map utilRatio).reduceOption.length = rows.length := by
    have hsome : rows.map utilRatio = (rows.map fun r => 100 * (r.assigned : ℚ) / r.onDuty).map some := by
      rw [List.map_map]
      exact List.map_congr_left fun r _ => utilRatio_eq r
    rw [hsome, reduceOption_map_some, List.length_map]
  rw [avgN, hall]
  rfl

theorem util_agrees (t : Tables) (today d : ℤ) : Agrees (aggregate t today d d .util) (kpiDaily t d false .util) := by
  simp only [aggregate, between_day, kpiDaily, select]
  generalize (t.utilTtSample.filter fun r => r.businessDate = d) = rows
  have hpos : decide (0 < rows.length) = true ↔ 0 < (some (rows.length : ℚ)).getD 0 := by simp
  refine (agrees_iff_isSome (n := some (rows.length : ℤ)) hpos ?_).mpr ?_
  · intro _
    rw [avgN_utilRatio, Option.map_map]
    simp [Function.comp_def]
  · intro hden
    obtain ⟨r, hr⟩ := List.exists_mem_of_length_pos (of_decide_eq_true (hpos.mpr hden))
    exact ⟨sumN_map_isSome.mpr ⟨r, hr, by rw [utilRatio_eq]; rfl⟩, rfl⟩

/-- A day before today is read from the tables of the nights alone. -/
theorem past_day {today d : ℤ} (h : d < today) : min d (today - 1) = d ∧ ¬ (d ≤ today ∧ today ≤ d) := by
  constructor <;> omega

theorem empty_agrees_iff (t : Tables) {today d : ℤ} (h : d < today) :
    Agrees (aggregate t today d d .empty) (kpiDaily t d false .empty) ↔ Complete t d .empty := by
  obtain ⟨hto, htoday⟩ := past_day h
  simp only [aggregate, hto, if_neg htoday, add_zero, rawNd_day, kpiDaily, select, Complete]
  generalize (t.rawKEmpty.filter fun r => r.snapshotDate = d) = rows
  refine (agrees_iff_isSome (positive_iff.trans asNum_pos.symm) ?_).trans ?_
  · intro hden
    rw [divN_eq hden, Option.map_map, Option.map_map, Option.map_map]
    congr 1
    funext x
    show roundTo 4 (x / _ / 1000) = roundTo 4 (x / 1000 / _ * 1)
    rw [mul_one, div_right_comm]
  · rw [asNum_pos]
    apply forall_congr'
    intro hden
    rw [and_iff_left (isSome_of_pos hden), Option.isSome_map, sumNum, sumN_map_isSome]

theorem emptyR_agrees_iff (t : Tables) {today d : ℤ} (h : d < today) :
    Agrees (aggregate t today d d .emptyR) (kpiDaily t d false .emptyR) ↔ Complete t d .emptyR := by
  obtain ⟨hto, htoday⟩ := past_day h
  simp only [aggregate, hto, if_neg htoday, zero_div, add_zero, rawNd_day, kpiDaily, select, Complete]
  generalize (t.rawKEmpty.filter fun r => r.snapshotDate = d) = rows
  refine (agrees_iff_isSome positive_iff ?_).trans ?_
  · intro hden
    rw [divN_eq hden, Option.map_map, Option.map_map]
    rfl
  · apply forall_congr'
    intro hden
    rw [and_iff_right (emptyR_num hden), sumInt, sumN_map_isSome]

theorem mph_agrees_iff (t : Tables) {today d : ℤ} (h : d < today) :
    Agrees (aggregate t today d d .mph) (kpiDaily t d false .mph) ↔ Complete t d .mph := by
  obtain ⟨hto, htoday⟩ := past_day h
  simp only [aggregate, hto, if_neg htoday, add_zero, rawNd_day, kpiDaily, select, Complete]
  generalize (t.rawKMphRealtime.filter fun r => r.snapshotDate = d) = rows
  refine (agrees_iff_isSome positive_iff ?_).trans ?_
  · intro hden
    rw [divN_eq hden, Option.map_map]
    simp [Function.comp_def]
  · apply forall_congr'
    intro hden
    rw [and_iff_left (Option.isSome_some), sumNum, sumN_map_isSome]
    simp only [mphHours, isSome_map₂]

/-- **On a day before today the aggregate of that day agrees with the night exactly when the rows of the day are
complete.** -/
theorem agrees_iff (t : Tables) {today d : ℤ} (h : d < today) (k : Kpi) :
    Agrees (aggregate t today d d k) (kpiDaily t d false k) ↔ Complete t d k := by
  obtain ⟨hto, htoday⟩ := past_day h
  cases k with
  | util => exact iff_of_true (util_agrees t today d) trivial
  | empty => exact empty_agrees_iff t h
  | emptyR => exact emptyR_agrees_iff t h
  | mph => exact mph_agrees_iff t h
  | cycle | cycleDs | cycleLd | rtgQ | qcNomove | qcTtWait =>
    simp only [aggregate, hto, if_neg htoday, add_zero]
    exact weighted_agrees_iff _ _ _ _ _ _ _ _ _

/-! ## A median that is missing -/

/-- One day of truck cycles, of which the loading ones came without a median. -/
def oneDay : Tables :=
  ⟨[], [⟨9, some 44, some 900, some 40, some 900, some 4, none⟩], [], [], [], [], []⟩

theorem agrees_oneDay : Agrees (aggregate oneDay 10 9 9 .cycle) (kpiDaily oneDay 9 false .cycle) :=
  (agrees_iff oneDay (by decide) .cycle).mpr fun _ => ⟨_, List.mem_singleton_self _, rfl, rfl⟩

/-- Four loading cycles without a median: the range shows zero seconds, the night writes no row. -/
theorem not_agrees_oneDay : ¬ Agrees (aggregate oneDay 10 9 9 .cycleLd) (kpiDaily oneDay 9 false .cycleLd) :=
  fun h => absurd h.1 (by decide +kernel)

end TtAiops.Api.Agg
