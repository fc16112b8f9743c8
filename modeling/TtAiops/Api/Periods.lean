import TtAiops.Chrono
import TtAiops.Lib.Ints
import TtAiops.Lib.Loops

/-!
# Periods and calendar buckets (`periods.rs`)

What a step back or forth through the calendar ends the program with, at either end of it, is `none`.

* `resolve` : a period and the one before, by name;
* `dayBuckets`, `weekBuckets`, `monthBuckets` : the last days, weeks and months, the newest first;
* `Cut` : a part of a division of time, cut at today;
* `ranges_cut`, `dayBuckets_cuts`, `weekBuckets_cuts`, `monthBuckets_cuts` : what is returned are parts of a division;
* `resolve_iff`, `dayBuckets_iff`, `weekBuckets_iff`, `monthBuckets_iff` : when it is returned;
* `periods_tile` : **these tile time, and are returned whenever the dates on the way are within the calendar**.
-/

namespace TtAiops.Api.Periods
open TtAiops.Lib TtAiops.Lib.Calendar TtAiops.Chrono

structure Range where
  fromDate : NaiveDate
  toDate : NaiveDate

structure Resolved where
  period : String
  cur : Range
  prev : Range

def firstOfMonth (d : NaiveDate) : Option NaiveDate := NaiveDate.fromYmdOpt (yearOf d.day) (month d.day) 1

def mondayOf (d : NaiveDate) : Option NaiveDate := d.sub (daysFromMonday d.day)

def nextMonth (firstOf : NaiveDate) : Option NaiveDate :=
  if month firstOf.day = 12 then NaiveDate.fromYmdOpt (yearOf firstOf.day + 1) 1 1
  else NaiveDate.fromYmdOpt (yearOf firstOf.day) (month firstOf.day + 1) 1

@[simp] theorem firstOfMonth_eq_some {d e : NaiveDate} : firstOfMonth d = some e ↔ e.day = monthStart (monthOf d.day) := by
  obtain ⟨h1, h12⟩ := month_mem d.day
  rw [firstOfMonth, NaiveDate.fromYmdOpt, ofYmd_first h1 h12, ← monthOf_eq]
  exact NaiveDate.ofDay_eq_some

@[simp] theorem mondayOf_eq_some {d e : NaiveDate} : mondayOf d = some e ↔ e.day = weeks.start (weeks.part d.day) := by
  have hweek : d.day - daysFromMonday d.day = weeks.start (weeks.part d.day) := by
    simp only [weeks, Division.blocks, daysFromMonday]
    omega
  rw [mondayOf, NaiveDate.sub_eq_some, hweek]

theorem nextMonth_eq_some {d e : NaiveDate} : nextMonth d = some e ↔ e.day = monthStart (monthOf d.day + 1) := by
  have hmem := month_mem d.day
  have hof := monthOf_eq d.day
  have hfirst : ∀ y : ℤ, ∀ m : ℕ, 1 ≤ m → m ≤ 12 → 12 * y + (m - 1) = monthOf d.day + 1 →
      (NaiveDate.fromYmdOpt y m 1 = some e ↔ e.day = monthStart (monthOf d.day + 1)) := by
    intro y m h1 h12 hk
    rw [NaiveDate.fromYmdOpt, ofYmd_first h1 h12, hk]
    exact NaiveDate.ofDay_eq_some
  unfold nextMonth
  split_ifs with h
  · exact hfirst _ 1 le_rfl (by omega) (by push_cast; omega)
  · exact hfirst _ _ (by omega) (by omega) (by push_cast; omega)

/-! ## Periods by name -/

/-- The two ranges that `resolve` names, from today and yesterday. -/
def ranges (today y : NaiveDate) : String → Option (Range × Range)
  | "today" => some (⟨today, today⟩, ⟨y, y⟩)
  | "yesterday" => do
    let d ← today.sub 2
    some (⟨y, y⟩, ⟨d, d⟩)
  | "last7" => do
    let start ← today.sub 6
    some (⟨start, today⟩, ⟨← start.sub 7, ← start.sub 1⟩)
  | "last30" => do
    let start ← today.sub 29
    some (⟨start, today⟩, ⟨← start.sub 30, ← start.sub 1⟩)
  | "this_week" => do
    let mon ← mondayOf today
    some (⟨mon, today⟩, ⟨← mon.sub 7, ← mon.sub 1⟩)
  | "last_week" => do
    let mon ← mondayOf today
    let lwFrom ← mon.sub 7
    let lwTo ← mon.sub 1
    some (⟨lwFrom, lwTo⟩, ⟨← lwFrom.sub 7, ← lwTo.sub 7⟩)
  | "this_month" => do
    let first ← firstOfMonth today
    let lmLast ← first.sub 1
    some (⟨first, today⟩, ⟨← firstOfMonth lmLast, lmLast⟩)
  | "last_month" => do
    let firstThis ← firstOfMonth today
    let lmLast ← firstThis.sub 1
    let lmFirst ← firstOfMonth lmLast
    let pmLast ← lmFirst.sub 1
    some (⟨lmFirst, lmLast⟩, ⟨← firstOfMonth pmLast, pmLast⟩)
  | _ => do
    let d ← today.sub 2
    some (⟨y, y⟩, ⟨d, d⟩)

def periodNames : List String :=
  ["today", "yesterday", "last7", "last30", "this_week", "last_week", "this_month", "last_month"]

def resolve (period : String) (today : NaiveDate) : Option Resolved := do
  let y ← today.sub 1
  let (cur, prev) ← ranges today y period
  some ⟨if period ∈ periodNames then period else "yesterday", cur, prev⟩

/-- The division of time that a period is a part of, and how many parts it is back from today. -/
def divisionOf (t : ℤ) : String → Division × ℤ
  | "today" => (days, 0)
  | "yesterday" => (days, 1)
  | "last7" => (Division.blocks (t - 6) 7 seven_pos, 0)
  | "last30" => (Division.blocks (t - 29) 30 (by decide), 0)
  | "this_week" => (weeks, 0)
  | "last_week" => (weeks, 1)
  | "this_month" => (months, 0)
  | "last_month" => (months, 1)
  | _ => (days, 1)

/-- The part `k` of the division, cut at `t`. -/
def Cut (D : Division) (t k : ℤ) (r : Range) : Prop :=
  r.fromDate.day = D.start k ∧ r.toDate.day = min (D.start (k + 1) - 1) t

theorem exists_mondayOf {d : NaiveDate} (h : InRange (weeks.start (weeks.part d.day))) :
    ∃ e, mondayOf d = some e ∧ e.day = weeks.start (weeks.part d.day) :=
  ⟨⟨_, h⟩, mondayOf_eq_some.mpr rfl, rfl⟩

theorem exists_firstOfMonth (d : NaiveDate) : ∃ e, firstOfMonth d = some e ∧ e.day = monthStart (monthOf d.day) :=
  ⟨⟨_, inRange_monthStart d⟩, firstOfMonth_eq_some.mpr rfl, rfl⟩

theorem monthOf_sub_one {d k : ℤ} (h : d = monthStart k - 1) : monthOf d = k - 1 :=
  h ▸ months.part_start_sub_one k

theorem ranges_cut_of {today y : NaiveDate} (hy : today.sub 1 = some y) {period : String} {cur prev : Range}
    (h : ranges today y period = some (cur, prev)) : ∀ D b, divisionOf today.day period = (D, b) →
    Cut D today.day (D.part today.day - b) cur ∧ Cut D today.day (D.part today.day - b - 1) prev := by
  have hmonth : today.day < monthStart (monthOf today.day + 1) := months.lt_start_part_succ today.day
  have hfirst : monthStart (monthOf today.day) ≤ today.day := months.start_part_le today.day
  have hlast : monthStart (monthOf today.day - 1) < monthStart (monthOf today.day) :=
    months.start_strictMono (sub_one_lt _)
  unfold ranges at h
  unfold divisionOf
  rw [NaiveDate.sub_eq_some] at hy
  split at h
  all_goals
    intro D b hD
    obtain ⟨rfl, rfl⟩ := hD
    simp only [Option.bind_eq_bind, Option.bind_eq_some_iff, Option.some.injEq, Prod.mk.injEq, NaiveDate.sub_eq_some,
      mondayOf_eq_some, firstOfMonth_eq_some] at h
  case h_1 =>
    obtain ⟨rfl, rfl⟩ := h
    simp only [Cut, days, Division.blocks]
    omega
  case h_2 =>
    obtain ⟨d, hd, rfl, rfl⟩ := h
    simp only [Cut, days, Division.blocks]
    omega
  case h_3 =>
    obtain ⟨start, hs, d, hd, e, he, rfl, rfl⟩ := h
    simp only [Cut, Division.blocks]
    omega
  case h_4 =>
    obtain ⟨start, hs, d, hd, e, he, rfl, rfl⟩ := h
    simp only [Cut, Division.blocks]
    omega
  case h_5 =>
    obtain ⟨mon, hm, d, hd, e, he, rfl, rfl⟩ := h
    simp only [weeks, Cut, Division.blocks] at hm ⊢
    omega
  case h_6 =>
    obtain ⟨mon, hm, lwFrom, hf, lwTo, ht, d, hd, e, he, rfl, rfl⟩ := h
    simp only [weeks, Cut, Division.blocks] at hm ⊢
    omega
  case h_7 =>
    obtain ⟨first, hf, lmLast, hl, d, hd, rfl, rfl⟩ := h
    rw [monthOf_sub_one (hl.trans (by rw [hf]))] at hd
    simp only [Cut, months, sub_zero, sub_add_cancel]
    omega
  case h_8 =>
    obtain ⟨first, hf, lmLast, hl, lmFirst, hlf, pmLast, hp, d, hd, rfl, rfl⟩ := h
    rw [monthOf_sub_one (hl.trans (by rw [hf]))] at hlf
    rw [monthOf_sub_one (hp.trans (by rw [hlf]))] at hd
    simp only [Cut, months, sub_add_cancel]
    omega
  case h_9 =>
    obtain ⟨d, hd, rfl, rfl⟩ := h
    simp only [Cut, days, Division.blocks]
    omega

theorem ranges_cut {today y : NaiveDate} (hy : today.sub 1 = some y) {period : String} {cur prev : Range}
    (h : ranges today y period = some (cur, prev)) :
    let p := divisionOf today.day period
    Cut p.1 today.day (p.1.part today.day - p.2) cur ∧ Cut p.1 today.day (p.1.part today.day - p.2 - 1) prev :=
  ranges_cut_of hy h _ _ rfl

theorem exists_ranges (today y : NaiveDate) (period : String) : ∀ D b, divisionOf today.day period = (D, b) →
    InRange (D.start (D.part today.day - b - 1)) → ∃ p, ranges today y period = some p := by
  have hmonth : today.day < monthStart (monthOf today.day + 1) := months.lt_start_part_succ today.day
  have hfirst : monthStart (monthOf today.day) ≤ today.day := months.start_part_le today.day
  have hlast : monthStart (monthOf today.day - 1) < monthStart (monthOf today.day) :=
    months.start_strictMono (sub_one_lt _)
  unfold ranges divisionOf
  split
  all_goals
    intro D b hD h
    obtain ⟨rfl, rfl⟩ := hD
    have hback : ∀ (d : NaiveDate) (k : ℤ), _ ≤ d.day - k → 0 ≤ k → ∃ e, d.sub k = some e ∧ e.day = d.day - k :=
      fun d k hle hk => exists_sub (h.between hle d (by omega))
    simp only [days, weeks, months, Division.blocks] at hback h
  case h_1 => exact ⟨_, rfl⟩
  case h_2 =>
    obtain ⟨d, hd, -⟩ := hback today 2 (by omega) (by omega)
    exact ⟨_, by rw [hd]; rfl⟩
  case h_3 =>
    obtain ⟨start, hs, hsd⟩ := hback today 6 (by omega) (by omega)
    obtain ⟨d, hd, -⟩ := hback start 7 (by omega) (by omega)
    obtain ⟨e, he, -⟩ := hback start 1 (by omega) (by omega)
    exact ⟨(⟨start, today⟩, ⟨d, e⟩), by simp [hs, hd, he]⟩
  case h_4 =>
    obtain ⟨start, hs, hsd⟩ := hback today 29 (by omega) (by omega)
    obtain ⟨d, hd, -⟩ := hback start 30 (by omega) (by omega)
    obtain ⟨e, he, -⟩ := hback start 1 (by omega) (by omega)
    exact ⟨(⟨start, today⟩, ⟨d, e⟩), by simp [hs, hd, he]⟩
  case h_5 =>
    obtain ⟨mon, hm, hmd⟩ := exists_mondayOf (d := today)
      (h.between (by simp only [weeks, Division.blocks]; omega) today (weeks.start_part_le _))
    simp only [weeks, Division.blocks] at hmd
    obtain ⟨d, hd, -⟩ := hback mon 7 (by omega) (by omega)
    obtain ⟨e, he, -⟩ := hback mon 1 (by omega) (by omega)
    exact ⟨(⟨mon, today⟩, ⟨d, e⟩), by simp [hm, hd, he]⟩
  case h_6 =>
    obtain ⟨mon, hm, hmd⟩ := exists_mondayOf (d := today)
      (h.between (by simp only [weeks, Division.blocks]; omega) today (weeks.start_part_le _))
    simp only [weeks, Division.blocks] at hmd
    obtain ⟨lwFrom, hf, hfd⟩ := hback mon 7 (by omega) (by omega)
    obtain ⟨lwTo, ht, htd⟩ := hback mon 1 (by omega) (by omega)
    obtain ⟨d, hd, -⟩ := hback lwFrom 7 (by omega) (by omega)
    obtain ⟨e, he, -⟩ := hback lwTo 7 (by omega) (by omega)
    exact ⟨(⟨lwFrom, lwTo⟩, ⟨d, e⟩), by simp [hm, hf, ht, hd, he]⟩
  case h_7 =>
    obtain ⟨first, hf, hfd⟩ := exists_firstOfMonth today
    rw [sub_zero] at hback
    obtain ⟨lmLast, hl, hld⟩ := hback first 1 (by omega) (by omega)
    obtain ⟨d, hd, -⟩ := exists_firstOfMonth lmLast
    exact ⟨(⟨first, today⟩, ⟨d, lmLast⟩), by simp [hf, hl, hd]⟩
  case h_8 =>
    obtain ⟨first, hf, hfd⟩ := exists_firstOfMonth today
    have hlast' : monthStart (monthOf today.day - 1 - 1) < monthStart (monthOf today.day - 1) :=
      months.start_strictMono (sub_one_lt _)
    obtain ⟨lmLast, hl, hld⟩ := hback first 1 (by omega) (by omega)
    obtain ⟨lmFirst, hlf, hlfd⟩ := exists_firstOfMonth lmLast
    rw [monthOf_sub_one (hld.trans (by rw [hfd]))] at hlfd
    obtain ⟨pmLast, hp, hpd⟩ := hback lmFirst 1 (by omega) (by omega)
    obtain ⟨d, hd, -⟩ := exists_firstOfMonth pmLast
    exact ⟨(⟨lmFirst, lmLast⟩, ⟨d, pmLast⟩), by simp [hf, hl, hlf, hp, hd]⟩
  case h_9 =>
    obtain ⟨d, hd, -⟩ := hback today 2 (by omega) (by omega)
    exact ⟨_, by rw [hd]; rfl⟩

/-! ## Buckets -/

def dayBuckets (today : NaiveDate) (n : ℕ) : Option (List Range) :=
  (List.range (u64AsI64 n).toNat).mapM fun (i : ℕ) => do
    let d ← today.sub i
    some ⟨d, d⟩

/-- The closure in `week_buckets`. -/
def weekBucket (today curMon : NaiveDate) (i : ℕ) : Option Range := do
  let mon ← curMon.sub (7 * i)
  some ⟨mon, (← mon.add 6).min today⟩

def weekBuckets (today : NaiveDate) (n : ℕ) : Option (List Range) := do
  let curMon ← mondayOf today
  (List.range (u64AsI64 n).toNat).mapM (weekBucket today curMon)

/-- The loop of `month_buckets`, with `n` rounds to go. -/
def monthRounds (today : NaiveDate) : ℕ → NaiveDate → Option (List Range)
  | 0, _ => some []
  | n + 1, first => do
    let last ← (← nextMonth first).sub 1
    let older ← firstOfMonth (← first.sub 1)
    some (⟨first, last.min today⟩ :: (← monthRounds today n older))

def monthBuckets (today : NaiveDate) (n : ℕ) : Option (List Range) := do
  let first ← firstOfMonth today
  monthRounds today n first

/-- The last parts of a division, cut at `t`, the newest first. -/
def Cuts (D : Division) (t : ℤ) (rs : List Range) : Prop := ∀ i (h : i < rs.length), Cut D t (D.part t - i) rs[i]

theorem dayBuckets_cuts {today : NaiveDate} {n : ℕ} {rs : List Range} (h : dayBuckets today n = some rs) :
    rs.length = (u64AsI64 n).toNat ∧ Cuts days today.day rs := by
  obtain ⟨hlen, hget⟩ := mapM_range_eq_some_iff.mp h
  refine ⟨hlen, fun i hi => ?_⟩
  have hr := hget i hi
  simp only [Option.bind_eq_bind, Option.bind_eq_some_iff, Option.some.injEq, NaiveDate.sub_eq_some] at hr
  obtain ⟨d, hd, hr⟩ := hr
  rw [← hr]
  simp only [Cut, days, Division.blocks]
  omega

theorem weekBuckets_cuts {today : NaiveDate} {n : ℕ} {rs : List Range} (h : weekBuckets today n = some rs) :
    rs.length = (u64AsI64 n).toNat ∧ Cuts weeks today.day rs := by
  unfold weekBuckets at h
  simp only [Option.bind_eq_bind, Option.bind_eq_some_iff, mondayOf_eq_some] at h
  obtain ⟨curMon, hmon, h⟩ := h
  obtain ⟨hlen, hget⟩ := mapM_range_eq_some_iff.mp h
  refine ⟨hlen, fun i hi => ?_⟩
  have hr := hget i hi
  simp only [weekBucket, Option.bind_eq_bind, Option.bind_eq_some_iff, Option.some.injEq, NaiveDate.sub_eq_some,
    NaiveDate.add_eq_some] at hr
  obtain ⟨mon, hm, sun, hs, hr⟩ := hr
  rw [← hr]
  simp only [weeks, Division.blocks] at hmon
  simp only [Cut, weeks, Division.blocks, NaiveDate.min_day]
  omega

theorem monthRounds_cuts {today : NaiveDate} {n : ℕ} {first : NaiveDate} {rs : List Range} {k : ℤ}
    (hk : first.day = monthStart k) (h : monthRounds today n first = some rs) :
    rs.length = n ∧ ∀ i (h : i < rs.length), Cut months today.day (k - i) rs[i] := by
  induction n generalizing first rs k with
  | zero =>
    obtain rfl := Option.some.inj h
    exact ⟨rfl, fun i hi => absurd hi (Nat.not_lt_zero i)⟩
  | succ n ih =>
    simp only [monthRounds, Option.bind_eq_bind, Option.bind_eq_some_iff, Option.some.injEq, NaiveDate.sub_eq_some,
      nextMonth_eq_some, firstOfMonth_eq_some] at h
    obtain ⟨next, hnext, last, hlast, prev, hprev, older, holder, rest, hrest, rfl⟩ := h
    rw [monthOf_sub_one (hprev.trans (by rw [hk]))] at holder
    obtain ⟨hlen, hget⟩ := ih holder hrest
    refine ⟨by simp [hlen], fun i hi => ?_⟩
    cases i with
    | zero =>
      rw [hk, show monthOf (monthStart k) = k from months.part_start k] at hnext
      simp only [Cut, months, List.getElem_cons_zero, NaiveDate.min_day, Nat.cast_zero, sub_zero]
      exact ⟨hk, by rw [hlast, hnext]⟩
    | succ i =>
      have hcut := hget i (Nat.lt_of_succ_lt_succ hi)
      rw [sub_sub, add_comm 1 (i : ℤ)] at hcut
      rwa [List.getElem_cons_succ, Nat.cast_succ]

theorem monthBuckets_cuts {today : NaiveDate} {n : ℕ} {rs : List Range} (h : monthBuckets today n = some rs) :
    rs.length = n ∧ Cuts months today.day rs := by
  simp only [monthBuckets, Option.bind_eq_bind, Option.bind_eq_some_iff, firstOfMonth_eq_some] at h
  obtain ⟨first, hfirst, h⟩ := h
  exact monthRounds_cuts hfirst h

/-- The dates that `day_buckets` computes are within the calendar. -/
def DaysFit (today : NaiveDate) (n : ℕ) : Prop := n = 0 ∨ InRange (today.day - (n - 1))

/-- So are those of `week_buckets`: this Monday and, if a week is asked for, the oldest Monday and the coming Sunday. -/
def WeeksFit (today : NaiveDate) (n : ℕ) : Prop :=
  InRange (weeks.start (weeks.part today.day)) ∧
    (n = 0 ∨ InRange (weeks.start (weeks.part today.day - (n - 1))) ∧ InRange (weeks.start (weeks.part today.day) + 6))

/-- So are those of `month_buckets`: the first of the coming month and that of the month before the oldest. -/
def MonthsFit (today : NaiveDate) (n : ℕ) : Prop :=
  n = 0 ∨ InRange (monthStart (monthOf today.day - n)) ∧ InRange (monthStart (monthOf today.day + 1))

/-- So are those of `resolve`. -/
def PeriodFits (period : String) (today : NaiveDate) : Prop :=
  let p := divisionOf today.day period
  InRange (p.1.start (p.1.part today.day - p.2 - 1))

theorem dayBuckets_iff {today : NaiveDate} {n : ℕ} (hn : n < 2 ^ 63) :
    (∃ rs, dayBuckets today n = some rs) ↔ DaysFit today n := by
  refine ⟨fun ⟨rs, hrs⟩ => ?_, fun hfit => ?_⟩
  · obtain ⟨hlen, hcuts⟩ := dayBuckets_cuts hrs
    rw [toNat_u64AsI64 hn] at hlen
    refine Nat.eq_zero_or_pos n |>.imp_right fun hpos => ?_
    have hday := (hcuts (n - 1) (by omega)).1
    have hin := rs[n - 1].fromDate.inRange
    rw [hday] at hin
    simp only [days, Division.blocks] at hin
    convert hin using 1
    omega
  · refine exists_mapM fun i hi => ?_
    rw [List.mem_range, toNat_u64AsI64 hn] at hi
    obtain ⟨d, hd, -⟩ := exists_sub (d := today) (k := i)
      ((hfit.resolve_left (by omega)).between (by omega) today (by omega))
    exact ⟨_, by rw [hd]; rfl⟩

theorem weekBuckets_iff {today : NaiveDate} {n : ℕ} (hn : n < 2 ^ 63) :
    (∃ rs, weekBuckets today n = some rs) ↔ WeeksFit today n := by
  refine ⟨fun ⟨rs, hrs⟩ => ?_, fun ⟨hmonday, hfit⟩ => ?_⟩
  · obtain ⟨hlen, hcuts⟩ := weekBuckets_cuts hrs
    rw [toNat_u64AsI64 hn] at hlen
    unfold weekBuckets at hrs
    simp only [Option.bind_eq_bind, Option.bind_eq_some_iff, mondayOf_eq_some] at hrs
    obtain ⟨curMon, hmon, hrs⟩ := hrs
    refine ⟨hmon ▸ curMon.inRange, Nat.eq_zero_or_pos n |>.imp_right fun hpos => ⟨?_, ?_⟩⟩
    · have hday := (hcuts (n - 1) (by omega)).1
      have hin := rs[n - 1].fromDate.inRange
      rw [hday] at hin
      convert hin using 2
      omega
    · have hfirst := (mapM_range_eq_some_iff.mp hrs).2 0 (by omega)
      simp only [weekBucket, Option.bind_eq_bind, Option.bind_eq_some_iff, NaiveDate.sub_eq_some,
        NaiveDate.add_eq_some] at hfirst
      obtain ⟨mon, hm, sunday, hs, -⟩ := hfirst
      have hin := sunday.inRange
      rw [hs, hm, hmon, Nat.cast_zero, mul_zero, sub_zero] at hin
      exact hin
  · obtain ⟨curMon, hmon, hmd⟩ := exists_mondayOf hmonday
    rw [weekBuckets, hmon, Option.bind_eq_bind, Option.bind_some]
    refine exists_mapM fun i hi => ?_
    rw [List.mem_range, toNat_u64AsI64 hn] at hi
    obtain ⟨hold, hsunday⟩ := hfit.resolve_left (by omega)
    simp only [weeks, Division.blocks] at hold hsunday hmd
    obtain ⟨mon, hm, hmday⟩ := exists_sub (d := curMon) (k := 7 * i) (hold.between (by omega) curMon (by omega))
    obtain ⟨sunday, hs⟩ := exists_add (d := mon) (k := 6)
      ⟨by have := mon.inRange.1; omega, by have := hsunday.2; omega⟩
    exact ⟨⟨mon, sunday.min today⟩, by simp [weekBucket, hm, hs]⟩

theorem monthRounds_iff {today : NaiveDate} {n : ℕ} {first : NaiveDate} {k : ℤ} (hk : first.day = monthStart k) :
    (∃ rs, monthRounds today n first = some rs) ↔ n = 0 ∨ InRange (monthStart (k - n)) ∧ InRange (monthStart (k + 1)) := by
  have hmono : ∀ {a b : ℤ}, a ≤ b → monthStart a ≤ monthStart b := fun hab => months.start_strictMono.monotone hab
  induction n generalizing first k with
  | zero => exact iff_of_true ⟨[], rfl⟩ (Or.inl rfl)
  | succ n ih =>
    have hof : monthOf first.day = k := hk ▸ months.part_start k
    refine ⟨fun ⟨rs, hrs⟩ => Or.inr ?_, fun hfit => ?_⟩
    · simp only [monthRounds, Option.bind_eq_bind, Option.bind_eq_some_iff, Option.some.injEq, NaiveDate.sub_eq_some,
        nextMonth_eq_some, firstOfMonth_eq_some] at hrs
      obtain ⟨next, hnext, last, hlast, prev, hprev, older, holder, rest, hrest, -⟩ := hrs
      rw [hof] at hnext
      rw [monthOf_sub_one (hprev.trans (by rw [hk]))] at holder
      refine ⟨?_, hnext ▸ next.inRange⟩
      rcases (ih holder).mp ⟨rest, hrest⟩ with rfl | hin
      · rw [Nat.cast_one, ← holder]
        exact older.inRange
      · rw [Nat.cast_succ, show k - (n + 1 : ℤ) = k - 1 - n by ring]
        exact hin.1
    · obtain ⟨hold, hnext⟩ := hfit.resolve_left (Nat.succ_ne_zero n)
      have hprev : InRange (first.day - 1) := by
        have hle : monthStart (k - (n + 1 : ℕ)) ≤ monthStart (k - 1) := hmono (by omega)
        have hlt : monthStart (k - 1) < monthStart k := months.start_strictMono (sub_one_lt k)
        exact hold.between (by omega) first (by omega)
      obtain ⟨prev, hp, hpd⟩ := exists_sub hprev
      obtain ⟨older, ho, hod⟩ := exists_firstOfMonth prev
      rw [monthOf_sub_one (hpd.trans (by rw [hk]))] at hod
      have hin : InRange (monthStart (k + 1) - 1) := by
        have hlt : monthStart k < monthStart (k + 1) := months.start_strictMono (lt_add_one k)
        have := first.inRange.1
        have := hnext.2
        exact ⟨by omega, by omega⟩
      obtain ⟨rest, hrest⟩ := (ih hod).mpr (Nat.eq_zero_or_pos n |>.imp_right fun _ =>
        ⟨by rwa [Nat.cast_succ, show k - (n + 1 : ℤ) = k - 1 - n by ring] at hold,
          by rw [sub_add_cancel, ← hk]; exact first.inRange⟩)
      have hn : nextMonth first = some ⟨_, hnext⟩ := nextMonth_eq_some.mpr (by rw [hof])
      have hl : NaiveDate.sub ⟨_, hnext⟩ 1 = some ⟨_, hin⟩ := NaiveDate.sub_eq_some.mpr rfl
      exact ⟨_, by simp only [monthRounds, hn, hl, hp, ho, hrest, Option.bind_eq_bind, Option.bind_some]; rfl⟩

theorem monthBuckets_iff {today : NaiveDate} {n : ℕ} : (∃ rs, monthBuckets today n = some rs) ↔ MonthsFit today n := by
  obtain ⟨first, hf, hfd⟩ := exists_firstOfMonth today
  rw [monthBuckets, hf]
  exact monthRounds_iff hfd

theorem divisionOf_back (t : ℤ) (period : String) : 0 ≤ (divisionOf t period).2 := by
  unfold divisionOf
  split <;> first | exact le_rfl | exact zero_le_one

/-- A part so far back starts no later than today, and the one before it starts earlier. -/
theorem start_back_le (D : Division) (t : ℤ) {b : ℤ} (hb : 0 ≤ b) :
    D.start (D.part t - b - 1) < D.start (D.part t - b) ∧ D.start (D.part t - b) ≤ t :=
  ⟨D.start_strictMono (sub_one_lt _), (D.start_strictMono.monotone (sub_le_self _ hb)).trans (D.start_part_le t)⟩

theorem resolve_iff {period : String} {today : NaiveDate} :
    (∃ r, resolve period today = some r) ↔ PeriodFits period today := by
  have hback := start_back_le (divisionOf today.day period).1 today.day (divisionOf_back today.day period)
  refine ⟨fun ⟨r, hr⟩ => ?_, fun hfit => ?_⟩
  · simp only [resolve, Option.bind_eq_bind, Option.bind_eq_some_iff] at hr
    obtain ⟨y, hy, ⟨cur, prev⟩, hranges, -⟩ := hr
    obtain ⟨-, hprev, -⟩ := ranges_cut hy hranges
    exact (congrArg InRange hprev).mp prev.fromDate.inRange
  · have hle : (divisionOf today.day period).1.start _ ≤ today.day - 1 := Int.le_sub_one_of_lt (hback.1.trans_le hback.2)
    obtain ⟨y, hy, -⟩ := exists_sub (d := today) (k := 1) (InRange.between hfit hle today (by omega))
    obtain ⟨⟨cur, prev⟩, hp⟩ := exists_ranges today y period _ _ rfl hfit
    exact ⟨_, by simp only [resolve, hy, hp, Option.bind_eq_bind, Option.bind_some]; rfl⟩

/-- The first range is not empty and comes right after the second, which is not empty either. -/
structure Adjacent (cur prev : Range) : Prop where
  cur_le : cur.fromDate.day ≤ cur.toDate.day
  prev_le : prev.fromDate.day ≤ prev.toDate.day
  meet : prev.toDate.day + 1 = cur.fromDate.day

theorem resolve_adjacent {period : String} {today : NaiveDate} {r : Resolved} (h : resolve period today = some r) :
    Adjacent r.cur r.prev := by
  have hback := start_back_le (divisionOf today.day period).1 today.day (divisionOf_back today.day period)
  simp only [resolve, Option.bind_eq_bind, Option.bind_eq_some_iff, Option.some.injEq] at h
  obtain ⟨y, hy, ⟨cur, prev⟩, hranges, rfl⟩ := h
  obtain ⟨⟨hcf, hct⟩, hpf, hpt⟩ := ranges_cut hy hranges
  have hnext := (divisionOf today.day period).1.start_lt_succ ((divisionOf today.day period).1.part today.day -
    (divisionOf today.day period).2)
  rw [sub_add_cancel] at hpt
  refine ⟨?_, ?_, ?_⟩ <;> dsimp only <;> omega

/-- So many ranges, each beginning as it should, that tile the days up to today. -/
structure Buckets (first : ℤ → Prop) (t : ℤ) (n : ℕ) (rs : List Range) : Prop where
  length : rs.length = n
  starts : ∀ r ∈ rs, first r.fromDate.day
  tiles : Tiles (fun r => r.fromDate.day) (fun r => r.toDate.day) t rs
  once : ∀ (hne : rs ≠ []) d, rs.countP (fun r => r.fromDate.day ≤ d ∧ d ≤ r.toDate.day) =
    if (rs.getLast hne).fromDate.day ≤ d ∧ d ≤ t then 1 else 0

theorem Cuts.buckets {D : Division} {first : ℤ → Prop} {t : ℤ} {rs : List Range} (h : Cuts D t rs)
    (hfirst : ∀ k, first (D.start k)) : Buckets first t rs.length rs := by
  have htiles : Tiles (fun r : Range => r.fromDate.day) (fun r => r.toDate.day) t rs :=
    D.tiles (fun i hi => (h i hi).1) (fun i hi => (h i hi).2)
  refine ⟨rfl, fun r hr => ?_, htiles, fun hne d => htiles.countP_eq hne d⟩
  obtain ⟨i, hi, rfl⟩ := List.getElem_of_mem hr
  exact (h i hi).1 ▸ hfirst _

theorem daysFromMonday_start (w : ℤ) : daysFromMonday (weeks.start w) = 0 := by
  simp only [daysFromMonday, weeks, Division.blocks]
  omega

theorem dayOfMonth_start (k : ℤ) : dayOfMonth (monthStart k) = 1 := by
  have hof : monthOf (monthStart k) = k := months.part_start k
  rw [dayOfMonth, hof]
  simp

/-- **Buckets and periods tile time.** The days, weeks and months are as many as were asked for, in ranges from today back
without a gap, weeks from Mondays on and months from firsts on, and a period comes right after the one before it. They are
returned exactly if the dates computed on the way are within the calendar. -/
theorem periods_tile (today : NaiveDate) :
    (∀ n < 2 ^ 63, ((∃ rs, dayBuckets today n = some rs) ↔ DaysFit today n) ∧
      ∀ rs, dayBuckets today n = some rs → Buckets (fun _ => True) today.day n rs) ∧
    (∀ n < 2 ^ 63, ((∃ rs, weekBuckets today n = some rs) ↔ WeeksFit today n) ∧
      ∀ rs, weekBuckets today n = some rs → Buckets (fun d => daysFromMonday d = 0) today.day n rs) ∧
    (∀ n, ((∃ rs, monthBuckets today n = some rs) ↔ MonthsFit today n) ∧
      ∀ rs, monthBuckets today n = some rs → Buckets (fun d => dayOfMonth d = 1) today.day n rs) ∧
    ∀ period, ((∃ r, resolve period today = some r) ↔ PeriodFits period today) ∧
      ∀ r, resolve period today = some r → Adjacent r.cur r.prev := by
  refine ⟨fun n hn => ⟨dayBuckets_iff hn, fun rs hrs => ?_⟩, fun n hn => ⟨weekBuckets_iff hn, fun rs hrs => ?_⟩,
    fun n => ⟨monthBuckets_iff, fun rs hrs => ?_⟩, fun period => ⟨resolve_iff, fun r hr => resolve_adjacent hr⟩⟩
  · obtain ⟨hlen, hcuts⟩ := dayBuckets_cuts hrs
    rw [toNat_u64AsI64 hn] at hlen
    exact hlen ▸ hcuts.buckets fun _ => trivial
  · obtain ⟨hlen, hcuts⟩ := weekBuckets_cuts hrs
    rw [toNat_u64AsI64 hn] at hlen
    exact hlen ▸ hcuts.buckets daysFromMonday_start
  · obtain ⟨hlen, hcuts⟩ := monthBuckets_cuts hrs
    exact hlen ▸ hcuts.buckets dayOfMonth_start

def midJanuary : NaiveDate := ⟨20468, by decide +kernel⟩

/-- Three weeks that reach across the turn of the year. -/
theorem periods_tile_january : ∃ rs, weekBuckets midJanuary 3 = some rs ∧
    Buckets (fun d => daysFromMonday d = 0) 20468 3 rs := by
  obtain ⟨-, hweeks, -⟩ := periods_tile midJanuary
  obtain ⟨hiff, hall⟩ := hweeks 3 (by decide)
  obtain ⟨rs, hrs⟩ := hiff.mpr ⟨by decide +kernel, Or.inr ⟨by decide +kernel, by decide +kernel⟩⟩
  exact ⟨rs, hrs, hall rs hrs⟩

def firstDay : NaiveDate := ⟨yearStart MIN_YEAR, by decide +kernel⟩

/-- Nothing comes before the first day of the calendar. -/
theorem firstDay_ends : resolve "today" firstDay = none ∧ dayBuckets firstDay 2 = none ∧ monthBuckets firstDay 1 = none := by
  decide +kernel

end TtAiops.Api.Periods
