import TtAiops.Lib.Calendar
import TtAiops.Lib.Decimals

/-!
# Dates and times (`chrono`)

The calendar goes from the year `MIN_YEAR` to the year `MAX_YEAR`; the operations on dates and times have no result where
they would leave it. A time has the fraction of its second in nanoseconds, which is a second longer in a leap second.

* `NaiveDate` : the days of the calendar; `ofDay_eq_some`, `sub_eq_some`, `add_eq_some` : its arithmetic;
* `inRange_monthStart` : the first of a month of the calendar is in it;
* `DateTime` : a time, with `addMillis`, and in the order of the seconds and then of the fractions;
* `parseFromStr`, `formatMs` : the formats `%Y%m%d%H%M%S` and `%Y%m%d%H%M%S%3f`.
-/

namespace TtAiops.Chrono
open TtAiops.Lib TtAiops.Lib.Calendar TtAiops.Lib.Decimals

/-! ## Dates -/

def MIN_YEAR : ℤ := -262143
def MAX_YEAR : ℤ := 262142

def InRange (d : ℤ) : Prop := yearStart MIN_YEAR ≤ d ∧ d < yearStart (MAX_YEAR + 1)

instance : DecidablePred InRange := fun _ => inferInstanceAs (Decidable (_ ∧ _))

/-- `NaiveDate`, as the number of its day. -/
structure NaiveDate where
  day : ℤ
  inRange : InRange day

namespace NaiveDate

def ofDay (d : ℤ) : Option NaiveDate := if h : InRange d then some ⟨d, h⟩ else none

def fromYmdOpt (y : ℤ) (m d : ℕ) : Option NaiveDate := (ofYmd y m d).bind ofDay

/-- `d - Duration::days(k)`. -/
def sub (d : NaiveDate) (k : ℤ) : Option NaiveDate := ofDay (d.day - k)

/-- `d + Duration::days(k)`. -/
def add (d : NaiveDate) (k : ℤ) : Option NaiveDate := ofDay (d.day + k)

def min (d e : NaiveDate) : NaiveDate := if e.day < d.day then e else d

@[simp] theorem min_day (d e : NaiveDate) : (d.min e).day = Min.min d.day e.day := by
  unfold min
  split_ifs <;> omega

theorem ofDay_eq_some {d : ℤ} {e : NaiveDate} : ofDay d = some e ↔ e.day = d := by
  unfold ofDay
  split_ifs with h
  · rw [Option.some.injEq]
    exact ⟨fun he => he ▸ rfl, fun he => by cases e; cases he; rfl⟩
  · exact iff_of_false (by simp) fun he => h (he ▸ e.inRange)

@[simp] theorem sub_eq_some {d e : NaiveDate} {k : ℤ} : d.sub k = some e ↔ e.day = d.day - k := ofDay_eq_some

@[simp] theorem add_eq_some {d e : NaiveDate} {k : ℤ} : d.add k = some e ↔ e.day = d.day + k := ofDay_eq_some

end NaiveDate

theorem InRange.between {a d : ℤ} (h : InRange a) (hle : a ≤ d) (t : NaiveDate) (ht : d ≤ t.day) : InRange d :=
  ⟨h.1.trans hle, ht.trans_lt t.inRange.2⟩

theorem exists_sub {d : NaiveDate} {k : ℤ} (h : InRange (d.day - k)) : ∃ e, d.sub k = some e ∧ e.day = d.day - k :=
  ⟨⟨_, h⟩, NaiveDate.sub_eq_some.mpr rfl, rfl⟩

theorem exists_add {d : NaiveDate} {k : ℤ} (h : InRange (d.day + k)) : ∃ e, d.add k = some e :=
  ⟨⟨_, h⟩, NaiveDate.add_eq_some.mpr rfl⟩

theorem yearStart_eq_monthStart (y : ℤ) : yearStart y = monthStart (12 * y) := by
  simpa [monthOffset] using (monthStart_eq y (i := 0) (by omega)).symm

theorem inRange_monthStart (d : NaiveDate) : InRange (monthStart (monthOf d.day)) := by
  have hmin : 12 * MIN_YEAR ≤ monthOf d.day := by
    have hmono := months.part_monotone d.inRange.1
    rwa [yearStart_eq_monthStart, show months.part (monthStart (12 * MIN_YEAR)) = _ from months.part_start _] at hmono
  refine ⟨?_, (months.start_part_le d.day).trans_lt d.inRange.2⟩
  rw [yearStart_eq_monthStart]
  exact months.start_strictMono.monotone hmin

theorem inRange_of_year {d : ℤ} (hmin : MIN_YEAR ≤ yearOf d) (hmax : yearOf d ≤ MAX_YEAR) : InRange d :=
  ⟨(years.start_strictMono.monotone hmin).trans (years.start_part_le d),
    (years.lt_start_part_succ d).trans_le (years.start_strictMono.monotone (Int.add_le_add_right hmax 1))⟩

/-! ## Times -/

/-- `NaiveDateTime`, and `DateTime<Utc>` : the seconds since the start of 1970, and the fraction. -/
@[ext] structure DateTime where
  sec : ℤ
  nano : ℕ
  nano_lt : nano < 2000000000
  inRange : InRange (sec / 86400)
  deriving DecidableEq

namespace DateTime

def make (sec : ℤ) (nano : ℕ) : Option DateTime :=
  if h : nano < 2000000000 ∧ InRange (sec / 86400) then some ⟨sec, nano, h.1, h.2⟩ else none

instance : LT DateTime := ⟨fun t u => t.sec < u.sec ∨ t.sec = u.sec ∧ t.nano < u.nano⟩

/-- `t + Duration::milliseconds(k)`. A leap second is only left when its end is reached. -/
def addMillis (t : DateTime) (k : ℕ) : Option DateTime :=
  let (secs, frac) := (k / 1000, k % 1000 * 1000000)
  if 1000000000 ≤ t.nano ∧ secs = 0 ∧ t.nano + frac < 2000000000 then make t.sec (t.nano + frac)
  else
    let nano := t.nano % 1000000000 + frac
    make (t.sec + secs + (nano / 1000000000 : ℕ)) (nano % 1000000000)

theorem make_eq_some {sec : ℤ} {nano : ℕ} {t : DateTime} : make sec nano = some t ↔ t.sec = sec ∧ t.nano = nano := by
  unfold make
  split_ifs with h
  · rw [Option.some.injEq]
    exact ⟨fun ht => ht ▸ ⟨rfl, rfl⟩, fun ⟨hs, hn⟩ => by cases t; cases hs; cases hn; rfl⟩
  · exact iff_of_false (by simp) fun ⟨hs, hn⟩ => h (hs ▸ hn ▸ ⟨t.nano_lt, t.inRange⟩)

/-- Less than a second, added to a whole second or to the start of a leap second, is added to the fraction. -/
theorem exists_addMillis {t : DateTime} {k : ℕ} (hk : k < 1000) (ht : t.nano % 1000000000 = 0) :
    ∃ u, t.addMillis k = some u ∧ u.sec = t.sec ∧ u.nano = t.nano + k * 1000000 := by
  have hlt := t.nano_lt
  refine ⟨⟨t.sec, t.nano + k * 1000000, by omega, t.inRange⟩, ?_, rfl, rfl⟩
  unfold addMillis
  dsimp only
  split_ifs with h
  · rw [make_eq_some]
    exact ⟨rfl, by dsimp only; omega⟩
  · rw [make_eq_some]
    exact ⟨by dsimp only; omega, by dsimp only; omega⟩

end DateTime

/-- The number of the `w` digits from the place `i`. -/
def field (ds : List Char) (i w : ℕ) : ℕ := value ((ds.drop i).take w)

/-- `NaiveDateTime::parse_from_str` of fourteen digits with `%Y%m%d%H%M%S`. The second 60 is a leap second. -/
def parseFromStr (ds : List Char) : Option DateTime := do
  let day ← ofYmd (field ds 0 4) (field ds 4 2) (field ds 6 2)
  let (hour, min, sec) := (field ds 8 2, field ds 10 2, field ds 12 2)
  if hour < 24 ∧ min < 60 ∧ sec ≤ 60 then
    DateTime.make (day * 86400 + hour * 3600 + min * 60 + Min.min sec 59) (if sec = 60 then 1000000000 else 0)
  else none

/-- A year of `%Y`; other than four digits it has a sign. -/
def yearText (y : ℤ) : List Char :=
  if 0 ≤ y ∧ y < 10000 then digits 4 y.toNat
  else (if y < 0 then '-' else '+') :: if y.natAbs < 10000 then digits 4 y.natAbs else Nat.toDigits 10 y.natAbs

/-- The format `%Y%m%d%H%M%S%3f` of a time. -/
def formatMs (sec : ℤ) (nano : ℕ) : List Char :=
  let day := sec / 86400
  let tod := (sec % 86400).toNat
  yearText (yearOf day) ++ digits 2 (month day) ++ digits 2 (dayOfMonth day) ++ digits 2 (tod / 3600) ++
    digits 2 (tod / 60 % 60) ++ digits 2 (tod % 60 + nano / 1000000000) ++ digits 3 (nano / 1000000 % 1000)

end TtAiops.Chrono
