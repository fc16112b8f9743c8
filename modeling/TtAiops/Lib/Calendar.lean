import TtAiops.Lib.Tilings

/-!
# The Gregorian calendar

The days are numbered from the first of 1970, the months from January of the year 0; the calendar goes on in both directions.

* `yearStart`, `monthLength`, `monthStart`, `daysFromMonday` : where years, months and weeks begin;
* `years`, `months`, `weeks`, `days` : the divisions into these;
* `yearOf`, `month`, `dayOfMonth`, `ofYmd` : the date of a day, and the day of a date;
* `ofYmd_date`, `ofYmd_first` : the day of the date of a day, and of the first of a month;
* `date_lt_of_lt` : days are in the order of their dates.
-/

namespace TtAiops.Lib.Calendar

def isLeap (y : ℤ) : Bool := y % 4 == 0 && (y % 100 != 0 || y % 400 == 0)

def leapDays (y : ℤ) : ℤ := if isLeap y then 1 else 0

def yearStart (y : ℤ) : ℤ := 365 * (y - 1970) + ((y - 1) / 4 - (y - 1) / 100 + (y - 1) / 400 - 477)

theorem yearStart_succ (y : ℤ) : yearStart (y + 1) = yearStart y + 365 + leapDays y := by
  unfold yearStart leapDays isLeap
  simp only [Bool.and_eq_true, Bool.or_eq_true, beq_iff_eq, bne_iff_ne]
  split_ifs <;> omega

def yearOf (d : ℤ) : ℤ :=
  let y := 400 * d / 146097 + 1970
  if d < yearStart y then y - 1 else if yearStart (y + 1) ≤ d then y + 1 else y

def years : Division where
  start := yearStart
  part := yearOf
  start_lt_succ := fun y => by
    rw [yearStart_succ]
    unfold leapDays
    split_ifs <;> omega
  start_part_le := fun d => by
    unfold yearOf yearStart
    dsimp only
    split_ifs <;> omega
  lt_start_part_succ := fun d => by
    unfold yearOf
    dsimp only
    split_ifs with hlt hle
    · rwa [sub_add_cancel]
    · unfold yearStart
      omega
    · exact not_le.mp hle

def monthLength (y : ℤ) (m : ℕ) : ℕ :=
  if m = 2 then 28 + (leapDays y).toNat else if m = 4 ∨ m = 6 ∨ m = 9 ∨ m = 11 then 30 else 31

/-- The days of a year before its month of that index, January being 0. -/
def monthOffset (y : ℤ) (i : ℕ) : ℤ := ∑ j ∈ Finset.range i, (monthLength y (j + 1) : ℤ)

theorem leapDays_cases (y : ℤ) : leapDays y = 0 ∨ leapDays y = 1 := by
  unfold leapDays
  split_ifs <;> simp

theorem monthLength_pos (y : ℤ) (m : ℕ) : 28 ≤ monthLength y m := by
  unfold monthLength
  split_ifs <;> omega

theorem monthOffset_succ (y : ℤ) (i : ℕ) : monthOffset y (i + 1) = monthOffset y i + monthLength y (i + 1) :=
  Finset.sum_range_succ _ _

theorem monthOffset_twelve (y : ℤ) : monthOffset y 12 = 365 + leapDays y := by
  rcases leapDays_cases y with h | h <;> simp [monthOffset, Finset.sum_range_succ, monthLength, h]

/-- The first day of a month; the months are numbered from January of the year 0. -/
def monthStart (k : ℤ) : ℤ := yearStart (k / 12) + monthOffset (k / 12) (k % 12).toNat

def monthOf (d : ℤ) : ℤ :=
  12 * yearOf d + (Nat.findGreatest (fun i => monthOffset (yearOf d) i ≤ d - yearStart (yearOf d)) 11 : ℕ)

theorem monthStart_eq (y : ℤ) {i : ℕ} (hi : i < 12) : monthStart (12 * y + i) = yearStart y + monthOffset y i := by
  unfold monthStart
  rw [show (12 * y + i) / 12 = y by omega, show ((12 * y + i) % 12).toNat = i by omega]

theorem monthStart_succ_eq (y : ℤ) {i : ℕ} (hi : i < 12) :
    monthStart (12 * y + i + 1) = yearStart y + monthOffset y (i + 1) := by
  rcases (by omega : i + 1 < 12 ∨ i = 11) with hlt | rfl
  · have h := monthStart_eq y hlt
    rwa [Nat.cast_succ, ← add_assoc] at h
  · rw [show 12 * y + (11 : ℕ) + 1 = 12 * (y + 1) + (0 : ℕ) by push_cast; ring, monthStart_eq (y + 1) (by omega),
      yearStart_succ, monthOffset_twelve]
    simp [monthOffset, add_assoc]

theorem monthStart_succ (k : ℤ) : monthStart (k + 1) = monthStart k + monthLength (k / 12) ((k % 12).toNat + 1) := by
  have hk : k = 12 * (k / 12) + (k % 12).toNat := by omega
  have hi : (k % 12).toNat < 12 := by omega
  calc monthStart (k + 1) = yearStart (k / 12) + monthOffset (k / 12) ((k % 12).toNat + 1) := by
        rw [← monthStart_succ_eq _ hi, ← hk]
    _ = monthStart k + monthLength (k / 12) ((k % 12).toNat + 1) := by rw [monthOffset_succ, monthStart, add_assoc]

def months : Division where
  start := monthStart
  part := monthOf
  start_lt_succ := fun k => by
    have := monthLength_pos (k / 12) ((k % 12).toNat + 1)
    rw [monthStart_succ]
    omega
  start_part_le := fun d => by
    have hle : monthOffset (yearOf d) _ ≤ d - yearStart (yearOf d) :=
      Nat.findGreatest_spec (P := fun i => monthOffset (yearOf d) i ≤ d - yearStart (yearOf d)) (Nat.zero_le 11)
        (by simpa [monthOffset] using show yearStart (yearOf d) ≤ d from years.start_part_le d)
    unfold monthOf
    rw [monthStart_eq _ (Nat.lt_succ_of_le (Nat.findGreatest_le 11))]
    omega
  lt_start_part_succ := fun d => by
    have hlast : Nat.findGreatest (fun i => monthOffset (yearOf d) i ≤ d - yearStart (yearOf d)) 11 < 12 :=
      Nat.lt_succ_of_le (Nat.findGreatest_le 11)
    unfold monthOf
    rw [monthStart_succ_eq _ hlast]
    rcases (by omega : Nat.findGreatest (fun i => monthOffset (yearOf d) i ≤ d - yearStart (yearOf d)) 11 < 11 ∨
      Nat.findGreatest (fun i => monthOffset (yearOf d) i ≤ d - yearStart (yearOf d)) 11 = 11) with hlt | heq
    · have hnot := Nat.findGreatest_is_greatest (Nat.lt_add_one _) hlt
      omega
    · have hyear : d < yearStart (yearOf d + 1) := years.lt_start_part_succ d
      rw [yearStart_succ] at hyear
      rw [heq, monthOffset_twelve]
      omega

def daysFromMonday (d : ℤ) : ℤ := (d + 3) % 7

theorem seven_pos : (0 : ℕ) < 7 := by decide

/-- Weeks begin with Monday. -/
def weeks : Division := Division.blocks (-3) 7 seven_pos

def days : Division := Division.blocks 0 1 one_pos

/-! ## Dates -/

def month (d : ℤ) : ℕ := (monthOf d % 12).toNat + 1

def dayOfMonth (d : ℤ) : ℕ := (d - monthStart (monthOf d)).toNat + 1

/-- The day of a date, if there is such a date. -/
def ofYmd (y : ℤ) (m d : ℕ) : Option ℤ :=
  if 1 ≤ m ∧ m ≤ 12 ∧ 1 ≤ d ∧ d ≤ monthLength y m then some (monthStart (12 * y + (m - 1)) + (d - 1)) else none

theorem monthOf_eq (d : ℤ) : monthOf d = 12 * yearOf d + (month d - 1) := by
  have hlast : Nat.findGreatest (fun i => monthOffset (yearOf d) i ≤ d - yearStart (yearOf d)) 11 ≤ 11 :=
    Nat.findGreatest_le 11
  unfold month monthOf
  omega

theorem month_mem (d : ℤ) : 1 ≤ month d ∧ month d ≤ 12 := by
  unfold month
  omega

theorem dayOfMonth_eq (d : ℤ) : (dayOfMonth d : ℤ) = d - monthStart (monthOf d) + 1 := by
  have hle : monthStart (monthOf d) ≤ d := months.start_part_le d
  unfold dayOfMonth
  omega

theorem monthStart_add_length {y : ℤ} {m : ℕ} (h1 : 1 ≤ m) (h12 : m ≤ 12) :
    monthStart (12 * y + (m - 1) + 1) = monthStart (12 * y + (m - 1)) + monthLength y m := by
  rw [monthStart_succ, show (12 * y + (m - 1)) / 12 = y by omega,
    show ((12 * y + ((m : ℤ) - 1)) % 12).toNat + 1 = m by omega]

theorem dayOfMonth_le (d : ℤ) : dayOfMonth d ≤ monthLength (yearOf d) (month d) := by
  have hlt : d < monthStart (monthOf d + 1) := months.lt_start_part_succ d
  have hlen := monthStart_add_length (y := yearOf d) (month_mem d).1 (month_mem d).2
  rw [← monthOf_eq] at hlen
  have := dayOfMonth_eq d
  omega

theorem ofYmd_date (d : ℤ) : ofYmd (yearOf d) (month d) (dayOfMonth d) = some d := by
  have hvalid : 1 ≤ month d ∧ month d ≤ 12 ∧ 1 ≤ dayOfMonth d ∧ dayOfMonth d ≤ monthLength (yearOf d) (month d) :=
    ⟨(month_mem d).1, (month_mem d).2, Nat.succ_pos _, dayOfMonth_le d⟩
  rw [ofYmd, if_pos hvalid, ← monthOf_eq, dayOfMonth_eq]
  congr 1
  ring

theorem ofYmd_first {y : ℤ} {m : ℕ} (h1 : 1 ≤ m) (h12 : m ≤ 12) : ofYmd y m 1 = some (monthStart (12 * y + (m - 1))) := by
  have hlen := monthLength_pos y m
  rw [ofYmd, if_pos ⟨h1, h12, le_rfl, by omega⟩, Nat.cast_one, sub_self, add_zero]

theorem date_lt_of_lt {d e : ℤ} (h : d < e) :
    yearOf d < yearOf e ∨ yearOf d = yearOf e ∧ (month d < month e ∨ month d = month e ∧ dayOfMonth d < dayOfMonth e) := by
  have hmono : monthOf d ≤ monthOf e := months.part_monotone h.le
  have hd := monthOf_eq d
  have he := monthOf_eq e
  have hdm := month_mem d
  have hem := month_mem e
  rcases hmono.lt_or_eq with hlt | heq
  · omega
  · have hdd := dayOfMonth_eq d
    have hed := dayOfMonth_eq e
    rw [heq] at hdd
    omega

end TtAiops.Lib.Calendar
