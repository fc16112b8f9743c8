import TtAiops.Api.Rollup
import TtAiops.Lib.Tilings

/-!
# The shifts (`shift.rs`)

The night shift begins at midnight, the day shift at eight, the evening shift at four; all times are those of the wall clock
at the terminal, in microseconds, and the days are numbered.

* `current`, `window`, `previous` : the shift of a time, the times of a shift, and the shift before;
* `label`, `fromLabel` : the letters in the tables;
* `shifts`, `number` : the division of time into eight hours, and which of them a shift is;
* `mem_window_iff`, `window_eq`, `number_previous` : a shift is the one with its number;
* `shifts_tile` : **the shifts back from any time on tile the time before, and each is the current one of its times**.
-/

namespace TtAiops.Core
open TtAiops.Lib TtAiops.Api.Rollup

def HOUR : ℤ := 3600 * 1000000

def DAY : ℤ := 24 * HOUR

/-- `date`. -/
def dateOf (now : ℤ) : ℤ := now / DAY

/-- `hour`. -/
def hourOf (now : ℤ) : ℤ := now % DAY / HOUR

/-- `and_hms_opt(h, 0, 0)`. -/
def atHour (date h : ℤ) : ℤ := date * DAY + h * HOUR

def startHour : Shift → ℤ
  | .night => 0
  | .day => 8
  | .evening => 16

def current (now : ℤ) : ℤ × Shift :=
  (dateOf now,
    if 0 ≤ hourOf now ∧ hourOf now ≤ 7 then .night else if 8 ≤ hourOf now ∧ hourOf now ≤ 15 then .day else .evening)

def window (date : ℤ) (shift : Shift) : ℤ × ℤ :=
  (atHour date (startHour shift),
    match shift with
    | .night => atHour date 8
    | .day => atHour date 16
    | .evening => atHour (date + 1) 0)

def previous : ℤ × Shift → ℤ × Shift
  | (date, .night) => (date - 1, .evening)
  | (date, .day) => (date, .night)
  | (date, .evening) => (date, .day)

def label : Shift → String
  | .night => "N"
  | .day => "D"
  | .evening => "E"

def fromLabel (s : String) : Option Shift :=
  if s = "N" then some .night else if s = "D" then some .day else if s = "E" then some .evening else none

instance : Fintype Shift := ⟨Shift.all.toFinset, fun sh => List.mem_toFinset.mpr (Shift.mem_all sh)⟩

@[simp] theorem fromLabel_label (sh : Shift) : fromLabel (label sh) = some sh := by cases sh <;> decide

theorem label_injective : Function.Injective label := by
  intro a b hab
  have hsome := congrArg fromLabel hab
  rw [fromLabel_label, fromLabel_label] at hsome
  exact Option.some_inj.mp hsome

/-! ## The number of a shift -/

def shifts : Division := Division.blocks 0 28800000000 (by decide)

/-- The place of a shift in its day. -/
def place : Shift → ℤ
  | .night => 0
  | .day => 1
  | .evening => 2

def number (p : ℤ × Shift) : ℤ := 3 * p.1 + place p.2

theorem place_mem (sh : Shift) : 0 ≤ place sh ∧ place sh ≤ 2 := by cases sh <;> decide

theorem place_injective : Function.Injective place := by
  intro a b hab
  cases a <;> cases b <;> first
    | rfl
    | exact absurd hab (by decide)

theorem number_injective : Function.Injective number := by
  intro p q h
  unfold number at h
  have hp := place_mem p.2
  have hq := place_mem q.2
  exact Prod.ext (by omega) (place_injective (by omega))

theorem number_previous (p : ℤ × Shift) : number (previous p) = number p - 1 := by
  obtain ⟨d, sh⟩ := p
  cases sh <;> simp only [previous, number, place] <;> omega

theorem window_eq (p : ℤ × Shift) : window p.1 p.2 = (shifts.start (number p), shifts.start (number p + 1)) := by
  obtain ⟨d, sh⟩ := p
  unfold shifts Division.blocks
  cases sh <;> refine Prod.ext ?_ ?_ <;>
    simp only [window, number, place, atHour, startHour, DAY, HOUR] <;> push_cast <;> ring

theorem number_current (now : ℤ) : number (current now) = shifts.part now := by
  unfold shifts Division.blocks current dateOf hourOf DAY HOUR
  dsimp only
  split_ifs <;> simp only [number, place] <;> omega

/-- **A time is in the window of a shift exactly if the shift is its current one.** -/
theorem mem_window_iff {now : ℤ} {p : ℤ × Shift} :
    (window p.1 p.2).1 ≤ now ∧ now < (window p.1 p.2).2 ↔ current now = p := by
  rw [window_eq, ← shifts.part_eq_iff, ← number_current]
  exact number_injective.eq_iff

/-- The shifts back from `p` on, the newest first. -/
def backFrom (p : ℤ × Shift) : ℕ → List (ℤ × Shift)
  | 0 => []
  | n + 1 => p :: backFrom (previous p) n

theorem countP_backFrom (p : ℤ × Shift) (n : ℕ) (t : ℤ) : (backFrom p n).countP (current t = ·) =
    if shifts.start (number p + 1 - n) ≤ t ∧ t < shifts.start (number p + 1) then 1 else 0 := by
  induction n generalizing p with
  | zero =>
    rw [Nat.cast_zero, sub_zero, if_neg fun h => absurd h.2 (not_lt.mpr h.1)]
    rfl
  | succ n ih =>
    have hback : number (previous p) + 1 - n = number p + 1 - ↑(n + 1) := by
      rw [number_previous]
      push_cast
      ring
    have hhead : current t = p ↔ shifts.start (number p) ≤ t ∧ t < shifts.start (number p + 1) := by
      rw [← mem_window_iff, window_eq]
    have hle : shifts.start (number p + 1 - ↑(n + 1)) ≤ shifts.start (number p) :=
      shifts.start_strictMono.monotone (by push_cast; omega)
    have hlt := shifts.start_lt_succ (number p)
    rw [backFrom, List.countP_cons, ih, hback, number_previous, sub_add_cancel]
    simp only [decide_eq_true_eq, hhead]
    split_ifs <;> omega

/-- **The shifts tile time.** Of the shifts back from the one of `now` on, every time in the eight hours of each is in one,
which is its current shift, and no other time is in any. -/
theorem shifts_tile (now t : ℤ) (n : ℕ) :
    (backFrom (current now) n).countP (fun p => (window p.1 p.2).1 ≤ t ∧ t < (window p.1 p.2).2) =
      if (window (current now).1 (current now).2).2 - n * (8 * HOUR) ≤ t ∧ t < (window (current now).1 (current now).2).2 then 1
      else 0 := by
  have hstart : shifts.start (number (current now) + 1 - n) = shifts.start (number (current now) + 1) - n * (8 * HOUR) := by
    unfold shifts Division.blocks HOUR
    push_cast
    ring
  rw [window_eq, ← hstart, ← countP_backFrom]
  simp only [mem_window_iff]

end TtAiops.Core
