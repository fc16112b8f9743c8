import TtAiops.Cycle.Frame

/-!
# The date of an arrival time (`parse_arr_dtime`)

The feed gives the time of day of an arrival and no date. The parser attaches the terminal's date of the clock, and goes one
day back if that is more than five minutes ahead. It never goes one day forward.

* `clockFields_hhmm`, `clockFields_hhmmss` : every `HH:MM` and `HH:MM:SS` text has its fields;
* `timeOfDay_eq_some`, `dated_iff` : what the parser returns, and the instants with a time of day, as distances from the clock;
* `parseArrDtime_window` : **when the parser finds the instant in the window of the clock**.
-/

namespace TtAiops.Cycle
open TtAiops.Lib.Texts

/-! ## The texts -/

def twoDigits (n : ℕ) : List Char := [Nat.digitChar (n / 10), Nat.digitChar (n % 10)]

theorem digitChar_spec : ∀ d < 10, isWhitespace (Nat.digitChar d) = false ∧ ':' ≠ Nat.digitChar d := by decide

theorem parseI64_digits : ∀ a < 10, ∀ b < 10, parseI64 [Nat.digitChar a, Nat.digitChar b] = some (10 * a + b : ℤ) := by
  decide +kernel

theorem parseI64_twoDigits {n : ℕ} (hn : n < 100) : parseI64 (twoDigits n) = some (n : ℤ) := by
  rw [twoDigits, parseI64_digits _ (by omega) _ (by omega)]
  congr 1
  omega

/-- A text of numbers of two digits with colons between them is split into them. -/
theorem splitOn_twoDigits {ns : List ℕ} (hne : ns ≠ []) (hns : ∀ n ∈ ns, n < 100) :
    (trim ([':'].intercalate (ns.map twoDigits))).splitOn ':' = ns.map twoDigits := by
  have hdigits : ∀ l ∈ ns.map twoDigits, ∀ c ∈ l, isWhitespace c = false ∧ ':' ≠ c := by
    intro l hl c hc
    obtain ⟨n, hn, rfl⟩ := List.mem_map.mp hl
    have := hns n hn
    rcases List.mem_pair.mp hc with rfl | rfl
    · exact digitChar_spec _ (by omega)
    · exact digitChar_spec _ (by omega)
  have hchars : ∀ c ∈ [':'].intercalate (ns.map twoDigits), isWhitespace c = false :=
    forall_mem_intercalate (by decide) fun l hl c hc => (hdigits l hl c hc).1
  rw [trim_of_ends (fun c hc => hchars c (List.mem_of_head? hc)) fun c hc => hchars c (List.mem_of_getLast? hc)]
  exact List.splitOn_intercalate ':' (fun l hl hc => (hdigits l hl ':' hc).2 rfl) (by simpa using hne)

theorem clockFields_hhmm {h m : ℕ} (hh : h < 24) (hm : m < 60) :
    clockFields (String.ofList ([':'].intercalate ([h, m].map twoDigits))) = some ((h : ℤ), (m : ℤ), 0) := by
  have hzero : parseI64 ['0'] = some 0 := by decide
  unfold clockFields
  rw [String.toList_ofList, splitOn_twoDigits (by simp) (by simp; omega)]
  simp [parseI64_twoDigits (show h < 100 by omega), parseI64_twoDigits (show m < 100 by omega), hzero]

theorem clockFields_hhmmss {h m sec : ℕ} (hh : h < 24) (hm : m < 60) (hsec : sec < 60) :
    clockFields (String.ofList ([':'].intercalate ([h, m, sec].map twoDigits))) = some ((h : ℤ), (m : ℤ), (sec : ℤ)) := by
  unfold clockFields
  rw [String.toList_ofList, splitOn_twoDigits (by simp) (by simp; omega)]
  simp [parseI64_twoDigits (show h < 100 by omega), parseI64_twoDigits (show m < 100 by omega),
    parseI64_twoDigits (show sec < 100 by omega)]

/-! ## The date -/

/-- The time of day of the terminal at an instant. -/
def terminalTod (t : ℤ) : ℤ := (t + 8 * 3600000) % 86400000

/-- The milliseconds from the midnight the parser starts from. -/
def sinceMidnight (now : ℤ) : ℤ := (now + 8 * 3600000).tmod 86400000

/-- Hours, minutes and seconds as they are on a clock. -/
structure ClockTime (h m sec : ℤ) : Prop where
  hour : 0 ≤ h ∧ h < 24
  minute : 0 ≤ m ∧ m < 60
  second : 0 ≤ sec ∧ sec < 60

variable {h m sec now t : ℤ}

/-- The parser goes one day back from a time of day that is ahead, and takes it if it is recent. -/
theorem timeOfDay_eq_some (hclock : ClockTime h m sec) {ahead : ℤ}
    (hahead : ahead = (h * 3600 + m * 60 + sec) * 1000 - sinceMidnight now) :
    timeOfDay h m sec now = some t ↔
      (ahead ≤ 300000 ∧ -(6 * 3600000) ≤ ahead ∧ t = now + ahead) ∨
        (300000 < ahead ∧ 86400000 - 6 * 3600000 ≤ ahead ∧ t = now + ahead - 86400000) := by
  have hmidnight : (now + 8 * 3600000).tdiv 86400000 * 86400000 - 8 * 3600000 = now - sinceMidnight now := by
    have := Int.tmod_add_mul_tdiv (now + 8 * 3600000) 86400000
    unfold sinceMidnight
    omega
  obtain ⟨hhour, hminute, hsecond⟩ := hclock
  unfold timeOfDay
  rw [if_neg (by simp; omega)]
  simp only [hmidnight, Option.ite_none_right_eq_some, Option.some.injEq]
  split_ifs <;> omega

/-- The instants with a time of day are whole days from one of them. -/
theorem dated_iff (hclock : ClockTime h m sec) {ahead : ℤ}
    (hahead : ahead = (h * 3600 + m * 60 + sec) * 1000 - sinceMidnight now) :
    terminalTod t = (h * 3600 + m * 60 + sec) * 1000 ↔ ∃ days : ℤ, t = now + ahead + days * 86400000 := by
  obtain ⟨hhour, hminute, hsecond⟩ := hclock
  have hmidnight := Int.tmod_add_mul_tdiv (now + 8 * 3600000) 86400000
  have hday := Int.emod_add_mul_ediv (t + 8 * 3600000) 86400000
  unfold terminalTod
  unfold sinceMidnight at hahead
  constructor
  · intro htod
    exact ⟨(t + 8 * 3600000) / 86400000 - (now + 8 * 3600000).tdiv 86400000, by omega⟩
  · rintro ⟨days, rfl⟩
    omega

/-- **The parser finds the arrival exactly when the clock does not lie within the last minutes of a day whose five minutes
ahead reach the time of day on the next date** (the other bound is of use before 1970 only). -/
theorem parseArrDtime_window (s : String) (now h m sec : ℤ) (hs : clockFields s = some (h, m, sec))
    (hclock : ClockTime h m sec) :
    (∀ t, parseArrDtime s now = some t ↔
      terminalTod t = (h * 3600 + m * 60 + sec) * 1000 ∧ now - 6 * 3600000 ≤ t ∧ t ≤ now + 300000) ↔
      sinceMidnight now + 300000 < (h * 3600 + m * 60 + sec) * 1000 + 86400000 ∧
        (h * 3600 + m * 60 + sec) * 1000 ≤ sinceMidnight now + 300000 + 86400000 := by
  obtain ⟨ahead, hahead⟩ : ∃ ahead, ahead = (h * 3600 + m * 60 + sec) * 1000 - sinceMidnight now := ⟨_, rfl⟩
  have hparse : ∀ t, parseArrDtime s now = some t ↔ timeOfDay h m sec now = some t := by
    intro t
    unfold parseArrDtime
    rw [hs, Option.bind_some]
  simp only [hparse, timeOfDay_eq_some hclock hahead, dated_iff hclock hahead]
  constructor
  · intro hall
    constructor
    · -- one day forward the time of day is in the window, and is missed
      by_contra hlate
      have hday : sinceMidnight now < 86400000 := Int.tmod_lt_of_pos _ (by decide)
      obtain ⟨hhour, hminute, hsecond⟩ := hclock
      have := (hall (now + ahead + 86400000)).mpr ⟨⟨1, by omega⟩, by omega, by omega⟩
      omega
    · by_contra hearly
      have := (hall (now + ahead - 86400000)).mp (Or.inr ⟨by omega, by omega, rfl⟩)
      omega
  · intro ⟨hlate, hearly⟩ t
    constructor
    · rintro (⟨hle, hge, rfl⟩ | ⟨hlt, hge, rfl⟩)
      · exact ⟨⟨0, by omega⟩, by omega, by omega⟩
      · exact ⟨⟨-1, by omega⟩, by omega, by omega⟩
    · rintro ⟨⟨days, rfl⟩, hge, hle⟩
      have hdays : days = 0 ∨ days = -1 := by omega
      rcases hdays with rfl | rfl
      · exact Or.inl ⟨by omega, by omega, by omega⟩
      · exact Or.inr ⟨by omega, by omega, by omega⟩

/-- At noon in the terminal, 11:30 is found. -/
theorem parseArrDtime_window_noon : parseArrDtime "11:30" 1785988800000 = some 1785987000000 :=
  ((parseArrDtime_window "11:30" 1785988800000 11 30 0 (by decide +kernel)
    ⟨by decide, by decide, by decide⟩).mpr (by decide) _).mpr (by decide)

/-- Two minutes before midnight in the terminal, one minute past it is not found. -/
theorem arrival_past_midnight_missed : clockFields "00:01" = some (0, 1, 0) ∧ ClockTime 0 1 0 ∧
    ¬ ∀ t, parseArrDtime "00:01" 1786031880000 = some t ↔
      terminalTod t = (0 * 3600 + 1 * 60 + 0) * 1000 ∧ 1786031880000 - 6 * 3600000 ≤ t ∧ t ≤ 1786031880000 + 300000 := by
  have hnone : parseArrDtime "00:01" 1786031880000 = none := by decide +kernel
  refine ⟨by decide +kernel, ⟨by decide, by decide, by decide⟩, fun hall => ?_⟩
  have hsome := (hall (1786031880000 + 180000)).mpr (by decide)
  rw [hnone] at hsome
  exact absurd hsome (by simp)

end TtAiops.Cycle
