import TtAiops.Chrono
import TtAiops.Lib.Texts
import TtAiops.Lib.Utf8

/-!
# Times of the terminal as texts (`tos_avail.rs`, `workpool.rs`)

The terminal writes a time as fourteen digits in its own zone, with three more for the milliseconds or without. A parser
returns `none` where it would end the program, and `some none` for a text that it does not accept.

* `parseMyt`, `parseEtw`, `toMytMs` : the two parsers and the writer;
* `parse_spec` : what both parsers make of a text;
* `toMytMs_eq_digits` : what the writer writes is one numeral;
* `terminal_codec` : **what is written is read back and is in the order of the times, and the parsers accept the same texts,
  without a fault, and differ by the milliseconds**.
-/

namespace TtAiops.Ingest.TerminalTime
open TtAiops.Lib TtAiops.Lib.Calendar TtAiops.Lib.Decimals TtAiops.Chrono

/-- The seconds by which the clock of the terminal is ahead. -/
def terminalOffset : ℤ := 8 * 3600

def terminalToUtc (naive : DateTime) : DateTime := (DateTime.make (naive.sec - terminalOffset) naive.nano).getD naive

def isAsciiDigit (b : UInt8) : Bool := 48 ≤ b && b ≤ 57

def parseEtw (raw : List Char) : Option (Option DateTime) :=
  let s := Texts.trim raw
  if Utf8.len s < 14 ∨ ¬((Utf8.bytes s).take 14).all isAsciiDigit then some none
  else do
    let front ← Utf8.slice 0 14 s
    some ((parseFromStr front).map terminalToUtc)

def parseMyt (raw : List Char) : Option (Option DateTime) :=
  let s := Texts.trim raw
  if Utf8.len s < 14 ∨ ¬((Utf8.bytes s).take 14).all isAsciiDigit then some none
  else do
    let front ← Utf8.slice 0 14 s
    match parseFromStr front with
    | none => some none
    | some naive =>
      let t := terminalToUtc naive
      if 17 ≤ Utf8.len s ∧ (((Utf8.bytes s).drop 14).take 3).all isAsciiDigit then do
        let tail ← Utf8.slice 14 17 s
        let t ← t.addMillis (value tail)
        some (some t)
      else some (some t)

def toMytMs (t : DateTime) : List Char := formatMs (t.sec + terminalOffset) t.nano

/-! ## The parsers -/

/-- The milliseconds behind the seconds: the number of the bytes from 14 to 17, if these are digits. -/
def msTail (raw : List Char) : ℕ :=
  let tail := ((Utf8.bytes (Texts.trim raw)).drop 14).take 3
  if tail.length = 3 ∧ tail.all isAsciiDigit then tail.foldl (fun v b => 10 * v + (b.toNat - 48)) 0 else 0

theorem toUInt8_toNat {c : Char} (h : c.toNat < 128) : c.val.toUInt8.toNat = c.toNat := by
  rw [UInt32.toNat_toUInt8]
  exact Nat.mod_eq_of_lt (by show c.toNat < 256; omega)

theorem foldl_bytes {s : List Char} (h : ∀ c ∈ s, isDigit c) :
    (Utf8.bytes s).foldl (fun v b => 10 * v + (b.toNat - 48)) 0 = value s := by
  have hascii : ∀ c ∈ s, c.toNat < 128 := fun c hc => by
    have hdigit := h c hc
    simp only [isDigit, Bool.and_eq_true, decide_eq_true_eq] at hdigit
    omega
  rw [Utf8.bytes_of_ascii hascii, List.foldl_map, value]
  refine List.foldl_ext _ _ _ fun v c hc => ?_
  rw [toUInt8_toNat (hascii c hc)]

/-- So many bytes that are digits are so many characters that are digits, with their number. -/
theorem split_digits {n : ℕ} {s : List Char} (hn : n ≤ Utf8.len s) (h : ((Utf8.bytes s).take n).all isAsciiDigit) :
    ∃ a b, s = a ++ b ∧ a.length = n ∧ Utf8.len a = n ∧ (∀ c ∈ a, isDigit c) ∧
      ((Utf8.bytes s).take n).foldl (fun v b => 10 * v + (b.toNat - 48)) 0 = value a := by
  have hascii : ∀ b ∈ (Utf8.bytes s).take n, b < 128 := fun b hb => by
    have hdigit := List.all_eq_true.mp h b hb
    simp only [isAsciiDigit, Bool.and_eq_true, decide_eq_true_eq, UInt8.le_iff_toNat_le] at hdigit
    exact UInt8.lt_iff_toNat_lt.mpr (hdigit.2.trans_lt (by decide))
  obtain ⟨a, b, -, rfl, ha, hlen⟩ := Utf8.splitAt_of_ascii hn hascii
  have hbytes : (Utf8.bytes (a ++ b)).take n = a.map fun c => c.val.toUInt8 := by
    rw [Utf8.bytes_append, Utf8.bytes_of_ascii ha, List.take_left' (by rw [List.length_map, hlen])]
  rw [hbytes] at h ⊢
  refine ⟨a, b, rfl, hlen, (Utf8.len_of_ascii ha).trans hlen, fun c hc => ?_, ?_⟩
  · have hdigit := List.all_eq_true.mp h _ (List.mem_map_of_mem hc)
    simp only [isAsciiDigit, Bool.and_eq_true, decide_eq_true_eq, UInt8.le_iff_toNat_le, toUInt8_toNat (ha c hc)] at hdigit
    simpa [isDigit] using hdigit
  · rw [List.foldl_map, value]
    refine List.foldl_ext _ _ _ fun v c hc => ?_
    rw [toUInt8_toNat (ha c hc)]

theorem terminalToUtc_nano (naive : DateTime) : (terminalToUtc naive).nano = naive.nano := by
  unfold terminalToUtc
  cases h : DateTime.make (naive.sec - terminalOffset) naive.nano with
  | none => rfl
  | some t => exact (DateTime.make_eq_some.mp h).2

/-- What is parsed is a whole second or the start of a leap second. -/
theorem parseFromStr_nano {ds : List Char} {t : DateTime} (h : parseFromStr ds = some t) : t.nano % 1000000000 = 0 := by
  simp only [parseFromStr, Option.bind_eq_bind, Option.bind_eq_some_iff] at h
  obtain ⟨day, -, h⟩ := h
  split_ifs at h with hvalid hleap
  · rw [(DateTime.make_eq_some.mp h).2]
  · rw [(DateTime.make_eq_some.mp h).2]

/-- The three bytes behind the first fourteen are cut out as digits with the number of the milliseconds, or there are none. -/
theorem msTail_cases {raw a b : List Char} (hs : Texts.trim raw = a ++ b) (ha : Utf8.len a = 14) :
    ((17 ≤ Utf8.len (Texts.trim raw) ∧ (((Utf8.bytes (Texts.trim raw)).drop 14).take 3).all isAsciiDigit) ∧
      ∃ p, Utf8.slice 14 17 (Texts.trim raw) = some p ∧ value p = msTail raw ∧ value p < 1000) ∨
    (¬(17 ≤ Utf8.len (Texts.trim raw) ∧ (((Utf8.bytes (Texts.trim raw)).drop 14).take 3).all isAsciiDigit) ∧
      msTail raw = 0) := by
  have hbytes : (Utf8.bytes (Texts.trim raw)).drop 14 = Utf8.bytes b := by
    rw [hs, Utf8.bytes_append, List.drop_left' ha]
  have hlenb : Utf8.len (Texts.trim raw) = 14 + Utf8.len b := by
    rw [hs, Utf8.len_append, ha]
  have htaillen : (((Utf8.bytes (Texts.trim raw)).drop 14).take 3).length = min 3 (Utf8.len b) := by
    rw [hbytes, List.length_take, Utf8.len]
  by_cases htail : 17 ≤ Utf8.len (Texts.trim raw) ∧ (((Utf8.bytes (Texts.trim raw)).drop 14).take 3).all isAsciiDigit
  · have hall := htail.2
    rw [hbytes] at hall
    obtain ⟨p, b', hb, hplen, hp, hpd, hval⟩ := split_digits (n := 3) (by omega) hall
    have hmid := Utf8.slice_eq (s := Texts.trim raw) (a := a) (p := p) (b := b') (by rw [hs, hb, List.append_assoc])
    rw [Utf8.len_append, ha, hp] at hmid
    have hlt := value_lt hpd
    rw [hplen] at hlt
    refine Or.inl ⟨htail, p, hmid, ?_, hlt⟩
    unfold msTail
    dsimp only
    rw [htaillen, if_pos ⟨by omega, htail.2⟩, hbytes, hval]
  · refine Or.inr ⟨htail, ?_⟩
    unfold msTail
    dsimp only
    rw [htaillen]
    exact if_neg fun h => htail ⟨by omega, h.2⟩

/-- What both parsers make of a text: the same, but for the milliseconds. -/
theorem parse_spec (raw : List Char) : (parseEtw raw = some none ∧ parseMyt raw = some none) ∨
    ∃ t u, parseEtw raw = some (some t) ∧ parseMyt raw = some (some u) ∧
      u.sec = t.sec ∧ u.nano = t.nano + msTail raw * 1000000 := by
  unfold parseEtw parseMyt
  by_cases hshort : Utf8.len (Texts.trim raw) < 14 ∨ ¬((Utf8.bytes (Texts.trim raw)).take 14).all isAsciiDigit
  · exact Or.inl ⟨if_pos hshort, if_pos hshort⟩
  · rw [if_neg hshort, if_neg hshort]
    obtain ⟨hlen, hdigits⟩ := not_or.mp hshort
    obtain ⟨a, b, hs, halen, ha, -, -⟩ := split_digits (not_lt.mp hlen) (not_not.mp hdigits)
    have hfront := Utf8.slice_eq (s := Texts.trim raw) (a := []) (p := a) hs
    rw [List.nil_append, Utf8.len_nil, ha] at hfront
    rw [hfront, Option.bind_eq_bind, Option.bind_some, Option.bind_eq_bind, Option.bind_some]
    cases hparse : parseFromStr a with
    | none => exact Or.inl ⟨rfl, rfl⟩
    | some naive =>
      refine Or.inr ?_
      rcases msTail_cases hs ha with ⟨htail, p, hmid, hms, hlt⟩ | ⟨htail, hms⟩
      · have hwhole : (terminalToUtc naive).nano % 1000000000 = 0 := by
          rw [terminalToUtc_nano]
          exact parseFromStr_nano hparse
        obtain ⟨u, hu, husec, hunano⟩ := DateTime.exists_addMillis hlt hwhole
        refine ⟨_, u, rfl, ?_, husec, hms ▸ hunano⟩
        simp only [if_pos htail, hmid, hu, Option.bind_some]
      · refine ⟨_, _, rfl, if_neg htail, rfl, ?_⟩
        rw [hms, zero_mul, add_zero]

/-! ## The writer -/

def localDay (t : DateTime) : ℤ := (t.sec + terminalOffset) / 86400

def localTod (t : DateTime) : ℕ := ((t.sec + terminalOffset) % 86400).toNat

/-- A whole number of milliseconds, not in a leap second, in a year of the terminal that has four digits. -/
structure Plain (t : DateTime) : Prop where
  whole : t.nano % 1000000 = 0
  noLeap : t.nano < 1000000000
  year_nonneg : 0 ≤ yearOf (localDay t)
  year_lt : yearOf (localDay t) < 10000

/-- The number that is written for the seconds of a time. -/
def secondsNumber (t : DateTime) : ℕ :=
  (((((yearOf (localDay t)).toNat * 10 ^ 2 + month (localDay t)) * 10 ^ 2 + dayOfMonth (localDay t)) * 10 ^ 2 +
    localTod t / 3600) * 10 ^ 2 + localTod t / 60 % 60) * 10 ^ 2 + localTod t % 60

def number (t : DateTime) : ℕ := secondsNumber t * 10 ^ 3 + t.nano / 1000000

theorem localTod_lt (t : DateTime) : localTod t < 86400 := by
  unfold localTod
  omega

theorem localDay_localTod (t : DateTime) : t.sec + terminalOffset = localDay t * 86400 + localTod t := by
  unfold localDay localTod
  omega

theorem dayOfMonth_lt (d : ℤ) : dayOfMonth d < 100 := by
  have hle := dayOfMonth_le d
  have hlen : monthLength (yearOf d) (month d) ≤ 31 := by
    have hleap := leapDays_cases (yearOf d)
    unfold monthLength
    split_ifs <;> omega
  omega

/-- **What is written is one numeral of seventeen digits.** -/
theorem toMytMs_eq_digits {t : DateTime} (h : Plain t) : toMytMs t = digits 17 (number t) := by
  have hmonth := month_mem (localDay t)
  have hday := dayOfMonth_lt (localDay t)
  have htod := localTod_lt t
  have hleap := h.noLeap
  have hyear : yearText (yearOf (localDay t)) = digits 4 (yearOf (localDay t)).toNat := if_pos ⟨h.year_nonneg, h.year_lt⟩
  have hsec : localTod t % 60 + t.nano / 1000000000 = localTod t % 60 := by omega
  have hms : t.nano / 1000000 % 1000 = t.nano / 1000000 := by omega
  calc toMytMs t = digits 4 (yearOf (localDay t)).toNat ++ digits 2 (month (localDay t)) ++
        digits 2 (dayOfMonth (localDay t)) ++ digits 2 (localTod t / 3600) ++ digits 2 (localTod t / 60 % 60) ++
        digits 2 (localTod t % 60) ++ digits 3 (t.nano / 1000000) := by
        rw [← hyear, ← hsec, ← hms]
        rfl
    _ = digits 17 (number t) := by
        rw [← digits_add 4 2 (by omega), ← digits_add _ 2 (by omega), ← digits_add _ 2 (by omega),
          ← digits_add _ 2 (by omega), ← digits_add _ 2 (by omega), ← digits_add _ 3 (by omega)]
        rfl

theorem secondsNumber_eq (t : DateTime) : secondsNumber t =
    (((yearOf (localDay t)).toNat * 100 + month (localDay t)) * 100 + dayOfMonth (localDay t)) * 1000000 +
      (localTod t + 40 * (localTod t / 60) + 4000 * (localTod t / 3600)) := by
  unfold secondsNumber
  omega

theorem number_lt {t : DateTime} (h : Plain t) : number t < 10 ^ 17 := by
  have hmonth := month_mem (localDay t)
  have hday := dayOfMonth_lt (localDay t)
  have htod := localTod_lt t
  have hleap := h.noLeap
  have hyear := h.year_lt
  unfold number secondsNumber
  omega

theorem number_lt_number {t u : DateTime} (ht : Plain t) (hu : Plain u) (h : t < u) : number t < number u := by
  have hdt := localDay_localTod t
  have hdu := localDay_localTod u
  have htodt := localTod_lt t
  have htodu := localTod_lt u
  have hmu := month_mem (localDay u)
  have hmt := month_mem (localDay t)
  have hdayt := dayOfMonth_lt (localDay t)
  have hdayu := dayOfMonth_lt (localDay u)
  have hyt := ht.year_nonneg
  have hyu := hu.year_nonneg
  have hnt := ht.noLeap
  have hnu := hu.noLeap
  have hwt := ht.whole
  have hwu := hu.whole
  have hsplit : localDay t < localDay u ∨ localDay t = localDay u ∧
      (localTod t < localTod u ∨ localTod t = localTod u ∧ t.nano / 1000000 < u.nano / 1000000) := by
    rcases h with h | ⟨hsec, hnano⟩ <;> omega
  unfold number
  rw [secondsNumber_eq, secondsNumber_eq]
  rcases hsplit with hday | ⟨hday, htod | ⟨htod, hnano⟩⟩
  · have hdate := date_lt_of_lt hday
    omega
  · have hminutes : localTod t / 60 ≤ localTod u / 60 := Nat.div_le_div_right htod.le
    have hhours : localTod t / 3600 ≤ localTod u / 3600 := Nat.div_le_div_right htod.le
    rw [hday]
    omega
  · rw [hday, htod]
    omega

theorem number_lt_iff {t u : DateTime} (ht : Plain t) (hu : Plain u) : number t < number u ↔ t < u := by
  refine ⟨fun h => ?_, number_lt_number ht hu⟩
  by_contra hnot
  have hcases : u < t ∨ u.sec = t.sec ∧ u.nano = t.nano := by
    have hne : ¬(t.sec < u.sec ∨ t.sec = u.sec ∧ t.nano < u.nano) := hnot
    show (u.sec < t.sec ∨ u.sec = t.sec ∧ u.nano < t.nano) ∨ _
    omega
  rcases hcases with hlt | ⟨hsec, hnano⟩
  · exact absurd h (number_lt_number hu ht hlt).le.not_gt
  · refine absurd h (Eq.not_lt ?_)
    unfold number secondsNumber localDay localTod
    rw [hsec, hnano]

/-! ## Back and forth -/

theorem bytes_digits {s : List Char} (h : ∀ c ∈ s, isDigit c) :
    Utf8.len s = s.length ∧ Utf8.bytes s = s.map (fun c => c.val.toUInt8) ∧ (Utf8.bytes s).all isAsciiDigit := by
  have hascii : ∀ c ∈ s, c.toNat < 128 := fun c hc => by
    have hdigit := h c hc
    simp only [isDigit, Bool.and_eq_true, decide_eq_true_eq] at hdigit
    omega
  refine ⟨Utf8.len_of_ascii hascii, Utf8.bytes_of_ascii hascii, ?_⟩
  rw [Utf8.bytes_of_ascii hascii, List.all_map, List.all_eq_true]
  intro c hc
  have hdigit := h c hc
  simp only [isDigit, Bool.and_eq_true, decide_eq_true_eq] at hdigit
  simp only [Function.comp_apply, isAsciiDigit, Bool.and_eq_true, decide_eq_true_eq, UInt8.le_iff_toNat_le,
    toUInt8_toNat (hascii c hc)]
  exact hdigit

theorem trim_digits {s : List Char} (h : ∀ c ∈ s, isDigit c) : Texts.trim s = s := by
  have hspace : ∀ c, isDigit c → Texts.isWhitespace c = false := fun c hc => by
    simp only [isDigit, Bool.and_eq_true, decide_eq_true_eq] at hc
    simp only [Texts.isWhitespace, Bool.or_eq_false_iff, Bool.and_eq_false_iff, decide_eq_false_iff_not]
    refine ⟨⟨by omega, by omega⟩, ?_⟩
    simp only [List.contains_eq_mem, decide_eq_false_iff_not, List.mem_cons, List.not_mem_nil, or_false]
    omega
  exact Texts.trim_of_ends (fun c hc => hspace c (h c (List.mem_of_mem_head? hc)))
    (fun c hc => hspace c (h c (List.mem_of_getLast? hc)))

theorem field_left {a b : List Char} {i w : ℕ} (h : i + w ≤ a.length) : field (a ++ b) i w = field a i w := by
  have hdrop : w ≤ (a.drop i).length := by rw [List.length_drop]; omega
  rw [field, field, List.drop_append_of_le_length (by omega), List.take_append_of_le_length hdrop]

theorem field_right {a : List Char} {i w n : ℕ} (h : a.length = i) (hn : n < 10 ^ w) : field (a ++ digits w n) i w = n := by
  rw [field, List.drop_left' h, List.take_of_length_le (length_digits w n).le, value_digits, Nat.mod_eq_of_lt hn]

theorem fields_secondsNumber {t : DateTime} (h : Plain t) :
    field (digits 14 (secondsNumber t)) 0 4 = (yearOf (localDay t)).toNat ∧
    field (digits 14 (secondsNumber t)) 4 2 = month (localDay t) ∧
    field (digits 14 (secondsNumber t)) 6 2 = dayOfMonth (localDay t) ∧
    field (digits 14 (secondsNumber t)) 8 2 = localTod t / 3600 ∧
    field (digits 14 (secondsNumber t)) 10 2 = localTod t / 60 % 60 ∧
    field (digits 14 (secondsNumber t)) 12 2 = localTod t % 60 := by
  have hmonth := month_mem (localDay t)
  have hday := dayOfMonth_lt (localDay t)
  have htod := localTod_lt t
  have hyear := h.year_lt
  have hparts : digits 14 (secondsNumber t) = digits 4 (yearOf (localDay t)).toNat ++ digits 2 (month (localDay t)) ++
      digits 2 (dayOfMonth (localDay t)) ++ digits 2 (localTod t / 3600) ++ digits 2 (localTod t / 60 % 60) ++
      digits 2 (localTod t % 60) := by
    rw [← digits_add 4 2 (by omega), ← digits_add _ 2 (by omega), ← digits_add _ 2 (by omega), ← digits_add _ 2 (by omega),
      ← digits_add _ 2 (by omega)]
    rfl
  rw [hparts]
  refine ⟨?_, ?_, ?_, ?_, ?_, field_right (by simp) (by omega)⟩
  · rw [field_left (by simp), field_left (by simp), field_left (by simp), field_left (by simp), field_left (by simp)]
    exact field_right (a := []) rfl (by omega)
  · rw [field_left (by simp), field_left (by simp), field_left (by simp), field_left (by simp)]
    exact field_right (by simp) (by omega)
  · rw [field_left (by simp), field_left (by simp), field_left (by simp)]
    exact field_right (by simp) (by omega)
  · rw [field_left (by simp), field_left (by simp)]
    exact field_right (by simp) (by omega)
  · rw [field_left (by simp)]
    exact field_right (by simp) (by omega)

/-- The digits of the seconds are read as the time at the terminal. -/
theorem parseFromStr_digits {t : DateTime} (h : Plain t) :
    ∃ naive, parseFromStr (digits 14 (secondsNumber t)) = some naive ∧
      naive.sec = t.sec + terminalOffset ∧ naive.nano = 0 := by
  have htod := localTod_lt t
  have hyear := h.year_lt
  have hyear' := h.year_nonneg
  obtain ⟨hy, hmo, hd, hh, hmi, hs⟩ := fields_secondsNumber h
  have hdate : ofYmd ((yearOf (localDay t)).toNat : ℤ) (month (localDay t)) (dayOfMonth (localDay t)) =
      some (localDay t) := by
    rw [Int.toNat_of_nonneg h.year_nonneg]
    exact ofYmd_date _
  have hlocal := localDay_localTod t
  have hin : InRange ((t.sec + terminalOffset) / 86400) :=
    inRange_of_year (by show _ ≤ yearOf (localDay t); unfold MIN_YEAR; omega)
      (by show yearOf (localDay t) ≤ _; unfold MAX_YEAR; omega)
  refine ⟨⟨t.sec + terminalOffset, 0, by decide, hin⟩, ?_, rfl, rfl⟩
  rw [parseFromStr, hy, hmo, hd, hh, hmi, hs, hdate, Option.bind_eq_bind, Option.bind_some]
  rw [if_pos ⟨by omega, by omega, by omega⟩, if_neg (by omega), DateTime.make_eq_some]
  refine ⟨?_, rfl⟩
  show t.sec + terminalOffset = _
  omega

theorem terminalToUtc_local {t naive : DateTime} (hsec : naive.sec = t.sec + terminalOffset) :
    (terminalToUtc naive).sec = t.sec := by
  have hmake : DateTime.make (naive.sec - terminalOffset) naive.nano =
      some ⟨t.sec, naive.nano, naive.nano_lt, t.inRange⟩ := by
    rw [DateTime.make_eq_some, hsec]
    exact ⟨(add_sub_cancel_right _ _).symm, rfl⟩
  rw [terminalToUtc, hmake]
  rfl

theorem toMytMs_eq_append {t : DateTime} (h : Plain t) :
    toMytMs t = digits 14 (secondsNumber t) ++ digits 3 (t.nano / 1000000) := by
  have hleap := h.noLeap
  rw [toMytMs_eq_digits h, ← digits_add 14 3 (by omega)]
  rfl

theorem trim_toMytMs {t : DateTime} (h : Plain t) : Texts.trim (toMytMs t) = toMytMs t := by
  rw [toMytMs_eq_digits h]
  exact trim_digits isDigit_of_mem

theorem msTail_toMytMs {t : DateTime} (h : Plain t) : msTail (toMytMs t) = t.nano / 1000000 := by
  have hleap := h.noLeap
  have hms : t.nano / 1000000 < 10 ^ 3 := by omega
  obtain ⟨hfront, -, -⟩ := bytes_digits (isDigit_of_mem (w := 14) (n := secondsNumber t))
  obtain ⟨htail, -, hall⟩ := bytes_digits (isDigit_of_mem (w := 3) (n := t.nano / 1000000))
  rw [length_digits] at hfront htail
  unfold msTail
  rw [trim_toMytMs h, toMytMs_eq_append h, Utf8.bytes_append, List.drop_left' hfront, List.take_of_length_le htail.le]
  dsimp only
  rw [if_pos ⟨htail, hall⟩, foldl_bytes isDigit_of_mem, value_digits, Nat.mod_eq_of_lt hms]

theorem parseEtw_toMytMs {t : DateTime} (h : Plain t) :
    ∃ e, parseEtw (toMytMs t) = some (some e) ∧ e.sec = t.sec ∧ e.nano = 0 := by
  obtain ⟨naive, hparse, hsec, hnano⟩ := parseFromStr_digits h
  obtain ⟨hfront, -, hall⟩ := bytes_digits (isDigit_of_mem (w := 14) (n := secondsNumber t))
  rw [length_digits] at hfront
  have hslice := Utf8.slice_eq (a := []) (p := digits 14 (secondsNumber t)) (toMytMs_eq_append h)
  rw [List.nil_append, Utf8.len_nil, hfront] at hslice
  have hlong : ¬(Utf8.len (toMytMs t) < 14 ∨ ¬((Utf8.bytes (toMytMs t)).take 14).all isAsciiDigit) := by
    rw [toMytMs_eq_append h, Utf8.len_append, hfront, Utf8.bytes_append, List.take_left' hfront, not_or, not_not]
    exact ⟨by omega, hall⟩
  refine ⟨terminalToUtc naive, ?_, terminalToUtc_local hsec, (terminalToUtc_nano naive).trans hnano⟩
  rw [parseEtw, trim_toMytMs h, if_neg hlong, hslice, Option.bind_eq_bind, Option.bind_some, hparse]
  rfl

theorem parseMyt_toMytMs {t : DateTime} (h : Plain t) : parseMyt (toMytMs t) = some (some t) := by
  have hwhole := h.whole
  obtain ⟨e, hetw, hsec, hnano⟩ := parseEtw_toMytMs h
  rcases parse_spec (toMytMs t) with ⟨hnone, -⟩ | ⟨e', u, he, hu, husec, hunano⟩
  · rw [hetw] at hnone
    cases hnone
  · obtain rfl : e = e' := by
      rw [hetw] at he
      exact Option.some.inj (Option.some.inj he)
    rw [hnano, msTail_toMytMs h] at hunano
    rw [hu, DateTime.ext (husec.trans hsec) (show u.nano = t.nano by omega)]

/-- **The times of the terminal.** A time of whole milliseconds is written so that it is read back, and earlier times so
that they come first; both parsers accept the same texts without a fault, and one adds the milliseconds to what the other
reads. -/
theorem terminal_codec :
    (∀ t, Plain t → parseMyt (toMytMs t) = some (some t)) ∧
    (∀ t u, Plain t → Plain u → (toMytMs t < toMytMs u ↔ t < u)) ∧
    ∀ raw, (parseEtw raw = some none ∧ parseMyt raw = some none) ∨
      ∃ t u, parseEtw raw = some (some t) ∧ parseMyt raw = some (some u) ∧
        u.sec = t.sec ∧ u.nano = t.nano + msTail raw * 1000000 := by
  refine ⟨fun t => parseMyt_toMytMs, fun t u ht hu => ?_, parse_spec⟩
  rw [toMytMs_eq_digits ht, toMytMs_eq_digits hu, digits_lt_digits, Nat.mod_eq_of_lt (number_lt ht),
    Nat.mod_eq_of_lt (number_lt hu)]
  exact number_lt_iff ht hu

/-- Half a second before the end of 2026 at the terminal. -/
def yearsEnd : DateTime := ⟨1798732799, 500000000, by decide, by decide +kernel⟩

/-- The last half second of a year is read back, and comes before the start of the next. -/
theorem terminal_codec_year : parseMyt (toMytMs yearsEnd) = some (some yearsEnd) ∧
    toMytMs yearsEnd < toMytMs ⟨1798732800, 0, by decide, by decide +kernel⟩ := by
  obtain ⟨hback, horder, -⟩ := terminal_codec
  exact ⟨hback yearsEnd ⟨by decide, by decide, by decide +kernel, by decide +kernel⟩,
    (horder _ _ ⟨by decide, by decide, by decide +kernel, by decide +kernel⟩
      ⟨by decide, by decide, by decide +kernel, by decide +kernel⟩).mpr (Or.inl (by decide))⟩

example : toMytMs yearsEnd = "20261231235959500".toList := by decide +kernel

end TtAiops.Ingest.TerminalTime
