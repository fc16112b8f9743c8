import TtAiops.Ingest.Stream

/-!
# Polls one after the other

* `InLog`, `LogOk`, `landRows_spec` : what landing rows does to the log;
* `readMark_mem`, `le_readMark`, `readMark_writeMark` : what a poll reads after a write;
* `Clear`, `InOrder`, `Fine` : what a poll needs, given the last poll that succeeded: the watermark can rise or the rows that
  wait are few, neither a watermark that the clock has passed nor a new start skips a row, and what is read is not far ahead
  of what is not visible yet;
* `Kept`, `poll_kept`, `poll_progress` : what every fine poll keeps, and that it gets on;
* `kept_run`, `lands_within` : the same along a run, and after how many polls a row has landed;
* `Seen`, `NothingLost`, `Seen.nothingLost` : **polls that succeed in clear tables, and in order, lose nothing and get on**;
* `never_lands` : a row behind the window of the watermark that has not landed never lands.
-/

namespace TtAiops.Ingest
open TtAiops.Lib

variable {K α : Type} [DecidableEq K]

/-! ## The log -/

/-- The log has a row with the natural key of `r`. -/
def InLog (log : List (LogRow K α)) (r : Row K α) : Prop := ∃ l ∈ log, r.ident = some l.ident

/-- The row has its natural key and its completion, and a sequence key of full width. -/
def Row.wellFormed (r : Row K α) : Bool := r.logRow.isSome && r.fullKey

/-- No natural key is in the log twice, and every entry comes from a row. -/
structure LogOk (rows : Set (Row K α)) (log : List (LogRow K α)) : Prop where
  nodup : (log.map LogRow.ident).Nodup
  source : ∀ l ∈ log, ∃ r ∈ rows, r.logRow = some l

omit [DecidableEq K] in
theorem ident_of_logRow {r : Row K α} {l : LogRow K α} (h : r.logRow = some l) : r.ident = some l.ident := by
  unfold Row.logRow at h
  obtain ⟨k, hk, hmap⟩ := Option.bind_eq_some_iff.mp h
  obtain ⟨t, -, rfl⟩ := Option.map_eq_some_iff.mp hmap
  exact hk

theorem mem_landRow {log : List (LogRow K α)} {l : LogRow K α} (hl : l ∈ log) (r : Row K α) : l ∈ landRow log r := by
  unfold landRow
  split
  · split_ifs
    · exact hl
    · exact List.mem_append_left _ hl
  · exact hl

theorem mem_landRows {fetched : List (Row K α)} {log : List (LogRow K α)} {l : LogRow K α} (hl : l ∈ log) :
    l ∈ landRows fetched log := by
  induction fetched generalizing log with
  | nil => exact hl
  | cons r fetched ih => exact ih (mem_landRow hl r)

theorem landRow_spec {rows : Set (Row K α)} {log : List (LogRow K α)} (h : LogOk rows log) {r : Row K α} (hr : r ∈ rows) :
    LogOk rows (landRow log r) ∧ (r.logRow.isSome = true → InLog (landRow log r) r) := by
  unfold landRow
  cases hl : r.logRow with
  | none => exact ⟨h, fun hsome => absurd hsome Bool.false_ne_true⟩
  | some l =>
    have hident := ident_of_logRow hl
    dsimp only
    split_ifs with hany
    · refine ⟨h, fun _ => ?_⟩
      obtain ⟨l', hl', heq⟩ := List.any_eq_true.mp hany
      exact ⟨l', hl', by rw [hident, of_decide_eq_true heq]⟩
    · refine ⟨⟨?_, ?_⟩, fun _ => ⟨l, by simp, hident⟩⟩
      · rw [List.map_append]
        refine List.Nodup.append h.nodup (List.nodup_singleton _) ?_
        intro k hk hk'
        obtain ⟨l', hl', rfl⟩ := List.mem_map.mp hk
        have heq : l'.ident = l.ident := by simpa using hk'
        exact hany (List.any_eq_true.mpr ⟨l', hl', decide_eq_true heq⟩)
      · intro l' hl'
        rcases List.mem_append.mp hl' with hl' | hl'
        · exact h.source l' hl'
        · rw [List.mem_singleton.mp hl']
          exact ⟨r, hr, hl⟩

omit [DecidableEq K] in
theorem InLog.mono {log log' : List (LogRow K α)} (h : ∀ l ∈ log, l ∈ log') {r : Row K α} (hr : InLog log r) :
    InLog log' r := by
  obtain ⟨l, hl, hident⟩ := hr
  exact ⟨l, h l hl, hident⟩

/-- **Landing rows keeps the log in order, and every row that can be landed is in it.** -/
theorem landRows_spec {rows : Set (Row K α)} {fetched : List (Row K α)} (hsub : ∀ r ∈ fetched, r ∈ rows)
    {log : List (LogRow K α)} (h : LogOk rows log) :
    LogOk rows (landRows fetched log) ∧ ∀ r ∈ fetched, r.logRow.isSome = true → InLog (landRows fetched log) r := by
  induction fetched generalizing log with
  | nil => exact ⟨h, fun r hr => absurd hr List.not_mem_nil⟩
  | cons r fetched ih =>
    obtain ⟨hok, hin⟩ := landRow_spec h (hsub r List.mem_cons_self)
    obtain ⟨hok', hin'⟩ := ih (fun r' hr' => hsub r' (List.mem_cons_of_mem _ hr')) hok
    refine ⟨hok', fun r' hr' hsome => ?_⟩
    rcases List.mem_cons.mp hr' with rfl | hr'
    · exact (hin hsome).mono fun l hl => mem_landRows hl
    · exact hin' r' hr' hsome

theorem landRows_landed {fetched : List (Row K α)} {log : List (LogRow K α)}
    (h : ∀ r ∈ fetched, r.logRow.isSome = true → InLog log r) : landRows fetched log = log := by
  induction fetched with
  | nil => rfl
  | cons r fetched ih =>
    have hrow : landRow log r = log := by
      unfold landRow
      split
      · rename_i l hl
        obtain ⟨l', hl', heq⟩ := h r List.mem_cons_self (by rw [hl]; rfl)
        have hkey : l'.ident = l.ident := Option.some.inj (heq.symm.trans (ident_of_logRow hl))
        rw [if_pos (List.any_eq_true.mpr ⟨l', hl', decide_eq_true hkey⟩)]
      · rfl
    show landRows fetched (landRow log r) = log
    rw [hrow]
    exact ih fun r' hr' => h r' (List.mem_cons_of_mem _ hr')

/-- The log has one entry with the natural key of `r`, and it comes from a row with that key. -/
def LandedOnce (rows : Set (Row K α)) (log : List (LogRow K α)) (r : Row K α) : Prop :=
  ∃ r' ∈ rows, ∃ l, r'.ident = r.ident ∧ r'.logRow = some l ∧ log.filter (fun l' => l'.ident = l.ident) = [l]

theorem LogOk.landedOnce {rows : Set (Row K α)} {log : List (LogRow K α)} (h : LogOk rows log) {r : Row K α}
    (hin : InLog log r) : LandedOnce rows log r := by
  obtain ⟨l, hl, hkey⟩ := hin
  obtain ⟨r', hr', hl'⟩ := h.source l hl
  refine ⟨r', hr', l, (ident_of_logRow hl').trans hkey.symm, hl', ?_⟩
  obtain ⟨front, back, rfl⟩ := List.append_of_mem hl
  have hnodup := h.nodup
  rw [List.map_append, List.map_cons, List.nodup_append] at hnodup
  obtain ⟨-, hback, hdis⟩ := hnodup
  have hfront : front.filter (fun l' => l'.ident = l.ident) = [] := by
    apply List.filter_eq_nil_iff.mpr
    intro l' hl' heq
    exact hdis _ (List.mem_map_of_mem hl') l.ident List.mem_cons_self (of_decide_eq_true heq)
  have hrest : back.filter (fun l' => l'.ident = l.ident) = [] := by
    apply List.filter_eq_nil_iff.mpr
    intro l' hl' heq
    exact (List.nodup_cons.mp hback).1 (of_decide_eq_true heq ▸ List.mem_map_of_mem hl')
  rw [List.filter_append, hfront, List.filter_cons_of_pos (by simp), hrest, List.nil_append]

/-! ## The watermarks -/

section Marks

variable {s : Stream} {marks : List Mark} {clock : ℤ}

theorem le_readMark {m : Mark} (hm : m ∈ marks) (hle : m.last ≤ s.til clock) : m.last ≤ readMark s marks clock := by
  unfold readMark readable
  have hmem : m.last ∈ (marks.map Mark.last).filter fun m => m ≤ s.til clock :=
    List.mem_filter.mpr ⟨List.mem_map_of_mem hm, decide_eq_true hle⟩
  cases hmax : ((marks.map Mark.last).filter fun m => m ≤ s.til clock).max? with
  | none => exact absurd hmem (by rw [List.max?_eq_none_iff.mp hmax]; exact List.not_mem_nil)
  | some x => exact (List.max?_eq_some_iff.mp hmax).2 _ hmem

def Readable (s : Stream) (marks : List Mark) (clock : ℤ) : Prop := ∃ m ∈ marks, m.last ≤ s.til clock

theorem readMark_mem (h : Readable s marks clock) :
    ∃ m ∈ marks, m.last = readMark s marks clock ∧ m.last ≤ s.til clock := by
  obtain ⟨m, hm, hle⟩ := h
  have hmem : m.last ∈ (marks.map Mark.last).filter fun m => m ≤ s.til clock :=
    List.mem_filter.mpr ⟨List.mem_map_of_mem hm, decide_eq_true hle⟩
  unfold readMark readable
  cases hmax : ((marks.map Mark.last).filter fun m => m ≤ s.til clock).max? with
  | none => exact absurd hmem (by rw [List.max?_eq_none_iff.mp hmax]; exact List.not_mem_nil)
  | some x =>
    obtain ⟨hin, hx⟩ := List.mem_filter.mp (List.max?_eq_some_iff.mp hmax).1
    obtain ⟨m', hm', rfl⟩ := List.mem_map.mp hin
    exact ⟨m', hm', rfl, of_decide_eq_true hx⟩

theorem Readable.forward {clock' : ℤ} (h : Readable s marks clock) (hle : clock ≤ clock') : Readable s marks clock' := by
  obtain ⟨m, hm, hmle⟩ := h
  exact ⟨m, hm, hmle.trans (s.til_mono hle)⟩

theorem readMark_le (h : Readable s marks clock) : readMark s marks clock ≤ s.til clock := by
  obtain ⟨m, -, heq, hle⟩ := readMark_mem h
  omega

theorem readMark_start (h : ¬ Readable s marks clock) : readMark s marks clock = s.start clock := by
  unfold readMark readable
  rw [List.filter_eq_nil_iff.mpr]
  · rfl
  · intro l hl hle
    obtain ⟨m, hm, rfl⟩ := List.mem_map.mp hl
    exact h ⟨m, hm, of_decide_eq_true hle⟩

variable (s marks) in
/-- As the clock goes on, the watermark that is read does not go back. -/
theorem readMark_mono {clock' : ℤ} (hle : clock ≤ clock') : readMark s marks clock ≤ readMark s marks clock' := by
  have htil : s.til clock ≤ s.til clock' := s.til_mono hle
  by_cases h : Readable s marks clock
  · obtain ⟨m, hm, heq, hm'⟩ := readMark_mem h
    rw [← heq]
    exact le_readMark hm (hm'.trans htil)
  · rw [readMark_start h]
    by_cases h' : Readable s marks clock'
    · -- a watermark was ahead of the clock, and is read now
      obtain ⟨m, hm, heq, -⟩ := readMark_mem h'
      have hahead : s.til clock < m.last := not_le.mp fun hm' => h ⟨m, hm, hm'⟩
      have := s.start_le clock
      omega
    · rw [readMark_start h']
      exact s.start_mono hle

variable {day k : ℤ}

/-- The watermarks after a write: those of other days, and those of the day with the greater key. -/
theorem mem_writeMark {m : Mark} : m ∈ writeMark day k marks ↔
    (m ∈ marks ∧ m.day ≠ day) ∨ (∃ m' ∈ marks, m'.day = day ∧ m = ⟨day, max m'.last k⟩) ∨
      (m = ⟨day, k⟩ ∧ ∀ m' ∈ marks, m'.day ≠ day) := by
  unfold writeMark
  split_ifs with hany
  · obtain ⟨m₀, hm₀, hday⟩ := List.any_eq_true.mp hany
    have hno : ¬ ∀ m' ∈ marks, m'.day ≠ day := fun hno => hno m₀ hm₀ (of_decide_eq_true hday)
    rw [List.mem_map]
    constructor
    · rintro ⟨m', hm', rfl⟩
      split_ifs with hd
      · exact Or.inr (Or.inl ⟨m', hm', hd, by rw [← hd]⟩)
      · exact Or.inl ⟨hm', hd⟩
    · rintro (⟨hm, hd⟩ | ⟨m', hm', hd, rfl⟩ | ⟨-, hall⟩)
      · exact ⟨m, hm, if_neg hd⟩
      · exact ⟨m', hm', by rw [if_pos hd, ← hd]⟩
      · exact absurd hall hno
  · have hall : ∀ m' ∈ marks, m'.day ≠ day := fun m' hm' hd => hany (List.any_eq_true.mpr ⟨m', hm', decide_eq_true hd⟩)
    rw [List.mem_append, List.mem_singleton]
    constructor
    · rintro (hm | rfl)
      · exact Or.inl ⟨hm, hall m hm⟩
      · exact Or.inr (Or.inr ⟨rfl, hall⟩)
    · rintro (⟨hm, -⟩ | ⟨m', hm', hd, -⟩ | ⟨rfl, -⟩)
      · exact Or.inl hm
      · exact absurd hd (hall m' hm')
      · exact Or.inr rfl

theorem Readable.writeMark (h : Readable s marks clock) (hk : k ≤ s.til clock) :
    Readable s (writeMark day k marks) clock ∧
      readMark s marks clock ≤ readMark s (Ingest.writeMark day k marks) clock := by
  obtain ⟨m, hm, heq, hle⟩ := readMark_mem h
  obtain ⟨m', hm', hge, hle'⟩ : ∃ m' ∈ Ingest.writeMark day k marks, m.last ≤ m'.last ∧ m'.last ≤ s.til clock := by
    by_cases hd : m.day = day
    · exact ⟨⟨day, max m.last k⟩, mem_writeMark.mpr (Or.inr (Or.inl ⟨m, hm, hd, rfl⟩)), le_max_left _ _, max_le hle hk⟩
    · exact ⟨m, mem_writeMark.mpr (Or.inl ⟨hm, hd⟩), le_rfl, hle⟩
  refine ⟨⟨m', hm', hle'⟩, ?_⟩
  rw [← heq]
  exact hge.trans (le_readMark hm' hle')

/-- What is read after a write is no more than what was read or written. -/
theorem readMark_writeMark_le (hk : k ≤ s.til clock) :
    readMark s (writeMark day k marks) clock ≤ readMark s marks clock ∨ readMark s (writeMark day k marks) clock ≤ k := by
  by_cases hread : Readable s (writeMark day k marks) clock
  · obtain ⟨z, hz, hzeq, hzle⟩ := readMark_mem hread
    rw [← hzeq]
    rcases mem_writeMark.mp hz with ⟨hz, -⟩ | ⟨z', hz', -, rfl⟩ | ⟨rfl, -⟩
    · exact Or.inl (le_readMark hz hzle)
    · rcases le_total z'.last k with hcase | hcase
      · exact Or.inr (max_le hcase le_rfl)
      · exact Or.inl ((max_le le_rfl hcase).trans (le_readMark hz' ((le_max_left _ _).trans hzle)))
    · exact Or.inr le_rfl
  · rw [readMark_start hread, readMark_start fun h => hread (h.writeMark hk).1]
    exact Or.inl le_rfl

variable (marks day) in
/-- What is read after a write is no less than what was read or written. -/
theorem le_readMark_writeMark_or (hk : k ≤ s.til clock) :
    readMark s marks clock ≤ readMark s (writeMark day k marks) clock ∨ k ≤ readMark s (writeMark day k marks) clock := by
  by_cases hbefore : Readable s marks clock
  · exact Or.inl (hbefore.writeMark hk).2
  · by_cases hafter : Readable s (writeMark day k marks) clock
    · obtain ⟨z, hz, hzeq, hzle⟩ := readMark_mem hafter
      rcases mem_writeMark.mp hz with ⟨hz, -⟩ | ⟨z', hz', -, rfl⟩ | ⟨rfl, -⟩
      · exact absurd ⟨z, hz, hzle⟩ hbefore
      · exact absurd ⟨z', hz', (le_max_left _ _).trans hzle⟩ hbefore
      · exact Or.inr hzeq.le
    · rw [readMark_start hbefore, readMark_start hafter]
      exact Or.inl le_rfl

/-- What is written is read, if the watermark of the day is not ahead of the clock. -/
theorem le_readMark_writeMark (hk : k ≤ s.til clock) (hday : ∀ m ∈ marks, m.day = day → m.last ≤ s.til clock) :
    k ≤ readMark s (writeMark day k marks) clock := by
  by_cases hex : ∃ z ∈ marks, z.day = day
  · obtain ⟨z, hz, hd⟩ := hex
    have hin : (⟨day, max z.last k⟩ : Mark) ∈ writeMark day k marks := mem_writeMark.mpr (Or.inr (Or.inl ⟨z, hz, hd, rfl⟩))
    exact (le_max_right z.last k).trans (le_readMark hin (max_le (hday z hz hd) hk))
  · have hin : (⟨day, k⟩ : Mark) ∈ writeMark day k marks :=
      mem_writeMark.mpr (Or.inr (Or.inr ⟨rfl, fun z hz hd => hex ⟨z, hz, hd⟩⟩))
    exact le_readMark hin hk

/-- A watermark of the day that is ahead of the clock stands still. -/
theorem writeMark_ahead (hday : ∃ m ∈ marks, m.day = day) (hahead : ∀ m ∈ marks, m.day = day → k ≤ m.last) :
    writeMark day k marks = marks := by
  obtain ⟨m, hm, hd⟩ := hday
  unfold writeMark
  rw [if_pos (List.any_eq_true.mpr ⟨m, hm, decide_eq_true hd⟩)]
  refine (List.map_congr_left fun m' hm' => ?_).trans (List.map_id _)
  split_ifs with hd'
  · rw [max_eq_left (hahead m' hm' hd')]
    rfl
  · rfl

end Marks

omit [DecidableEq K] in
theorem maxKey_mem {rows : List (Row K α)} {mx : ℤ} (h : maxKey rows = some mx) :
    ∃ r ∈ rows, r.wellFormed = true ∧ r.key = mx := by
  obtain ⟨r, hr, heq⟩ := List.mem_map.mp (List.max?_eq_some_iff.mp h).1
  obtain ⟨hr, hwf⟩ := List.mem_filter.mp hr
  exact ⟨r, hr, hwf, heq⟩

omit [DecidableEq K] in
theorem le_maxKey {rows : List (Row K α)} {r : Row K α} (hr : r ∈ rows) (hwf : r.wellFormed = true) :
    ∃ mx, maxKey rows = some mx ∧ r.key ≤ mx := by
  have hmem : r.key ∈ (rows.filter fun r => r.logRow.isSome && r.fullKey).map Row.key :=
    List.mem_map_of_mem (List.mem_filter.mpr ⟨hr, hwf⟩)
  unfold maxKey
  cases hmax : ((rows.filter fun r => r.logRow.isSome && r.fullKey).map Row.key).max? with
  | none => exact absurd hmem (by rw [List.max?_eq_none_iff.mp hmax]; exact List.not_mem_nil)
  | some mx => exact ⟨mx, rfl, (List.max?_eq_some_iff.mp hmax).2 _ hmem⟩

/-! ## A poll -/

section Poll

variable (s : Stream) (rows : Set (Row K α)) (floor : ℤ)

def landable (rows : Set (Row K α)) : Set (Row K α) := {r | r ∈ rows ∧ r.wellFormed = true}

/-- Every row of the stream from `floor` on that is behind the window of the watermark `mark` has landed. -/
def LandedTo (log : List (LogRow K α)) (mark : ℤ) : Prop := Landed Row.key (landable rows) (InLog log) floor s.lag mark

/-- A poll and the watermark that it reads. The state has the clock of the last poll that succeeded. -/
def pollStep (p : Poll K α) (x : Db K α × ℤ) : ℤ × Db K α × ℤ :=
  (readMark s x.1.marks p.clock, pollStream s p x.1, if p.ok then p.clock else x.2)

def waiting (marks : List Mark) (p : Poll K α) : List (Row K α) :=
  between Row.key (readMark s marks p.clock - s.lag) (s.til p.clock) p.visible

/-- A row that cannot raise the watermark: it is behind it, or it is malformed. -/
def inTheWay (mark : ℤ) (r : Row K α) : Bool := !(r.wellFormed && mark < r.key)

/-- What the tables must be like for a poll to get on and to skip nothing. -/
structure Clear (p : Poll K α) (x : Db K α × ℤ) : Prop where
  /-- The watermark of the day is not ahead of the clock, and the rows that cannot raise it do not fill the window; or all
  rows that wait fit into the window. -/
  advance : ((∀ m ∈ x.1.marks, m.day = s.day p.clock → m.last ≤ s.til p.clock) ∧
      ((waiting s x.1.marks p).filter (inTheWay (readMark s x.1.marks p.clock))).length < s.cap) ∨
    (waiting s x.1.marks p).length ≤ s.cap
  /-- A watermark that was ahead of the clock at the last poll, and is not any more, skips nothing. -/
  passed : ∀ m ∈ x.1.marks, s.til x.2 < m.last → m.last ≤ s.til p.clock → LandedTo s rows floor x.1.log m.last
  /-- A start without a watermark skips nothing. -/
  start : ¬ Readable s x.1.marks p.clock → LandedTo s rows floor x.1.log (s.start p.clock)

/-- No row that the poll reads, and that can raise the watermark, is further ahead of a row from `floor` on that is not visible
yet than the stream reads back. -/
def InOrder (marks : List Mark) (p : Poll K α) : Prop :=
  ∀ r ∈ landable rows, floor ≤ r.key → r ∉ p.visible → ∀ r' ∈ fetch s marks p, r'.wellFormed = true → r'.key ≤ r.key + s.lag

/-- What a poll needs. -/
structure Fine (p : Poll K α) (x : Db K α × ℤ) : Prop extends Clear s rows floor p x where
  forward : x.2 ≤ p.clock
  sub : ∀ r ∈ p.visible, r ∈ rows
  order : InOrder s rows floor x.1.marks p

/-- What every poll keeps. -/
structure Kept (x : Db K α × ℤ) : Prop where
  landed : LandedTo s rows floor x.1.log (readMark s x.1.marks x.2)
  log : LogOk rows x.1.log
  above : floor ≤ readMark s x.1.marks x.2 ∧ (¬ Readable s x.1.marks x.2 → floor + s.lag ≤ readMark s x.1.marks x.2)

variable {s rows floor} {p : Poll K α} {x : Db K α × ℤ}

omit [DecidableEq K] in
theorem Kept.landed_read (h : Kept s rows floor x) (hfine : Fine s rows floor p x) :
    LandedTo s rows floor x.1.log (readMark s x.1.marks p.clock) := by
  by_cases hread : Readable s x.1.marks p.clock
  · obtain ⟨m, hm, heq, hle⟩ := readMark_mem hread
    rw [← heq]
    by_cases hold : m.last ≤ s.til x.2
    · exact h.landed.of_le (le_readMark hm hold)
    · exact hfine.passed m hm (not_le.mp hold) hle
  · rw [readMark_start hread]
    exact hfine.start hread

omit [DecidableEq K] in
theorem mem_of_mem_fetch {marks : List Mark} {r : Row K α} (hr : r ∈ fetch s marks p) :
    r ∈ p.visible ∧ r.key ≤ s.til p.clock := by
  obtain ⟨hvis, -, hle⟩ := mem_between.mp (mem_between_of_mem_window hr)
  exact ⟨hvis, hle⟩

theorem pollStream_ok (hok : p.ok = true) (db : Db K α) : pollStream s p db =
    { marks := match maxKey (fetch s db.marks p) with
        | some mx => writeMark (s.day p.clock) mx db.marks
        | none => db.marks
      log := landRows (fetch s db.marks p) db.log } := by
  unfold pollStream
  exact if_pos hok

theorem pollStream_failed (hok : ¬ p.ok = true) (db : Db K α) : pollStream s p db = db := by
  unfold pollStream
  rw [if_neg hok]

theorem pollStep_ok (hok : p.ok = true) : (pollStep s p x).2 = (pollStream s p x.1, p.clock) := by
  show (pollStream s p x.1, if p.ok then p.clock else x.2) = _
  rw [if_pos hok]

theorem pollStep_failed (hok : ¬ p.ok = true) : (pollStep s p x).2 = x := by
  show (pollStream s p x.1, if p.ok then p.clock else x.2) = _
  rw [if_neg hok, pollStream_failed hok]

theorem Readable.pollStream {db : Db K α} (h : Readable s db.marks p.clock) :
    Readable s (pollStream s p db).marks p.clock ∧
      readMark s db.marks p.clock ≤ readMark s (Ingest.pollStream s p db).marks p.clock := by
  by_cases hok : p.ok = true
  · rw [pollStream_ok hok]
    cases hmx : maxKey (fetch s db.marks p) with
    | none => exact ⟨h, le_rfl⟩
    | some mx =>
      obtain ⟨r, hr, -, rfl⟩ := maxKey_mem hmx
      exact h.writeMark (mem_of_mem_fetch hr).2
  · rw [pollStream_failed hok]
    exact ⟨h, le_rfl⟩

/-- The watermark goes no further than a well-formed row that was read. -/
theorem readMark_pollStream_le (hok : p.ok = true) (db : Db K α) :
    readMark s (pollStream s p db).marks p.clock ≤ readMark s db.marks p.clock ∨
      ∃ r ∈ fetch s db.marks p, r.wellFormed = true ∧ readMark s (pollStream s p db).marks p.clock ≤ r.key := by
  rw [pollStream_ok hok]
  cases hmx : maxKey (fetch s db.marks p) with
  | none => exact Or.inl le_rfl
  | some mx =>
    obtain ⟨r, hr, hwf, rfl⟩ := maxKey_mem hmx
    exact (readMark_writeMark_le (mem_of_mem_fetch hr).2).imp_right fun hle => ⟨r, hr, hwf, hle⟩

/-- The watermark does not go back further than the stream reads back. -/
theorem le_readMark_pollStream_add (db : Db K α) :
    readMark s db.marks p.clock ≤ readMark s (pollStream s p db).marks p.clock + s.lag := by
  have hlag := s.lag_nonneg
  by_cases hok : p.ok = true
  · rw [pollStream_ok hok]
    cases hmx : maxKey (fetch s db.marks p) with
    | none =>
      dsimp only
      omega
    | some mx =>
      obtain ⟨r, hr, -, rfl⟩ := maxKey_mem hmx
      obtain ⟨-, hlo, hhi⟩ := mem_between.mp (mem_between_of_mem_window hr)
      rcases le_readMark_writeMark_or db.marks (s.day p.clock) hhi with hle | hle
      · dsimp only
        omega
      · dsimp only
        omega
  · rw [pollStream_failed hok]
    omega

/-- The watermark goes as far as every well-formed row that was read, if that of the day is not ahead of the clock. -/
theorem le_readMark_pollStream (hok : p.ok = true) {db : Db K α}
    (hday : ∀ m ∈ db.marks, m.day = s.day p.clock → m.last ≤ s.til p.clock) {r : Row K α}
    (hr : r ∈ fetch s db.marks p) (hwf : r.wellFormed = true) :
    r.key ≤ readMark s (pollStream s p db).marks p.clock := by
  rw [pollStream_ok hok]
  obtain ⟨mx, hmx, hle⟩ := le_maxKey hr hwf
  rw [hmx]
  obtain ⟨r', hr', -, rfl⟩ := maxKey_mem hmx
  exact hle.trans (le_readMark_writeMark (mem_of_mem_fetch hr').2 hday)

/-- **Every fine poll keeps what is kept**; a poll that fails changes nothing. -/
theorem poll_kept (h : Kept s rows floor x) (hfine : p.ok = true → Fine s rows floor p x) :
    Kept s rows floor (pollStep s p x).2 := by
  by_cases hok : p.ok = true
  · have hf := hfine hok
    obtain ⟨hlog, hin⟩ := landRows_spec (fun r hr => hf.sub r (mem_of_mem_fetch hr).1) h.log
    have hlog' : (pollStream s p x.1).log = landRows (fetch s x.1.marks p) x.1.log := by rw [pollStream_ok hok]
    rw [pollStep_ok hok]
    refine ⟨?_, by rw [hlog']; exact hlog, ?_⟩
    · show LandedTo s rows floor (pollStream s p x.1).log _
      rw [hlog']
      -- a row that cannot be landed counts as landed here, so that the window can be taken as a whole
      have hadv := (h.landed_read hf).advance
        (fun r => r ∈ landable rows → InLog (landRows (fetch s x.1.marks p) x.1.log) r) s.lag_nonneg
        (fun r _ hr _ => hr.mono fun l hl => mem_landRows hl)
        (fun r hr hland => hin r hr (Bool.and_eq_true_iff.mp hland.2).1)
        ((readMark_pollStream_le hok x.1).imp_right fun ⟨r', hr', hwf, hle⟩ =>
          ⟨r', hr', hle, fun r hr hfloor hout => hf.order r hr hfloor hout r' hr' hwf⟩)
      exact fun r hr hfloor hlt => hadv r hr hfloor hlt hr
    · have hclock := readMark_mono s x.1.marks hf.forward
      have hlag := s.lag_nonneg
      dsimp only
      by_cases hread : Readable s x.1.marks p.clock
      · obtain ⟨hread', hle⟩ := hread.pollStream
        refine ⟨?_, fun hno => absurd hread' hno⟩
        have := h.above.1
        omega
      · have habove := h.above.2 fun hread' => hread (hread'.forward hf.forward)
        have hback := le_readMark_pollStream_add (s := s) (p := p) x.1
        refine ⟨by omega, fun hno => ?_⟩
        rw [readMark_start hno, ← readMark_start hread]
        omega
  · rw [pollStep_failed hok]
    exact h

/-- **A poll that succeeds raises the watermark or leaves no row to land.** -/
theorem poll_progress (hok : p.ok = true) (h : Kept s rows floor x) (hf : Fine s rows floor p x) :
    readMark s x.1.marks p.clock < readMark s (pollStream s p x.1).marks p.clock ∨
    ∀ r ∈ p.visible, r.wellFormed = true → floor ≤ r.key → r.key ≤ s.til p.clock → InLog (pollStream s p x.1).log r := by
  by_cases hmany : (waiting s x.1.marks p).length ≤ s.cap
  · right
    intro r hr hwf hfloor hle
    obtain ⟨-, hin⟩ := landRows_spec (fun r hr => hf.sub r (mem_of_mem_fetch hr).1) h.log
    rw [pollStream_ok hok]
    by_cases hold : r.key < readMark s x.1.marks p.clock - s.lag
    · exact (h.landed_read hf r ⟨hf.sub r hr, hwf⟩ hfloor hold).mono fun l hl => mem_landRows hl
    · apply hin r _ (Bool.and_eq_true_iff.mp hwf).1
      exact mem_window_of_few hmany (mem_between.mpr ⟨hr, not_lt.mp hold, hle⟩)
  · left
    obtain ⟨hday, hfew⟩ := hf.advance.resolve_right hmany
    obtain ⟨r, hr, hp⟩ := exists_in_window (not_le.mp hmany).le hfew
    obtain ⟨hwf, hlt⟩ := Bool.and_eq_true_iff.mp (Bool.not_eq_eq_eq_not.mp hp)
    exact (of_decide_eq_true hlt).trans_le (le_readMark_pollStream hok hday hr hwf)

end Poll

/-! ## A run -/

section Run

variable {s : Stream} {rows : Set (Row K α)} {floor : ℤ} {polls : List (Poll K α)} {x : Db K α × ℤ}

theorem lastOf_pollStep : (lastOf (pollStep s) polls x).1 = pollAll s polls x.1 := by
  induction polls generalizing x with
  | nil => rfl
  | cons p polls ih => exact ih

theorem inLog_run {r : Row K α} (h : InLog x.1.log r) : InLog (lastOf (pollStep s) polls x).1.log r := by
  induction polls generalizing x with
  | nil => exact h
  | cons p polls ih =>
    apply ih
    show InLog (pollStream s p x.1).log r
    by_cases hok : p.ok = true
    · rw [pollStream_ok hok]
      exact h.mono fun l hl => mem_landRows hl
    · rw [pollStream_failed hok]
      exact h

def AllFine (s : Stream) (rows : Set (Row K α)) (floor : ℤ) : List (Poll K α) → Db K α × ℤ → Prop :=
  Meets (pollStep s) fun p x => p.ok = true → Fine s rows floor p x

/-- What TOS shows to the polls from the instant `now` on: the clock does not go back, and rows that have become visible stay
so. -/
structure Seen (rows : Set (Row K α)) (now : ℤ) (polls : List (Poll K α)) : Prop where
  clock : (now :: polls.map Poll.clock).Pairwise (· ≤ ·)
  sub : ∀ p ∈ polls, ∀ r ∈ p.visible, r ∈ rows
  grows : polls.Pairwise fun p p' => ∀ r ∈ p.visible, r ∈ p'.visible

omit [DecidableEq K] in
theorem Seen.forward {now : ℤ} {p : Poll K α} (h : Seen rows now (p :: polls)) : now ≤ p.clock :=
  (List.pairwise_cons.mp h.clock).1 p.clock List.mem_cons_self

omit [DecidableEq K] in
theorem Seen.tail {now : ℤ} {p : Poll K α} (h : Seen rows now (p :: polls)) : Seen rows p.clock polls where
  clock := (List.pairwise_cons.mp h.clock).2
  sub := fun p' hp' => h.sub p' (List.mem_cons_of_mem _ hp')
  grows := (List.pairwise_cons.mp h.grows).2

omit [DecidableEq K] in
theorem Seen.skip {now : ℤ} {p : Poll K α} (h : Seen rows now (p :: polls)) : Seen rows now polls where
  clock := by
    obtain ⟨hfirst, hrest⟩ := List.pairwise_cons.mp h.clock
    exact List.pairwise_cons.mpr ⟨fun c hc => hfirst c (List.mem_cons_of_mem _ hc), (List.pairwise_cons.mp hrest).2⟩
  sub := h.tail.sub
  grows := h.tail.grows

/-- After a poll TOS shows the rest from the clock of the last poll that succeeded on. -/
theorem Seen.step {p : Poll K α} (h : Seen rows x.2 (p :: polls)) : Seen rows (pollStep s p x).2.2 polls := by
  by_cases hok : p.ok = true
  · rw [pollStep_ok hok]
    exact h.tail
  · rw [pollStep_failed hok]
    exact h.skip

theorem Seen.allFine (h : Seen rows x.2 polls) (hclear : Meets (pollStep s)
    (fun p x => p.ok = true → Clear s rows floor p x ∧ InOrder s rows floor x.1.marks p) polls x) :
    AllFine s rows floor polls x := by
  induction polls generalizing x with
  | nil => trivial
  | cons p polls ih =>
    refine ⟨fun hok => ?_, ih h.step hclear.2⟩
    obtain ⟨hp, horder⟩ := hclear.1 hok
    exact ⟨hp, h.forward, h.sub p List.mem_cons_self, horder⟩

theorem kept_run (h : Kept s rows floor x) (hfine : AllFine s rows floor polls x) :
    Kept s rows floor (lastOf (pollStep s) polls x) := by
  induction polls generalizing x with
  | nil => exact h
  | cons p polls ih => exact ih (poll_kept h hfine.1) hfine.2

/-- **A row has landed after so many polls that succeed as the watermark can rise before it passes the row.** -/
theorem lands_within (h : Kept s rows floor x) (hfine : AllFine s rows floor polls x) {r : Row K α}
    (hr : r ∈ landable rows) (hfloor : floor ≤ r.key) (hvis : ∀ p ∈ polls, r ∈ p.visible ∧ r.key ≤ s.til p.clock)
    (hmany : r.key + s.lag - readMark s x.1.marks x.2 < (polls.countP Poll.ok : ℕ)) :
    InLog (lastOf (pollStep s) polls x).1.log r := by
  induction polls generalizing x with
  | nil =>
    rw [List.countP_nil] at hmany
    exact h.landed r hr hfloor (by push_cast at hmany; omega)
  | cons p polls ih =>
    have hvis' : ∀ p' ∈ polls, r ∈ p'.visible ∧ r.key ≤ s.til p'.clock := fun p' hp' => hvis p' (List.mem_cons_of_mem _ hp')
    have hkept := poll_kept h hfine.1
    by_cases hok : p.ok = true
    · rcases poll_progress hok h (hfine.1 hok) with hraise | hclear
      · apply ih hkept hfine.2 hvis'
        have hmono := readMark_mono s x.1.marks (hfine.1 hok).forward
        rw [List.countP_cons, if_pos hok] at hmany
        rw [pollStep_ok hok]
        push_cast at hmany
        dsimp only
        omega
      · have hin := hclear r (hvis p List.mem_cons_self).1 hr.2 hfloor (hvis p List.mem_cons_self).2
        exact inLog_run (x := (pollStep s p x).2) hin
    · apply ih hkept hfine.2 hvis'
      rw [List.countP_cons, if_neg hok] at hmany
      rw [pollStep_failed hok]
      exact hmany

/-- The polls lose no row from `floor` on, and get on. -/
structure NothingLost (s : Stream) (rows : Set (Row K α)) (floor : ℤ) (db : Db K α) (polls : List (Poll K α)) : Prop where
  /-- A poll that succeeds raises the watermark or leaves no visible row to land. -/
  progress : ∀ pre p post, polls = pre ++ p :: post → p.ok = true →
    readMark s (pollAll s pre db).marks p.clock < readMark s (pollStream s p (pollAll s pre db)).marks p.clock ∨
    ∀ r ∈ p.visible, r.wellFormed = true → floor ≤ r.key → r.key ≤ s.til p.clock →
      InLog (pollStream s p (pollAll s pre db)).log r
  /-- A row that a poll can see has landed after so many polls that succeed. -/
  lands : ∀ pre p post, polls = pre ++ p :: post → ∀ r ∈ p.visible, r.wellFormed = true → floor ≤ r.key →
    r.key ≤ s.til p.clock → r.key + s.lag - floor < ((p :: post).countP Poll.ok : ℕ) →
    LandedOnce rows (pollAll s polls db).log r

omit [DecidableEq K] in
/-- What a stream starts with is kept, from behind its first watermark on. -/
theorem kept_start {db : Db K α} (now : ℤ) (hlog : LogOk rows db.log) :
    Kept s rows (readMark s db.marks now - s.lag) (db, now) := by
  have hlag := s.lag_nonneg
  refine ⟨landed_start _, hlog, ?_, fun _ => ?_⟩
  · dsimp only
    omega
  · dsimp only
    omega

/-- **Polls that succeed in clear tables, and in order, lose nothing.** -/
theorem Seen.nothingLost {db : Db K α} {now : ℤ} (h : Seen rows now polls) (hkept : Kept s rows floor (db, now))
    (hclear : Meets (pollStep s)
      (fun p x => p.ok = true → Clear s rows floor p x ∧ InOrder s rows floor x.1.marks p) polls (db, now)) :
    NothingLost s rows floor db polls := by
  have hfine := h.allFine hclear
  refine ⟨?_, ?_⟩
  · rintro pre p post rfl hok
    obtain ⟨hpre, hp, -⟩ := meets_append.mp hfine
    have hprogress := poll_progress hok (kept_run hkept hpre) (hp hok)
    rw [lastOf_pollStep] at hprogress
    exact hprogress
  · rintro pre p post rfl r hr hwf hfloor hle hmany
    obtain ⟨hpre, hpost⟩ := meets_append.mp hfine
    have hkept' := kept_run hkept hpre
    have hlater := (List.pairwise_append.mp h.grows).2.1
    have hclock := (List.pairwise_append.mp (List.pairwise_map.mp (List.pairwise_cons.mp h.clock).2)).2.1
    have hvis : ∀ p' ∈ p :: post, r ∈ p'.visible ∧ r.key ≤ s.til p'.clock := by
      intro p' hp'
      rcases List.mem_cons.mp hp' with rfl | hp'
      · exact ⟨hr, hle⟩
      · exact ⟨(List.pairwise_cons.mp hlater).1 p' hp' r hr,
          hle.trans (s.til_mono ((List.pairwise_cons.mp hclock).1 p' hp'))⟩
    have hin := lands_within hkept' hpost ⟨h.sub p (by simp) r hr, hwf⟩ hfloor hvis (by
      have := hkept'.above.1
      omega)
    have hlog := (kept_run hkept hfine).log
    rw [← lastOf_append, lastOf_pollStep] at hin
    rw [lastOf_pollStep] at hlog
    exact hlog.landedOnce hin

/-! ## A row that is skipped -/

theorem not_inLog_landRows {fetched : List (Row K α)} {log : List (LogRow K α)} {r : Row K α} (hout : ¬ InLog log r)
    (hne : ∀ r' ∈ fetched, r'.ident ≠ r.ident) : ¬ InLog (landRows fetched log) r := by
  induction fetched generalizing log with
  | nil => exact hout
  | cons r' fetched ih =>
    apply ih _ fun r'' hr'' => hne r'' (List.mem_cons_of_mem _ hr'')
    rintro ⟨l, hl, hident⟩
    unfold landRow at hl
    split at hl
    · rename_i l' hl'
      split_ifs at hl
      · exact hout ⟨l, hl, hident⟩
      · rcases List.mem_append.mp hl with hl | hl
        · exact hout ⟨l, hl, hident⟩
        · rw [List.mem_singleton.mp hl] at hident
          exact hne r' List.mem_cons_self ((ident_of_logRow hl').trans hident.symm)
    · exact hout ⟨l, hl, hident⟩

/-- **A row behind the window of the watermark never lands**, if it has not landed yet. -/
theorem never_lands (hread : Readable s x.1.marks x.2) {r : Row K α} (hskip : r.key < readMark s x.1.marks x.2 - s.lag)
    (hout : ¬ InLog x.1.log r) (hclock : (x.2 :: polls.map Poll.clock).Pairwise (· ≤ ·))
    (hident : ∀ p ∈ polls, ∀ r' ∈ p.visible, r'.ident = r.ident → r'.key = r.key) :
    ¬ InLog (lastOf (pollStep s) polls x).1.log r := by
  induction polls generalizing x with
  | nil => exact hout
  | cons p polls ih =>
    obtain ⟨hfirst, hrest⟩ := List.pairwise_cons.mp hclock
    have hle : x.2 ≤ p.clock := hfirst p.clock List.mem_cons_self
    have hident' : ∀ p' ∈ polls, ∀ r' ∈ p'.visible, r'.ident = r.ident → r'.key = r.key :=
      fun p' hp' => hident p' (List.mem_cons_of_mem _ hp')
    by_cases hok : p.ok = true
    · have hread' := (hread.forward hle).pollStream
      have hmono := readMark_mono s x.1.marks hle
      refine ih (x := (pollStep s p x).2) ?_ ?_ ?_ ?_ hident'
      · rw [pollStep_ok hok]
        exact hread'.1
      · rw [pollStep_ok hok]
        dsimp only
        omega
      · rw [pollStep_ok hok, pollStream_ok hok]
        apply not_inLog_landRows hout
        intro r' hr' heq
        obtain ⟨hvis, hlo, -⟩ := mem_between.mp (mem_between_of_mem_window hr')
        have := hident p List.mem_cons_self r' hvis heq
        omega
      · rw [pollStep_ok hok]
        exact hrest
    · refine ih (x := (pollStep s p x).2) ?_ ?_ ?_ ?_ hident'
      · rw [pollStep_failed hok]
        exact hread
      · rw [pollStep_failed hok]
        exact hskip
      · rw [pollStep_failed hok]
        exact hout
      · rw [pollStep_failed hok]
        exact List.pairwise_cons.mpr ⟨fun c hc => hfirst c (List.mem_cons_of_mem _ hc), (List.pairwise_cons.mp hrest).2⟩

end Run

end TtAiops.Ingest
