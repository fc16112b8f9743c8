import TtAiops.Ingest.Run

/-!
# The crane moves (`qc_moves.rs`, `rtg_moves.rs`)

* `Shown` : what TOS shows to the polls of a move stream;
* `crane_moves_all_land` : **with watermarks behind the clock nothing is lost, and the polls get on**;
* `poisoned_all_land` : with any watermarks nothing is lost as long as the polls are `Clear`;
* `stands_still`, `poisoned_skips` : what happens else: a watermark of the day that is ahead of the clock does not rise, and
  once the clock has passed it the rows behind it are skipped.
-/

namespace TtAiops.Ingest
open TtAiops.Lib

variable {α : Type} {s : Stream} {rows : Set (Row MoveKey α)} {polls : List (Poll MoveKey α)} {db : Db MoveKey α} {now : ℤ}

/-- What TOS shows to the polls of a stream of moves: a row becomes visible before any row with a key more than 120 s later
does. -/
structure Shown (rows : Set (Row MoveKey α)) (now : ℤ) (polls : List (Poll MoveKey α)) : Prop extends
    Seen rows now polls where
  order : ∀ p ∈ polls, ∀ r ∈ rows, r ∉ p.visible → ∀ r' ∈ p.visible, r'.key ≤ r.key + 120

theorem Shown.inOrder (hlag : s.lag = 120) (h : Shown rows now polls) {p : Poll MoveKey α} (hp : p ∈ polls)
    (floor : ℤ) (marks : List Mark) : InOrder s rows floor marks p := by
  intro r hr _ hout r' hr' _
  rw [hlag]
  exact h.order p hp r hr.1 hout r' (mem_of_mem_fetch hr').1

/-! ## Watermarks behind the clock -/

theorem marks_le_pollStream {p : Poll MoveKey α} (h : ∀ m ∈ db.marks, m.last ≤ s.til p.clock) :
    ∀ m ∈ (pollStream s p db).marks, m.last ≤ s.til p.clock := by
  by_cases hok : p.ok = true
  · rw [pollStream_ok hok]
    cases hmx : maxKey (fetch s db.marks p) with
    | none => exact h
    | some mx =>
      obtain ⟨r, hr, -, rfl⟩ := maxKey_mem hmx
      have hle := (mem_of_mem_fetch hr).2
      intro m hm
      rcases mem_writeMark.mp hm with ⟨hm, -⟩ | ⟨m', hm', -, rfl⟩ | ⟨rfl, -⟩
      · exact h m hm
      · exact max_le (h m' hm') hle
      · exact hle
  · rw [pollStream_failed hok]
    exact h

/-- Where all rows are well formed, fewer of them than fit into a window are in the way of the watermark. -/
theorem few_inTheWay {p : Poll MoveKey α} (hlag : s.lag = 120) (hwf : ∀ r ∈ p.visible, r.wellFormed = true)
    (hfew : ∀ k, (between Row.key k (k + 120) p.visible).length < s.cap) (marks : List Mark) :
    ((waiting s marks p).filter (inTheWay (readMark s marks p.clock))).length < s.cap := by
  refine lt_of_le_of_lt ?_ (hfew (readMark s marks p.clock - 120))
  unfold waiting between
  rw [List.filter_filter, ← List.countP_eq_length_filter, ← List.countP_eq_length_filter, hlag]
  apply List.countP_mono_left
  intro r hr hway
  obtain ⟨hway, hlo⟩ := Bool.and_eq_true_iff.mp hway
  have hlo := of_decide_eq_true hlo
  have hle : ¬ readMark s marks p.clock < r.key := by
    intro hlt
    unfold inTheWay at hway
    rw [hwf r hr, decide_eq_true hlt] at hway
    exact absurd hway (by decide)
  apply decide_eq_true
  omega

theorem Seen.clear (hlag : s.lag = 120) (h : Seen rows now polls)
    (hwf : ∀ r ∈ rows, r.wellFormed = true)
    (hfew : ∀ p ∈ polls, ∀ k, (between Row.key k (k + 120) p.visible).length < s.cap)
    (hread : Readable s db.marks now) (hbehind : ∀ m ∈ db.marks, m.last ≤ s.til now) (floor : ℤ) :
    Meets (pollStep s) (fun p x => p.ok = true → Clear s rows floor p x) polls (db, now) := by
  induction polls generalizing db now with
  | nil => trivial
  | cons p polls ih =>
    have hforward : now ≤ p.clock := h.forward
    have hbehind' : ∀ m ∈ db.marks, m.last ≤ s.til p.clock := fun m hm => (hbehind m hm).trans (s.til_mono hforward)
    have hfew' : ∀ p' ∈ polls, ∀ k, (between Row.key k (k + 120) p'.visible).length < s.cap :=
      fun p' hp' => hfew p' (List.mem_cons_of_mem _ hp')
    refine ⟨fun _ => ⟨?_, ?_, ?_⟩, ?_⟩
    · have hwf' : ∀ r ∈ p.visible, r.wellFormed = true := fun r hr => hwf r (h.sub p List.mem_cons_self r hr)
      exact Or.inl ⟨fun m hm _ => hbehind' m hm, few_inTheWay hlag hwf' (hfew p List.mem_cons_self) _⟩
    · exact fun m hm hahead => absurd (hbehind m hm) (not_le.mpr hahead)
    · exact fun hno => absurd (hread.forward hforward) hno
    · by_cases hok : p.ok = true
      · rw [pollStep_ok hok]
        exact ih h.tail hfew' (hread.forward hforward).pollStream.1 (marks_le_pollStream hbehind')
      · rw [pollStep_failed hok]
        exact ih h.skip hfew' hread hbehind

/-- The watermarks that the polls read, one after the other. -/
def reads (s : Stream) (polls : List (Poll MoveKey α)) (db : Db MoveKey α) : List ℤ :=
  (runInputs (fun p db => (readMark s db.marks p.clock, pollStream s p db)) polls db).map Prod.fst

theorem reads_pairwise (hclock : (now :: polls.map Poll.clock).Pairwise (· ≤ ·)) (hread : Readable s db.marks now) :
    (readMark s db.marks now :: reads s polls db).Pairwise (· ≤ ·) := by
  induction polls generalizing db now with
  | nil => exact List.pairwise_singleton _ _
  | cons p polls ih =>
    obtain ⟨hfirst, hrest⟩ := List.pairwise_cons.mp hclock
    have hforward : now ≤ p.clock := hfirst p.clock List.mem_cons_self
    have hmono := readMark_mono s db.marks hforward
    obtain ⟨hread', hle⟩ := (hread.forward hforward).pollStream
    obtain ⟨hlater, hpair⟩ := List.pairwise_cons.mp (ih hrest hread')
    have hnext : ∀ m ∈ reads s polls (pollStream s p db), readMark s db.marks p.clock ≤ m :=
      fun m hm => hle.trans (hlater m hm)
    show (readMark s db.marks now :: readMark s db.marks p.clock :: reads s polls (pollStream s p db)).Pairwise (· ≤ ·)
    refine List.pairwise_cons.mpr ⟨?_, List.pairwise_cons.mpr ⟨hnext, hpair⟩⟩
    intro m hm
    rcases List.mem_cons.mp hm with rfl | hm
    · exact hmono
    · exact hmono.trans (hnext m hm)

theorem readable_pollAll (hclock : (now :: polls.map Poll.clock).Pairwise (· ≤ ·)) (hread : Readable s db.marks now)
    {pre post : List (Poll MoveKey α)} {p : Poll MoveKey α} (hsplit : polls = pre ++ p :: post) :
    Readable s (pollAll s pre db).marks p.clock := by
  subst hsplit
  induction pre generalizing db now with
  | nil => exact hread.forward ((List.pairwise_cons.mp hclock).1 p.clock List.mem_cons_self)
  | cons p' pre ih =>
    obtain ⟨hfirst, hrest⟩ := List.pairwise_cons.mp hclock
    exact ih (hread.forward (hfirst p'.clock List.mem_cons_self)).pollStream.1 hrest

/-- **Crane moves: nothing is lost, the polls get on, and the watermark neither goes back nor passes the clock.** Rows are
well formed, fewer than `FETCH_CAP` of them lie in any 120 s, and there is a watermark, and none ahead of the clock. -/
theorem crane_moves_all_land (hs : s = qcMove ∨ s = rtgMove) (hshown : Shown rows now polls)
    (hwf : ∀ r ∈ rows, r.wellFormed = true)
    (hfew : ∀ p ∈ polls, ∀ k, (between Row.key k (k + 120) p.visible).length < s.cap)
    (hsome : db.marks ≠ []) (hbehind : ∀ m ∈ db.marks, m.last ≤ now) (hlog : LogOk rows db.log) :
    NothingLost s rows (readMark s db.marks now - 120) db polls ∧
    (readMark s db.marks now :: reads s polls db).Pairwise (· ≤ ·) ∧
    ∀ pre p post, polls = pre ++ p :: post → readMark s (pollAll s pre db).marks p.clock ≤ p.clock := by
  have hlag : s.lag = 120 := by rcases hs with rfl | rfl <;> rfl
  have htil : ∀ clock, s.til clock = clock := by rcases hs with rfl | rfl <;> exact fun _ => rfl
  have hread : Readable s db.marks now := by
    obtain ⟨m, hm⟩ := List.exists_mem_of_ne_nil _ hsome
    exact ⟨m, hm, (hbehind m hm).trans (htil now).ge⟩
  have hfloor : readMark s db.marks now - 120 = readMark s db.marks now - s.lag := by rw [hlag]
  refine ⟨?_, reads_pairwise hshown.clock hread, fun pre p post hsplit => ?_⟩
  · rw [hfloor]
    have hclear := hshown.clear hlag hwf hfew hread (fun m hm => (hbehind m hm).trans (htil now).ge)
      (readMark s db.marks now - s.lag)
    exact hshown.nothingLost (kept_start now hlog)
      (hclear.imp fun p hp x hc hok => ⟨hc hok, hshown.inOrder hlag hp _ x.1.marks⟩)
  · exact (readMark_le (readable_pollAll hshown.clock hread hsplit)).trans (htil p.clock).le

theorem shown_replicate {p : Poll MoveKey α} (hforward : now ≤ p.clock) (hall : ∀ r, r ∈ rows ↔ r ∈ p.visible) (n : ℕ) :
    Shown rows now (List.replicate n p) where
  clock := by
    rw [List.map_replicate]
    refine List.pairwise_cons.mpr ⟨fun c hc => ?_, List.pairwise_replicate.mpr (Or.inr le_rfl)⟩
    rw [List.eq_of_mem_replicate hc]
    exact hforward
  sub := fun p' hp' r hr => (hall r).mpr (List.eq_of_mem_replicate hp' ▸ hr)
  grows := List.pairwise_replicate.mpr (Or.inr fun _ hr => hr)
  order := fun p' hp' r hr hout => absurd (List.eq_of_mem_replicate hp' ▸ (hall r).mp hr) hout

theorem Shown.cons {p : Poll MoveKey α} (h : Shown rows p.clock polls) (hforward : now ≤ p.clock)
    (hsub : ∀ r ∈ p.visible, r ∈ rows) (hgrows : ∀ q ∈ polls, p.visible ⊆ q.visible)
    (horder : ∀ r ∈ rows, r ∉ p.visible → ∀ r' ∈ p.visible, r'.key ≤ r.key + 120) : Shown rows now (p :: polls) where
  clock := by
    rw [List.map_cons]
    refine List.pairwise_cons.mpr ⟨fun c hc => ?_, h.clock⟩
    rcases List.mem_cons.mp hc with rfl | hc
    · exact hforward
    · exact hforward.trans ((List.pairwise_cons.mp h.clock).1 c hc)
  sub := List.forall_mem_cons.mpr ⟨hsub, h.sub⟩
  grows := List.pairwise_cons.mpr ⟨hgrows, h.grows⟩
  order := List.forall_mem_cons.mpr ⟨horder, h.order⟩

def moveRow : Row MoveKey Unit := ⟨some ("C01", "ABCU1234567", "19700102034650"), 100010, true, some 100010, ()⟩

/-- Another one five seconds before, which comes late. -/
def lateRow : Row MoveKey Unit := ⟨some ("C02", "DEFU7654321", "19700102034645"), 100005, true, some 100005, ()⟩

/-- The first poll sees one move, the second fails, and then both are there. -/
def latePolls : List (Poll MoveKey Unit) :=
  ⟨100100, [moveRow], true⟩ :: ⟨100110, [moveRow], false⟩ :: List.replicate 251 ⟨100120, [lateRow, moveRow], true⟩

/-- The late move is behind the watermark that the first poll leaves; it lands after so many polls as that can rise by
seconds. -/
theorem crane_moves_all_land_late : LandedOnce {moveRow, lateRow} (pollAll qcMove latePolls ⟨[⟨1, 100000⟩], []⟩).log lateRow := by
  have hshown : Shown {moveRow, lateRow} 100000 latePolls := by
    have hearly : ∀ r ∈ ({moveRow, lateRow} : Set (Row MoveKey Unit)), r ∉ [moveRow] → ∀ r' ∈ [moveRow], r'.key ≤ r.key + 120 := by
      rintro r (rfl | rfl) hout r' hr'
      · exact absurd List.mem_cons_self hout
      · rw [List.mem_singleton.mp hr']
        decide
    have hmore : ∀ q ∈ List.replicate 251 (⟨100120, [lateRow, moveRow], true⟩ : Poll MoveKey Unit), [moveRow] ⊆ q.visible := by
      intro q hq
      rw [List.eq_of_mem_replicate hq]
      simp
    have hrows : ∀ r ∈ [moveRow], r ∈ ({moveRow, lateRow} : Set (Row MoveKey Unit)) :=
      List.forall_mem_singleton.mpr (Or.inl rfl)
    have hboth : Shown {moveRow, lateRow} 100110 (List.replicate 251 ⟨100120, [lateRow, moveRow], true⟩) :=
      shown_replicate (by decide) (by simp [or_comm]) 251
    have hfailed : Shown {moveRow, lateRow} 100100
        (⟨100110, [moveRow], false⟩ :: List.replicate 251 ⟨100120, [lateRow, moveRow], true⟩) :=
      hboth.cons (by decide) hrows hmore hearly
    exact hfailed.cons (by decide) hrows (List.forall_mem_cons.mpr ⟨fun _ hr => hr, hmore⟩) hearly
  have hfew : ∀ p ∈ latePolls, ∀ k, (between Row.key k (k + 120) p.visible).length < qcMove.cap := by
    intro p hp k
    refine lt_of_le_of_lt (List.length_filter_le _ _) ?_
    rcases List.mem_cons.mp hp with rfl | hp
    · decide
    rcases List.mem_cons.mp hp with rfl | hp
    · decide
    · rw [List.eq_of_mem_replicate hp]
      decide
  have hall := (@crane_moves_all_land _ qcMove _ _ ⟨[⟨1, 100000⟩], []⟩ _ (Or.inl rfl) hshown
    (by rintro r (rfl | rfl) <;> decide) hfew (by decide) (by decide) ⟨List.nodup_nil, by simp⟩).1
  exact hall.lands [⟨100100, [moveRow], true⟩, ⟨100110, [moveRow], false⟩] ⟨100120, [lateRow, moveRow], true⟩
    (List.replicate 250 _) rfl lateRow List.mem_cons_self rfl (by decide) (by decide) (by
      rw [← List.replicate_succ, List.countP_replicate]
      decide)

/-! ## Watermarks ahead of the clock -/

/-- **Any watermarks: nothing is lost and the polls get on**, as long as the polls that succeed are `Clear`. -/
theorem poisoned_all_land (hs : s = qcMove ∨ s = rtgMove) (hshown : Shown rows now polls) (hlog : LogOk rows db.log)
    (hclear : Meets (pollStep s)
      (fun p x => p.ok = true → Clear s rows (readMark s db.marks now - 120) p x) polls (db, now)) :
    NothingLost s rows (readMark s db.marks now - 120) db polls := by
  have hlag : s.lag = 120 := by rcases hs with rfl | rfl <;> rfl
  have hkept := kept_start (s := s) now hlog
  rw [hlag] at hkept
  exact hshown.nothingLost hkept (hclear.imp fun p hp x hc hok => ⟨hc hok, hshown.inOrder hlag hp _ x.1.marks⟩)

/-- The watermarks of a stream at 8:00, with that of the day at 10:00, and that of the day before at 23:00. -/
def poisoned : Db MoveKey Unit := ⟨[⟨0, 36000⟩, ⟨-1, -3600⟩], []⟩

def earlyMove : Row MoveKey Unit := ⟨some ("C01", "ABCU1234567", "19700101070000"), 25200, true, some 25200, ()⟩

/-- It lands with the watermark of the day still ahead of the clock. -/
theorem poisoned_all_land_early :
    LandedOnce {earlyMove} (pollAll qcMove (List.replicate 30000 ⟨28800, [earlyMove], true⟩) poisoned).log earlyMove := by
  have hclear : Meets (pollStep qcMove) (fun p x => p.ok = true →
      Clear qcMove {earlyMove} (readMark qcMove poisoned.marks 28800 - 120) p x)
      (List.replicate 30000 ⟨28800, [earlyMove], true⟩) (poisoned, 28800) := by
    apply meets_of_inv (P := fun x => x.2 = 28800 ∧ Readable qcMove x.1.marks x.2) _ ⟨rfl, ⟨-1, -3600⟩, by decide, by decide⟩
    rintro p hp x ⟨hx, hread⟩
    obtain rfl := List.eq_of_mem_replicate hp
    rw [hx] at hread
    refine ⟨fun _ => ⟨Or.inr ?_, ?_, ?_⟩, ?_⟩
    · exact (List.length_filter_le _ _).trans (by decide)
    · intro m hm hahead hle
      rw [hx] at hahead
      exact absurd hahead (not_lt.mpr hle)
    · exact fun hno => absurd hread hno
    · rw [pollStep_ok rfl]
      exact ⟨rfl, hread.pollStream.1⟩
  have hshown : Shown {earlyMove} 28800 (List.replicate 30000 ⟨28800, [earlyMove], true⟩) :=
    shown_replicate (by decide) (by simp) 30000
  have hlog : LogOk {earlyMove} poisoned.log := ⟨List.nodup_nil, by simp [poisoned]⟩
  have hall := poisoned_all_land (Or.inl rfl) hshown hlog hclear
  exact hall.lands [] _ (List.replicate 29999 _) List.replicate_succ earlyMove (by simp) rfl (by decide) (by decide) (by
    rw [← List.replicate_succ, List.countP_replicate]
    decide)

def skippedMove : Row MoveKey Unit := ⟨some ("C01", "ABCU1234567", "19700101090000"), 32400, true, some 32400, ()⟩

/-- **A row can be skipped**: the stream reads from 23:00 on at 8:00, and the next time at 10:00; the move at 9:00 is behind
the watermark that the clock has passed in the meantime, and no further poll lands it. -/
theorem poisoned_skips :
    readMark qcMove poisoned.marks 28800 = -3600 ∧ skippedMove.wellFormed = true ∧ -3600 < skippedMove.key ∧
    ∀ n, Shown {skippedMove} 28800 (⟨28800, [], true⟩ :: List.replicate n ⟨36000, [skippedMove], true⟩) ∧
      (∀ p ∈ (⟨28800, [], true⟩ :: List.replicate n ⟨36000, [skippedMove], true⟩ : List (Poll MoveKey Unit)), ∀ k,
        (between Row.key k (k + 120) p.visible).length < qcMove.cap) ∧
      ¬ InLog (pollAll qcMove (⟨28800, [], true⟩ :: List.replicate n ⟨36000, [skippedMove], true⟩) poisoned).log
        skippedMove := by
  refine ⟨by decide, by decide, by decide, fun n => ⟨?_, ?_, ?_⟩⟩
  · have hlater : Shown {skippedMove} 28800 (List.replicate n ⟨36000, [skippedMove], true⟩) :=
      shown_replicate (by decide) (by simp) n
    exact hlater.cons (p := ⟨28800, [], true⟩) le_rfl (by simp) (by simp) (by simp)
  · intro p hp k
    refine lt_of_le_of_lt (List.length_filter_le _ _) ?_
    rcases List.mem_cons.mp hp with rfl | hp
    · decide
    · rw [List.eq_of_mem_replicate hp]
      decide
  · have hlater : Shown {skippedMove} 36000 (List.replicate n ⟨36000, [skippedMove], true⟩) :=
      shown_replicate (by decide) (by simp) n
    have hnever := never_lands (s := qcMove) (x := (poisoned, 36000)) (r := skippedMove) ⟨⟨0, 36000⟩, by decide, by decide⟩
      (by decide) (by simp [poisoned, InLog]) hlater.clock (by
        intro p hp r' hr' _
        rw [List.eq_of_mem_replicate hp] at hr'
        rw [List.mem_singleton.mp hr'])
    rw [lastOf_pollStep] at hnever
    exact hnever

/-- A poll stands still, if a watermark of the day is ahead of the clock and what fits into the window has landed. -/
theorem stands_still {p : Poll MoveKey α} (hday : ∃ m ∈ db.marks, m.day = s.day p.clock)
    (hahead : ∀ m ∈ db.marks, m.day = s.day p.clock → s.til p.clock < m.last)
    (hlanded : ∀ r ∈ fetch s db.marks p, r.logRow.isSome = true → InLog db.log r) : pollStream s p db = db := by
  by_cases hok : p.ok = true
  · rw [pollStream_ok hok, landRows_landed hlanded]
    cases hmx : maxKey (fetch s db.marks p) with
    | none => rfl
    | some mx =>
      obtain ⟨r, hr, -, rfl⟩ := maxKey_mem hmx
      have hle := (mem_of_mem_fetch hr).2
      have hstill : writeMark (s.day p.clock) r.key db.marks = db.marks :=
        writeMark_ahead hday fun m hm hd => hle.trans (hahead m hm hd).le
      dsimp only
      rw [hstill]
  · exact pollStream_failed hok db

end TtAiops.Ingest
