import TtAiops.Ingest.Run

/-!
# The handovers (`handover.rs`)

A record of TOS is keyed by the time of its statement and becomes visible when it is committed.

* `Committed` : what TOS shows to the polls;
* `handover_all_land` : **as long as no poll reads a record that is later than one which is not committed yet, and the polls
  are `Clear`, nothing is lost**;
* `commit_order_skips` : what happens else, for there is no lag behind the watermark here.
-/

namespace TtAiops.Ingest
open TtAiops.Lib

variable {α : Type} {rows : Set (Row LabelKey α)} {commit : Row LabelKey α → ℤ} {polls : List (Poll LabelKey α)}
  {db : Db LabelKey α} {now : ℤ}

/-- The polls of the handovers from the instant `now` on: the clock does not go back, a poll sees what has been committed, and
a record is committed no more than 15 s after its time. -/
structure Committed (rows : Set (Row LabelKey α)) (commit : Row LabelKey α → ℤ) (now : ℤ) (polls : List (Poll LabelKey α)) :
    Prop where
  clock : (now :: polls.map Poll.clock).Pairwise (· ≤ ·)
  spread : ∀ r ∈ rows, r.key ≤ commit r ∧ commit r ≤ r.key + 15000
  visible : ∀ p ∈ polls, ∀ r, r ∈ p.visible ↔ r ∈ rows ∧ commit r ≤ p.clock

theorem Committed.seen (h : Committed rows commit now polls) : Seen rows now polls where
  clock := h.clock
  sub := fun p hp r hr => ((h.visible p hp r).mp hr).1
  grows := by
    have hclock := List.pairwise_map.mp (List.pairwise_cons.mp h.clock).2
    apply hclock.imp_of_mem
    intro p p' hp hp' hle r hr
    obtain ⟨hrows, hcommit⟩ := (h.visible p hp r).mp hr
    exact (h.visible p' hp' r).mpr ⟨hrows, hcommit.trans hle⟩

/-- **Handovers: nothing is lost and the polls get on**, as long as the polls that succeed find clear tables, and read no
record that is later than one from the first watermark on which is not committed yet. -/
theorem handover_all_land (h : Committed rows commit now polls) (hlog : LogOk rows db.log)
    (hclear : Meets (pollStep handoverLabel) (fun p x => p.ok = true →
      Clear handoverLabel rows (readMark handoverLabel db.marks now) p x ∧
        InOrder handoverLabel rows (readMark handoverLabel db.marks now) x.1.marks p)
      polls (db, now)) :
    NothingLost handoverLabel rows (readMark handoverLabel db.marks now) db polls := by
  have hkept := kept_start (s := handoverLabel) now hlog
  rw [show readMark handoverLabel db.marks now - handoverLabel.lag = readMark handoverLabel db.marks now from
    sub_zero _] at hkept
  exact h.seen.nothingLost hkept hclear

def nextLabel : Row LabelKey Unit := ⟨some ("ABCU7654321", 1, "1"), 105000, true, some 105000, ()⟩

/-- It lands, committed at once and seen again and again. -/
theorem handover_all_land_next :
    LandedOnce {nextLabel}
      (pollAll handoverLabel (List.replicate 15001 ⟨106000, [nextLabel], true⟩) ⟨[⟨0, 90000⟩], []⟩).log nextLabel := by
  have hcommitted : Committed {nextLabel} Row.key 106000 (List.replicate 15001 ⟨106000, [nextLabel], true⟩) := by
    refine ⟨?_, ?_, ?_⟩
    · rw [List.map_replicate]
      show (List.replicate 15002 (106000 : ℤ)).Pairwise (· ≤ ·)
      exact List.pairwise_replicate.mpr (Or.inr le_rfl)
    · rintro r rfl
      decide
    · intro p hp r
      rw [List.eq_of_mem_replicate hp, List.mem_singleton]
      exact ⟨by rintro rfl; exact ⟨rfl, by decide⟩, And.left⟩
  have hclear : Meets (pollStep handoverLabel) (fun p x => p.ok = true →
      Clear handoverLabel {nextLabel} (readMark handoverLabel [⟨0, 90000⟩] 106000) p x ∧
        InOrder handoverLabel {nextLabel} (readMark handoverLabel [⟨0, 90000⟩] 106000) x.1.marks p)
      (List.replicate 15001 ⟨106000, [nextLabel], true⟩) (⟨[⟨0, 90000⟩], []⟩, 106000) := by
    apply meets_of_inv (P := fun x => x.2 = 106000 ∧ Readable handoverLabel x.1.marks x.2) _
      ⟨rfl, ⟨0, 90000⟩, by decide, by decide⟩
    rintro p hp x ⟨hx, hread⟩
    obtain rfl := List.eq_of_mem_replicate hp
    rw [hx] at hread
    refine ⟨fun _ => ⟨⟨Or.inr ?_, ?_, ?_⟩, ?_⟩, ?_⟩
    · exact (List.length_filter_le _ _).trans (by decide)
    · intro m hm hahead hle
      rw [hx] at hahead
      exact absurd hahead (not_lt.mpr hle)
    · exact fun hno => absurd hread hno
    · rintro r ⟨rfl, -⟩ - hout
      exact absurd List.mem_cons_self hout
    · rw [pollStep_ok rfl]
      exact ⟨rfl, hread.pollStream.1⟩
  have hall := @handover_all_land _ _ _ _ ⟨[⟨0, 90000⟩], []⟩ _ hcommitted ⟨List.nodup_nil, by simp⟩ hclear
  exact hall.lands [] _ (List.replicate 15000 _) List.replicate_succ nextLabel (by simp) rfl (by decide) (by decide) (by
    rw [← List.replicate_succ, List.countP_replicate]
    decide)

def lateLabel : Row LabelKey Unit := ⟨some ("ABCU1234567", 1, "1"), 100000, true, some 100000, ()⟩

def commitOf (r : Row LabelKey Unit) : ℤ := if r.key = 100000 then 110000 else r.key

/-- Two polls, before and after the record at 100 s is committed, the second again and again. -/
def labelPolls (n : ℕ) : List (Poll LabelKey Unit) :=
  ⟨106000, [nextLabel], true⟩ :: List.replicate n ⟨111000, [lateLabel, nextLabel], true⟩

theorem labelPolls_committed (n : ℕ) : Committed {lateLabel, nextLabel} commitOf 90000 (labelPolls n) where
  clock := by
    unfold labelPolls
    rw [List.map_cons, List.map_replicate]
    refine List.pairwise_cons.mpr ⟨fun c hc => ?_, List.pairwise_cons.mpr ⟨fun c hc => ?_,
      List.pairwise_replicate.mpr (Or.inr le_rfl)⟩⟩
    · rcases List.mem_cons.mp hc with rfl | hc
      · decide
      · rw [List.eq_of_mem_replicate hc]
        decide
    · rw [List.eq_of_mem_replicate hc]
      decide
  spread := by
    rintro r (rfl | rfl) <;> decide
  visible := by
    intro p hp r
    rcases List.mem_cons.mp hp with rfl | hp
    · rw [List.mem_singleton]
      constructor
      · rintro rfl
        exact ⟨Or.inr rfl, by decide⟩
      · rintro ⟨rfl | rfl, hcommit⟩
        · exact absurd hcommit (by decide)
        · rfl
    · rw [List.eq_of_mem_replicate hp, List.mem_pair]
      constructor
      · rintro (rfl | rfl)
        · exact ⟨Or.inl rfl, by decide⟩
        · exact ⟨Or.inr rfl, by decide⟩
      · exact And.left

/-- **A record can be skipped**: the poll at 106 s sees the record at 105 s alone, and once it has been landed no further
poll reads the one at 100 s, which is committed 10 s after its time. -/
theorem commit_order_skips :
    readMark handoverLabel [⟨0, 90000⟩] 90000 = 90000 ∧ lateLabel.wellFormed = true ∧ 90000 < lateLabel.key ∧
    ∀ n, Committed {lateLabel, nextLabel} commitOf 90000 (labelPolls n) ∧
      (∀ p ∈ labelPolls n, ∀ k, (p.visible.filter fun r => r.key = k).length ≤ handoverLabel.cap) ∧
      ¬ InLog (pollAll handoverLabel (labelPolls n) ⟨[⟨0, 90000⟩], []⟩).log lateLabel := by
  refine ⟨by decide, by decide, by decide, fun n => ⟨labelPolls_committed n, ?_, ?_⟩⟩
  · intro p hp k
    refine (List.length_filter_le _ _).trans ?_
    rcases List.mem_cons.mp hp with rfl | hp
    · decide
    · rw [List.eq_of_mem_replicate hp]
      decide
  · have hfirst : pollStream handoverLabel ⟨106000, [nextLabel], true⟩ ⟨[⟨0, 90000⟩], []⟩ =
        ⟨[⟨0, 105000⟩], [⟨("ABCU7654321", 1, "1"), 105000, 105000, ()⟩]⟩ := by rfl
    have hnever := never_lands (s := handoverLabel) (r := lateLabel)
      (x := (⟨[⟨0, 105000⟩], [⟨("ABCU7654321", 1, "1"), 105000, 105000, ()⟩]⟩, 106000))
      ⟨⟨0, 105000⟩, by decide, by decide⟩ (by decide)
      (by unfold InLog; decide) (labelPolls_committed n).seen.tail.clock (by
        intro p hp r' hr' hident
        rw [List.eq_of_mem_replicate hp] at hr'
        rcases List.mem_pair.mp hr' with rfl | rfl
        · rfl
        · exact absurd hident (by decide))
    rw [lastOf_pollStep] at hnever
    show ¬ InLog (pollAll handoverLabel _ (pollStream handoverLabel ⟨106000, [nextLabel], true⟩ _)).log lateLabel
    rw [hfirst]
    exact hnever

end TtAiops.Ingest
