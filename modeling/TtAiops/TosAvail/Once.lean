import TtAiops.TosAvail.Complete
import TtAiops.TosAvail.Tick

/-!
# Every commit is applied exactly once

* `TimedCommit`, `History`, `Fetches` : the commits of TOS with their times, and what a tick fetches of them;
* `appliedBy`, `ticksApplied` : the commits that a tick replays, and those of a run;
* `Regular` : ticks in the order of time, none of them after a gap;
* `Caught`, `caught_tick` : what the anchor says about the commits, and that every tick keeps it;
* `group_of_commit`, `applied_once` : **a commit that a later snapshot is the first to see is applied by one tick, with all
  of its records; a commit that the anchor contains is not applied.**
-/

namespace TtAiops.TosAvail
open TtAiops.Lib

structure TimedCommit extends Commit where
  time : ℤ

/-- The commits of TOS in commit order: their numbers are positive and rise, and their records carry times at most 120 s
before the commit. -/
structure History (h : List TimedCommit) : Prop where
  order : h.Pairwise fun c c' => c.time ≤ c'.time ∧ c.scn < c'.scn
  pos : ∀ c ∈ h, 0 < c.scn
  scn : ∀ c ∈ h, ∀ e ∈ c.records, e.scn = c.scn
  recent : ∀ c ∈ h, ∀ e ∈ c.records, c.time - 120 * 1000000 ≤ e.ts

/-- The start of the window as the query has it, in milliseconds. -/
def toMytMs (t : ℤ) : ℤ := t - t % 1000

/-- The tick fetches the records of its window, of the commits that its snapshot sees, in any order. -/
def Fetches (h : List TimedCommit) (inp : TickIn) (db : Db) : Prop :=
  inp.changes.Perm (((h.filter fun c => c.time ≤ inp.snap.asOf).flatMap fun c => c.records).filter fun e =>
    toMytMs (histFrom ((usable db.anchor inp.now).map Anchor.asOf) inp.now) ≤ e.ts)

/-- The tick is the first or a replay; its snapshot is later than the anchor, by at most 900 s, and its clock is at most
10 s ahead of the snapshot. -/
structure Regular (h : List TimedCommit) (inp : TickIn) (db : Db) : Prop where
  fetches : Fetches h inp db
  later : ∀ a ∈ db.anchor, a.asOf < inp.snap.asOf ∧ inp.snap.asOf ≤ a.asOf + 900 * 1000000
  replays : ∀ a ∈ db.anchor, usable db.anchor inp.now = some a
  clock : inp.now ≤ inp.snap.asOf + 10 * 1000000

/-- The commits that a tick replays, each with its records. -/
def appliedBy (inp : TickIn) (db : Db) : List (ℕ × List Change) :=
  if db.anchor.any fun a => inp.snap.asOf ≤ a.asOf then []
  else
    match usable db.anchor inp.now with
    | some a => txns a.scn inp.changes
    | none => []

def ticksApplied : List TickIn → Db → List (ℕ × List Change)
  | [], _ => []
  | inp :: ins, db => appliedBy inp db ++ ticksApplied ins (tick inp db).2

/-! ## The records of a commit -/

section History

variable {h : List TimedCommit} (hist : History h)
include hist

theorem History.records_of_scn {c : TimedCommit} (hc : c ∈ h) (p : TimedCommit → Bool) :
    ((h.filter p).flatMap fun c => c.records).filter (fun e => e.scn = c.scn) = if p c then c.records else [] := by
  obtain ⟨front, back, rfl⟩ := List.append_of_mem hc
  have hnone : ∀ l : List TimedCommit, (∀ c' ∈ l, c' ∈ front ++ c :: back ∧ c'.scn ≠ c.scn) →
      ((l.filter p).flatMap fun c => c.records).filter (fun e => e.scn = c.scn) = [] := by
    intro l hl
    apply List.filter_eq_nil_iff.mpr
    intro e he heq
    obtain ⟨c', hc', hmem⟩ := List.mem_flatMap.mp he
    obtain ⟨hin, hne⟩ := hl c' (List.mem_filter.mp hc').1
    exact hne ((hist.scn c' hin e hmem).symm.trans (of_decide_eq_true heq))
  obtain ⟨-, hcons, hcross⟩ := List.pairwise_append.mp hist.order
  have hfront := hnone front fun c' hc' => ⟨by simp [hc'], (hcross c' hc' c List.mem_cons_self).2.ne⟩
  have hback := hnone back fun c' hc' => ⟨by simp [hc'], ((List.pairwise_cons.mp hcons).1 c' hc').2.ne'⟩
  have hself : c.records.filter (fun e => e.scn = c.scn) = c.records :=
    List.filter_eq_self.mpr fun e he => decide_eq_true (hist.scn c hc e he)
  rw [List.filter_append, List.flatMap_append, List.filter_append, hfront, List.nil_append, List.filter_cons]
  split_ifs with hp
  · rw [List.flatMap_cons, List.filter_append, hback, hself, List.append_nil]
  · exact hback

theorem History.scn_lt {c c' : TimedCommit} (hc : c ∈ h) (hc' : c' ∈ h) (hlt : c.time < c'.time) : c.scn < c'.scn := by
  obtain ⟨front, back, rfl⟩ := List.append_of_mem hc
  obtain ⟨-, hcons, hcross⟩ := List.pairwise_append.mp hist.order
  rcases List.mem_append.mp hc' with hc' | hc'
  · have hle := (hcross c' hc' c List.mem_cons_self).1
    omega
  · rcases List.mem_cons.mp hc' with rfl | hc'
    · exact absurd hlt (lt_irrefl _)
    · exact ((List.pairwise_cons.mp hcons).1 c' hc').2

end History

/-! ## What a tick fetches -/

theorem le_fetchedScn {changes : List Change} {e : Change} (he : e ∈ changes) : e.scn ≤ fetchedScn changes := by
  unfold fetchedScn
  cases hm : (changes.map Change.scn).max? with
  | none => exact absurd (List.mem_map_of_mem he) (by rw [List.max?_eq_none_iff.mp hm]; exact List.not_mem_nil)
  | some m => exact (List.max?_eq_some_iff.mp hm).2 _ (List.mem_map_of_mem he)

theorem fetchedScn_lt {changes : List Change} {n : ℕ} (hpos : 0 < n) (h : ∀ e ∈ changes, e.scn < n) :
    fetchedScn changes < n := by
  unfold fetchedScn
  cases hm : (changes.map Change.scn).max? with
  | none => exact hpos
  | some m =>
    obtain ⟨e, he, rfl⟩ := List.mem_map.mp (List.max?_eq_some_iff.mp hm).1
    exact h e he

section Tick

variable {h : List TimedCommit} {inp : TickIn} {db : Db}

theorem Fetches.mem_iff (hf : Fetches h inp db) {e : Change} :
    e ∈ inp.changes ↔ (∃ c ∈ h, c.time ≤ inp.snap.asOf ∧ e ∈ c.records) ∧
      toMytMs (histFrom ((usable db.anchor inp.now).map Anchor.asOf) inp.now) ≤ e.ts := by
  rw [List.Perm.mem_iff hf, List.mem_filter, List.mem_flatMap, decide_eq_true_iff]
  simp only [List.mem_filter, decide_eq_true_iff, and_assoc]

/-- What the anchor says about the commits: it has the number of every commit that it contains and of which a later window
can show a record, and no number of a commit that it does not contain. -/
structure Caught (h : List TimedCommit) (a : Anchor) : Prop where
  contained : ∀ c ∈ h, c.time ≤ a.asOf → ∀ e ∈ c.records, toMytMs (a.asOf - 120 * 1000000) ≤ e.ts → c.scn ≤ a.scn
  ahead : ∀ c ∈ h, a.asOf < c.time → a.scn < c.scn

/-- What a regular tick leaves as the anchor: the number of the latest commit, fetched now or before. -/
theorem Regular.next (hreg : Regular h inp db) : ∃ a', (tick inp db).2.anchor = some a' ∧ a'.asOf = inp.snap.asOf ∧
    a'.scn = max (fetchedScn inp.changes) ((db.anchor.map Anchor.scn).getD 0) := by
  unfold tick
  have hback : ¬ (db.anchor.any fun a => inp.snap.asOf ≤ a.asOf) = true := by
    cases ha : db.anchor with
    | none => exact Bool.false_ne_true
    | some a =>
      have := (hreg.later a ha).1
      show ¬ decide (inp.snap.asOf ≤ a.asOf) = true
      rw [decide_eq_true_iff]
      omega
  rw [if_neg hback]
  cases ha : db.anchor with
  | none => exact ⟨_, rfl, rfl, (Nat.max_zero _).symm⟩
  | some a =>
    rw [← ha, hreg.replays a ha]
    exact ⟨_, rfl, rfl, by rw [ha]; rfl⟩

/-- The window of a tick begins no later than that of the next one. -/
theorem Regular.window (hreg : Regular h inp db) :
    toMytMs (histFrom ((usable db.anchor inp.now).map Anchor.asOf) inp.now) ≤ toMytMs (inp.snap.asOf - 120 * 1000000) := by
  have hmono : ∀ {t t' : ℤ}, t ≤ t' → toMytMs t ≤ toMytMs t' := by
    intro t t' hle
    unfold toMytMs
    omega
  apply hmono
  cases ha : db.anchor with
  | none =>
    show inp.now - (120 + 10) * 1000000 ≤ _
    have := hreg.clock
    omega
  | some a =>
    have hlater := (hreg.later a ha).1
    rw [← ha, hreg.replays a ha]
    show a.asOf - 120 * 1000000 ≤ _
    omega

/-- **A tick keeps what the anchor says about the commits.** -/
theorem caught_tick (hist : History h) (hreg : Regular h inp db) (hcaught : ∀ a ∈ db.anchor, Caught h a) :
    ∀ a' ∈ (tick inp db).2.anchor, Caught h a' := by
  obtain ⟨a', ha', hasOf, hscn⟩ := hreg.next
  intro b hb
  obtain rfl : a' = b := Option.some.inj (ha'.symm.trans hb)
  constructor
  · intro c hc hle e he hts
    have hmem : e ∈ inp.changes :=
      hreg.fetches.mem_iff.mpr ⟨⟨c, hc, hasOf ▸ hle, he⟩, hreg.window.trans (hasOf ▸ hts)⟩
    rw [hscn, ← hist.scn c hc e he]
    exact le_max_of_le_left (le_fetchedScn hmem)
  · intro c hc hlt
    rw [hscn]
    rw [hasOf] at hlt
    apply max_lt
    · apply fetchedScn_lt (hist.pos c hc)
      intro e he
      obtain ⟨⟨c', hc', hle, hmem⟩, -⟩ := hreg.fetches.mem_iff.mp he
      rw [hist.scn c' hc' e hmem]
      exact hist.scn_lt hc' hc (hle.trans_lt hlt)
    · cases ha : db.anchor with
      | none => exact hist.pos c hc
      | some a => exact (hcaught a ha).ahead c hc ((hreg.later a ha).1.trans hlt)

theorem filter_txns (scn : ℕ) (changes : List Change) (n : ℕ) : (txns scn changes).filter (fun g => g.1 = n) =
    if (changes.filter fun e => scn < e.scn).filter (fun e => e.scn = n) = [] then []
    else [(n, (changes.filter fun e => scn < e.scn).filter fun e => e.scn = n)] := by
  unfold txns
  dsimp only
  rw [List.filter_map]
  set fresh := changes.filter fun e => scn < e.scn with hfresh
  have hcount : (inOrder (fresh.map Change.scn).toFinset).filter ((fun g : ℕ × List Change => decide (g.1 = n)) ∘
      fun n => (n, fresh.filter fun c => c.scn = n)) = if n ∈ fresh.map Change.scn then [n] else [] := by
    show (inOrder (fresh.map Change.scn).toFinset).filter (fun m => m = n) = _
    rw [List.filter_eq]
    split_ifs with hn
    · rw [List.count_eq_one_of_mem (nodup_inOrder _) (mem_inOrder.mpr (List.mem_toFinset.mpr hn))]
      rfl
    · rw [List.count_eq_zero_of_not_mem fun hmem => hn (List.mem_toFinset.mp (mem_inOrder.mp hmem))]
      rfl
  have hempty : fresh.filter (fun e => e.scn = n) = [] ↔ n ∉ fresh.map Change.scn := by
    rw [List.filter_eq_nil_iff, List.mem_map]
    constructor
    · rintro hno ⟨e, he, rfl⟩
      exact hno e he (decide_eq_true rfl)
    · exact fun hno e he heq => hno ⟨e, he, of_decide_eq_true heq⟩
  rw [hcount]
  by_cases hn : n ∈ fresh.map Change.scn
  · rw [if_pos hn, if_neg (mt hempty.mp (not_not.mpr hn))]
    rfl
  · rw [if_neg hn, if_pos (hempty.mpr hn)]
    rfl

theorem Regular.appliedBy_eq (hreg : Regular h inp db) {a : Anchor} (ha : db.anchor = some a) :
    appliedBy inp db = txns a.scn inp.changes := by
  unfold appliedBy
  have hlater := (hreg.later a ha).1
  rw [hreg.replays a ha, ha, if_neg]
  show ¬ decide (inp.snap.asOf ≤ a.asOf) = true
  rw [decide_eq_true_iff]
  omega

/-- **What a tick applies of a commit**: all of it, if its snapshot is the first to see it, and nothing otherwise. -/
theorem group_of_commit (hist : History h) (hreg : Regular h inp db) {a : Anchor} (ha : db.anchor = some a)
    (hcaught : Caught h a) {c : TimedCommit} (hc : c ∈ h) (hrec : c.records ≠ []) :
    (a.asOf < c.time ∧ c.time ≤ inp.snap.asOf →
      ∃ recs, recs.Perm c.records ∧ (appliedBy inp db).filter (fun g => g.1 = c.scn) = [(c.scn, recs)]) ∧
    (¬ (a.asOf < c.time ∧ c.time ≤ inp.snap.asOf) → (appliedBy inp db).filter (fun g => g.1 = c.scn) = []) := by
  rw [hreg.appliedBy_eq ha, filter_txns]
  have hcomm : ∀ (l : List Change) (p q r : Change → Bool),
      ((l.filter p).filter q).filter r = ((l.filter r).filter p).filter q := by
    intro l p q r
    rw [List.filter_filter, List.filter_filter, List.filter_filter, List.filter_filter]
    congr 1
    funext e
    rw [Bool.and_comm (r e), Bool.and_assoc, Bool.and_comm (r e), ← Bool.and_assoc, Bool.and_assoc]
  have hperm := (hreg.fetches.filter fun e => decide (a.scn < e.scn)).filter fun e => decide (e.scn = c.scn)
  rw [hcomm, hist.records_of_scn hc] at hperm
  constructor
  · rintro ⟨hlt, hle⟩
    -- the records of a new commit are in the window, and its number is new
    have hwindow : c.records.filter (fun e =>
        toMytMs (histFrom ((usable db.anchor inp.now).map Anchor.asOf) inp.now) ≤ e.ts) = c.records := by
      apply List.filter_eq_self.mpr
      intro e he
      have hrecent := hist.recent c hc e he
      rw [hreg.replays a ha]
      show decide (toMytMs (a.asOf - 120 * 1000000) ≤ e.ts) = true
      unfold toMytMs
      apply decide_eq_true
      omega
    have hnew : c.records.filter (fun e => a.scn < e.scn) = c.records := by
      apply List.filter_eq_self.mpr
      intro e he
      rw [hist.scn c hc e he]
      exact decide_eq_true (hcaught.ahead c hc hlt)
    rw [if_pos (decide_eq_true hle), hwindow, hnew] at hperm
    refine ⟨_, hperm, if_neg fun hnil => hrec ?_⟩
    rw [hnil] at hperm
    exact hperm.nil_eq.symm
  · intro hno
    rw [if_pos]
    by_cases hseen : c.time ≤ inp.snap.asOf
    · -- the anchor contains the commit, and has its number
      rw [if_pos (decide_eq_true hseen)] at hperm
      apply List.filter_eq_nil_iff.mpr
      intro e he hscn
      have hmem := hperm.mem_iff.mp (List.mem_filter.mpr ⟨he, hscn⟩)
      obtain ⟨hmem, hnew⟩ := List.mem_filter.mp hmem
      obtain ⟨hmem, hts⟩ := List.mem_filter.mp hmem
      rw [hreg.replays a ha] at hts
      have hle := hcaught.contained c hc (by omega) e hmem (of_decide_eq_true hts)
      rw [← hist.scn c hc e hmem] at hle
      exact absurd (of_decide_eq_true hnew) (not_lt.mpr hle)
    · rw [if_neg (by simpa using hseen)] at hperm
      exact hperm.eq_nil

theorem exists_commit (hreg : Regular h inp db) (hist : History h) {g : ℕ × List Change} (hg : g ∈ appliedBy inp db) :
    ∃ c ∈ h, c.scn = g.1 ∧ c.records ≠ [] := by
  unfold appliedBy at hg
  split_ifs at hg
  · exact absurd hg List.not_mem_nil
  · split at hg
    · unfold txns at hg
      obtain ⟨n, hn, rfl⟩ := List.mem_map.mp hg
      obtain ⟨e, he, rfl⟩ := List.mem_map.mp (List.mem_toFinset.mp (mem_inOrder.mp hn))
      obtain ⟨⟨c, hc, -, hmem⟩, -⟩ := hreg.fetches.mem_iff.mp (List.mem_filter.mp he).1
      exact ⟨c, hc, (hist.scn c hc e hmem).symm, List.ne_nil_of_mem hmem⟩
    · exact absurd hg List.not_mem_nil

end Tick

/-! ## A run -/

section Run

variable {h : List TimedCommit} (hist : History h)
include hist

omit hist in
theorem anchor_of_run {ins : List TickIn} {db : Db} (hrun : Meets tick (Regular h) ins db) {a : Anchor}
    (ha : db.anchor = some a) : ∃ z, (lastOf tick ins db).anchor = some z ∧ a.asOf ≤ z.asOf := by
  induction ins generalizing db a with
  | nil => exact ⟨a, ha, le_rfl⟩
  | cons inp ins ih =>
    obtain ⟨hreg, hrest⟩ := hrun
    obtain ⟨b, hb, hasOf, -⟩ := hreg.next
    obtain ⟨z, hz, hle⟩ := ih hrest hb
    have hab := (hreg.later a ha).1
    exact ⟨z, hz, by omega⟩

/-- From an anchor on, a run applies a commit once, if the anchor does not contain it and the last one does. -/
theorem applied_from {ins : List TickIn} {db : Db} (hrun : Meets tick (Regular h) ins db) {a z : Anchor}
    (ha : db.anchor = some a) (hcaught : Caught h a) (hz : (lastOf tick ins db).anchor = some z) {c : TimedCommit}
    (hc : c ∈ h) (hrec : c.records ≠ []) :
    (a.asOf < c.time ∧ c.time ≤ z.asOf →
      ∃ recs, recs.Perm c.records ∧ (ticksApplied ins db).filter (fun g => g.1 = c.scn) = [(c.scn, recs)]) ∧
    (¬ (a.asOf < c.time ∧ c.time ≤ z.asOf) → (ticksApplied ins db).filter (fun g => g.1 = c.scn) = []) := by
  induction ins generalizing db a with
  | nil =>
    obtain rfl : a = z := Option.some.inj (ha.symm.trans hz)
    exact ⟨fun hlt => by omega, fun _ => rfl⟩
  | cons inp ins ih =>
    obtain ⟨hreg, hrest⟩ := hrun
    obtain ⟨b, hb, hasOf, -⟩ := hreg.next
    have hnext := caught_tick hist hreg (fun a' ha' => Option.some.inj (ha.symm.trans ha') ▸ hcaught) b hb
    obtain ⟨hnow, hnot⟩ := group_of_commit hist hreg ha hcaught hc hrec
    obtain ⟨hlater, hnone⟩ := ih hrest hb hnext hz
    obtain ⟨z', hz', hle⟩ := anchor_of_run hrest hb
    obtain rfl : z = z' := Option.some.inj (hz.symm.trans hz')
    have hab := (hreg.later a ha).1
    rw [hasOf] at hle hlater hnone
    constructor
    · intro hin
      rw [ticksApplied, List.filter_append]
      by_cases hfirst : c.time ≤ inp.snap.asOf
      · obtain ⟨recs, hperm, heq⟩ := hnow ⟨hin.1, hfirst⟩
        exact ⟨recs, hperm, by rw [heq, hnone (by omega), List.append_nil]⟩
      · obtain ⟨recs, hperm, heq⟩ := hlater ⟨by omega, hin.2⟩
        exact ⟨recs, hperm, by rw [heq, hnot (by omega), List.nil_append]⟩
    · intro hout
      rw [ticksApplied, List.filter_append, hnot (by omega), hnone (by omega), List.append_nil]

theorem caught_of_run {ins : List TickIn} {db : Db} (hrun : Meets tick (Regular h) ins db)
    (hcaught : ∀ a ∈ db.anchor, Caught h a) : ∀ a ∈ (lastOf tick ins db).anchor, Caught h a := by
  induction ins generalizing db with
  | nil => exact hcaught
  | cons inp ins ih => exact ih hrun.2 (caught_tick hist hrun.1 hcaught)

theorem applied_by_tick {inp : TickIn} {db : Db} (hreg : Regular h inp db) {a : Anchor} (ha : db.anchor = some a)
    (hcaught : Caught h a) : ∀ g ∈ appliedBy inp db,
      ∃ c ∈ h, c.scn = g.1 ∧ g.2.Perm c.records ∧ a.asOf < c.time ∧ c.time ≤ inp.snap.asOf := by
  intro g hg
  obtain ⟨c, hc, hscn, hrec⟩ := exists_commit hreg hist hg
  obtain ⟨hnow, hnot⟩ := group_of_commit hist hreg ha hcaught hc hrec
  have hmem : g ∈ (appliedBy inp db).filter fun g => g.1 = c.scn :=
    List.mem_filter.mpr ⟨hg, decide_eq_true hscn.symm⟩
  by_cases hin : a.asOf < c.time ∧ c.time ≤ inp.snap.asOf
  · obtain ⟨recs, hperm, heq⟩ := hnow hin
    rw [heq] at hmem
    obtain rfl := List.mem_singleton.mp hmem
    exact ⟨c, hc, rfl, hperm, hin⟩
  · rw [hnot hin] at hmem
    exact absurd hmem List.not_mem_nil

omit hist in
theorem caught_empty : ∀ a ∈ emptyDb.anchor, Caught h a := fun _ ha => absurd ha (by simp [emptyDb])

/-- **In a run of regular ticks every commit is applied exactly once.** Over the whole run, a commit after the first
snapshot and up to the last one is applied in one step with all of its records, and any other commit is not applied. Each
tick applies only commits that its anchor does not contain and its snapshot does, and the number of the anchor never
decreases. -/
theorem applied_once {ins : List TickIn} (hrun : Meets tick (Regular h) ins emptyDb) :
    (∀ first ∈ ins.head?, ∃ z, (lastOf tick ins emptyDb).anchor = some z ∧ ∀ c ∈ h, c.records ≠ [] →
      (first.snap.asOf < c.time ∧ c.time ≤ z.asOf → ∃ recs, recs.Perm c.records ∧
        (ticksApplied ins emptyDb).filter (fun g => g.1 = c.scn) = [(c.scn, recs)]) ∧
      (¬ (first.snap.asOf < c.time ∧ c.time ≤ z.asOf) →
        (ticksApplied ins emptyDb).filter (fun g => g.1 = c.scn) = [])) ∧
    ∀ pre inp post, ins = pre ++ inp :: post → ∀ a, (lastOf tick pre emptyDb).anchor = some a →
      (appliedBy inp (lastOf tick pre emptyDb)).map (fun g => sortChanges g.2) =
        ((replaySteps a inp.changes inp.snap).map Step.op).filterMap Op.commit? ∧
      (∀ g ∈ appliedBy inp (lastOf tick pre emptyDb),
        ∃ c ∈ h, c.scn = g.1 ∧ g.2.Perm c.records ∧ a.asOf < c.time ∧ c.time ≤ inp.snap.asOf) ∧
      ∃ a', (tick inp (lastOf tick pre emptyDb)).2.anchor = some a' ∧ a'.asOf = inp.snap.asOf ∧ a.scn ≤ a'.scn := by
  constructor
  · intro first hfirst
    cases ins with
    | nil => exact absurd hfirst (by simp)
    | cons inp ins =>
      obtain rfl : inp = first := Option.some.inj hfirst
      obtain ⟨hreg, hrest⟩ := hrun
      obtain ⟨a, ha, hasOf, -⟩ := hreg.next
      obtain ⟨z, hz, -⟩ := anchor_of_run hrest ha
      refine ⟨z, hz, fun c hc hrec => ?_⟩
      have honce := applied_from hist hrest ha (caught_tick hist hreg caught_empty a ha) hz hc hrec
      rw [hasOf] at honce
      exact honce
  · rintro pre inp post rfl a ha
    obtain ⟨hpre, hreg, -⟩ := meets_append.mp hrun
    obtain ⟨a', ha', hasOf, hscn⟩ := hreg.next
    refine ⟨?_, applied_by_tick hist hreg ha (caught_of_run hist hpre caught_empty a ha), a', ha', hasOf, ?_⟩
    · rw [replaySteps_commit, hreg.appliedBy_eq ha]
    · rw [hscn, ha]
      exact le_max_right _ _

end Run

/-! ## A commit in two windows -/

def lateCommit : TimedCommit := ⟨⟨11, [releaseChange]⟩, 60000000⟩

/-- A tick at `asOf` that fetches the record of the commit, or nothing. -/
def onceTick (asOf : ℤ) (seen : Bool) : TickIn :=
  ⟨asOf, ⟨asOf, releaseSnap.state, ∅, ∅⟩, if seen then [releaseChange] else []⟩

theorem lateHistory : History [lateCommit] where
  order := List.pairwise_singleton _ _
  pos := by decide
  scn := by decide
  recent := by decide

theorem regular_onceTick {asOf : ℤ} {seen : Bool} {db : Db}
    (hfetch : (onceTick asOf seen).changes.Perm ((([lateCommit].filter fun c => c.time ≤ asOf).flatMap fun c => c.records).filter
      fun e => toMytMs (histFrom ((usable db.anchor asOf).map Anchor.asOf) asOf) ≤ e.ts))
    (hanchor : ∀ a ∈ db.anchor, a.asOf < asOf ∧ asOf ≤ a.asOf + 900 * 1000000) : Regular [lateCommit] (onceTick asOf seen) db where
  fetches := hfetch
  later := hanchor
  replays := by
    intro a ha
    obtain ⟨hlt, hle⟩ := hanchor a ha
    have hdiv : (asOf - a.asOf).tdiv 1000000 ≤ MAX_REPLAY_S := by
      unfold MAX_REPLAY_S
      rw [Int.tdiv_eq_ediv_of_nonneg (by omega)]
      omega
    exact Option.filter_eq_some_iff.mpr ⟨ha, decide_eq_true hdiv⟩
  clock := by
    show asOf ≤ asOf + 10 * 1000000
    omega

/-- The windows of the second and of the third tick both show the record; the second one applies it. -/
theorem applied_once_late :
    (ticksApplied [onceTick 50000000 false, onceTick 100000000 true, onceTick 110000000 true] emptyDb).filter
      (fun g => g.1 = lateCommit.scn) = [(11, [releaseChange])] := by
  have hrun : Meets tick (Regular [lateCommit])
      [onceTick 50000000 false, onceTick 100000000 true, onceTick 110000000 true] emptyDb :=
    ⟨regular_onceTick (by decide) (by decide), regular_onceTick (by decide +kernel) (by decide +kernel),
      regular_onceTick (by decide +kernel) (by decide +kernel), trivial⟩
  obtain ⟨z, hz, honce⟩ := (applied_once lateHistory hrun).1 _ rfl
  have hzAsOf : z.asOf = 110000000 := by
    obtain rfl := Option.some.inj hz
    rfl
  obtain ⟨recs, hperm, heq⟩ := (honce lateCommit (List.mem_singleton_self _) (by decide)).1
    ⟨by decide, by rw [hzAsOf]; decide⟩
  rw [heq, List.perm_singleton.mp hperm]
  rfl

end TtAiops.TosAvail
