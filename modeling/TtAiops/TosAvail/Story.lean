import TtAiops.TosAvail.Tick

/-!
# The interval table tells one story per truck

* `Interval.Covers`, `Apart`, `Story` : the instants of an interval, intervals of one truck that share none, and what the
  tables say after a tick;
* `Holds`, `writeTransition_holds`, `writeAll_holds` : the intervals next to a list of trucks, and that an edit script of
  rising times is written without a skip;
* `replay_rowOrdered` : a replay moves no truck twice at one time;
* `Sound`, `tick_sound` : what every tick keeps that does not start anew before times that the table holds;
* `story_of_later_restarts` : **in every run in which each restart is later than the whole table, the story holds.**
-/

namespace TtAiops.TosAvail
open TtAiops.Lib

/-- The instant lies in the interval (`span @> t`). -/
def Interval.Covers (r : Interval) (t : ℤ) : Prop := r.enterTs ≤ t ∧ ∀ x ∈ r.exitTs, t < x

/-- Intervals of one truck share no instant; intervals of length zero have none. -/
def Apart (tbl : List Interval) : Prop :=
  tbl.Pairwise fun r r' => r.ytno = r'.ytno → ∀ t, ¬ (r.Covers t ∧ r'.Covers t)

/-- What the tables say after a tick. -/
structure Story (db : Db) : Prop where
  opens : ∀ a ∈ db.anchor, ∀ y, y ∈ a.state.freeSet ↔ ∃ r ∈ db.intervals, r.ytno = y ∧ r.isOpen = true
  one : db.intervals.Pairwise fun r r' => r.ytno = r'.ytno → ¬ (r.isOpen = true ∧ r'.isOpen = true)
  apart : Apart db.intervals

theorem isOpen_iff {r : Interval} : r.isOpen = true ↔ r.exitTs = none := by
  unfold Interval.isOpen
  exact decide_eq_true_iff

theorem Apart.one {tbl : List Interval} (h : Apart tbl) :
    tbl.Pairwise fun r r' => r.ytno = r'.ytno → ¬ (r.isOpen = true ∧ r'.isOpen = true) := by
  apply h.imp
  rintro r r' hapart hytno ⟨hr, hr'⟩
  apply hapart hytno (max r.enterTs r'.enterTs)
  constructor
  · refine ⟨le_max_left _ _, fun x hx => ?_⟩
    rw [isOpen_iff.mp hr] at hx
    exact absurd hx (by simp)
  · refine ⟨le_max_right _ _, fun x hx => ?_⟩
    rw [isOpen_iff.mp hr'] at hx
    exact absurd hx (by simp)

theorem Apart.map {tbl : List Interval} (h : Apart tbl) {f : Interval → Interval} (hytno : ∀ r, (f r).ytno = r.ytno)
    (hcovers : ∀ r t, (f r).Covers t → r.Covers t) : Apart (tbl.map f) := by
  unfold Apart
  rw [List.pairwise_map]
  apply h.imp
  intro r r' hapart hsame t ht
  rw [hytno, hytno] at hsame
  exact hapart hsame t ⟨hcovers r t ht.1, hcovers r' t ht.2⟩

theorem covers_of_cut {r r' : Interval} {s t : ℤ} (h : r'.Covers s) (henter : r'.enterTs = r.enterTs)
    (hexit : r'.exitTs = some (max r.enterTs t)) (hbefore : ∀ x ∈ r.exitTs, t ≤ x) : r.Covers s := by
  obtain ⟨hs, hx⟩ := h
  rw [henter] at hs
  refine ⟨hs, fun x hmem => ?_⟩
  have hlt : s < max r.enterTs t := hx _ hexit
  have hle := hbefore x hmem
  omega

/-! ## Writing transitions -/

/-- The intervals next to the list `free`: the trucks of the list have the open intervals, and `next y` is later than every
start and not before any end of an interval of `y`. -/
structure Holds (tbl : List Interval) (free : Finset String) (next : String → ℤ) : Prop where
  opens : ∀ y, y ∈ free ↔ ∃ r ∈ tbl, r.ytno = y ∧ r.isOpen = true
  apart : Apart tbl
  bound : ∀ r ∈ tbl, r.enterTs < next r.ytno ∧ ∀ x ∈ r.exitTs, x ≤ next r.ytno

theorem Holds.mono {tbl : List Interval} {free : Finset String} {next next' : String → ℤ} (h : Holds tbl free next)
    (hle : ∀ y, next y ≤ next' y) : Holds tbl free next' where
  opens := h.opens
  apart := h.apart
  bound := fun r hr => ⟨(h.bound r hr).1.trans_le (hle _), fun x hx => ((h.bound r hr).2 x hx).trans (hle _)⟩

section Write

variable {tbl : List Interval} {free : Finset String} {next : String → ℤ} {snap : Snapshot} {t : Transition}

theorem closes_iff {r : Interval} : closes t r = true ↔ r.ytno = t.ytno ∧ r.isOpen = true := by
  unfold closes
  rw [decide_eq_true_iff]

/-- Nothing forbids the new row of a truck that is not on the list. -/
theorem Holds.no_conflict (h : Holds tbl free next) (hout : t.ytno ∉ free) (hnext : next t.ytno ≤ t.ts) :
    tbl.any (conflicts t) = false := by
  rw [List.any_eq_false]
  intro r hr hconf
  unfold conflicts at hconf
  obtain ⟨hytno, hkey | hopen⟩ := of_decide_eq_true hconf
  · have hlt := (h.bound r hr).1
    rw [hytno, hkey] at hlt
    omega
  · exact hout ((h.opens _).mpr ⟨r, hr, hytno, hopen⟩)

theorem Holds.enter (h : Holds tbl free next) (hout : t.ytno ∉ free) (hnext : next t.ytno ≤ t.ts) :
    Holds (tbl ++ [openInterval snap t]) (insert t.ytno free) (Function.update next t.ytno (t.ts + 1)) where
  opens := by
    intro y
    rw [Finset.mem_insert, h.opens]
    constructor
    · rintro (rfl | ⟨r, hr, hytno⟩)
      · exact ⟨openInterval snap t, by simp, rfl, rfl⟩
      · exact ⟨r, List.mem_append_left _ hr, hytno⟩
    · rintro ⟨r, hr, hytno, hopen⟩
      rcases List.mem_append.mp hr with hr | hr
      · exact Or.inr ⟨r, hr, hytno, hopen⟩
      · rw [List.mem_singleton.mp hr] at hytno
        exact Or.inl hytno.symm
  apart := by
    unfold Apart
    rw [List.pairwise_append]
    refine ⟨h.apart, List.pairwise_singleton _ _, fun r hr r' hr' hytno s hs => ?_⟩
    rw [List.mem_singleton.mp hr'] at hytno hs
    obtain ⟨⟨hle, hx⟩, ⟨hts, -⟩⟩ := hs
    have hts' : t.ts ≤ s := hts
    have hy : r.ytno = t.ytno := hytno
    -- the interval of the same truck is closed, and it ended before
    cases hexit : r.exitTs with
    | none => exact hout ((h.opens _).mpr ⟨r, hr, hy, isOpen_iff.mpr hexit⟩)
    | some x =>
      have hxs := hx x hexit
      have hb := (h.bound r hr).2 x hexit
      rw [hy] at hb
      omega
  bound := by
    intro r hr
    rcases List.mem_append.mp hr with hr | hr
    · have hb := h.bound r hr
      rw [Function.update_apply]
      split_ifs with hy
      · rw [hy] at hb
        exact ⟨by omega, fun x hx => by have := hb.2 x hx; omega⟩
      · exact hb
    · rw [List.mem_singleton.mp hr]
      show t.ts < Function.update next t.ytno (t.ts + 1) t.ytno ∧ ∀ x ∈ (none : Option ℤ), _
      rw [Function.update_self]
      exact ⟨lt_add_one t.ts, fun x hx => absurd hx (by simp)⟩

theorem Holds.countP_closes (h : Holds tbl free next) (hin : t.ytno ∈ free) : tbl.countP (closes t) = 1 := by
  obtain ⟨r, hr, hytno, hopen⟩ := (h.opens _).mp hin
  have hmem : r ∈ tbl.filter (closes t) := List.mem_filter.mpr ⟨hr, closes_iff.mpr ⟨hytno, hopen⟩⟩
  have hpair := (h.apart.one).filter (closes t)
  rw [List.countP_eq_length_filter]
  match hf : tbl.filter (closes t) with
  | [] => rw [hf] at hmem; exact absurd hmem List.not_mem_nil
  | [_] => rfl
  | a :: b :: l =>
    rw [hf] at hpair
    have ha : closes t a = true := (List.mem_filter.mp (show a ∈ tbl.filter (closes t) by rw [hf]; simp)).2
    have hb : closes t b = true := (List.mem_filter.mp (show b ∈ tbl.filter (closes t) by rw [hf]; simp)).2
    have hab := (List.pairwise_cons.mp hpair).1 b List.mem_cons_self
    rw [closes_iff] at ha hb
    exact absurd ⟨ha.2, hb.2⟩ (hab (ha.1.trans hb.1.symm))

/-- The row after the exit of `t`. -/
def exitRow (t : Transition) (r : Interval) : Interval := if closes t r then closeInterval t r else r

theorem exitRow_ytno (r : Interval) : (exitRow t r).ytno = r.ytno := by
  unfold exitRow
  split_ifs <;> rfl

theorem exitRow_enterTs (r : Interval) : (exitRow t r).enterTs = r.enterTs := by
  unfold exitRow
  split_ifs <;> rfl

theorem exitRow_isOpen (r : Interval) : (exitRow t r).isOpen = true ↔ r.isOpen = true ∧ r.ytno ≠ t.ytno := by
  unfold exitRow
  split_ifs with hc
  · have hfalse : (closeInterval t r).isOpen = false := rfl
    rw [hfalse]
    have := (closes_iff.mp hc).1
    simp [this]
  · rw [closes_iff] at hc
    constructor
    · exact fun hopen => ⟨hopen, fun hy => hc ⟨hy, hopen⟩⟩
    · exact And.left

theorem Holds.exit (h : Holds tbl free next) (hnext : next t.ytno ≤ t.ts) :
    Holds (tbl.map (exitRow t)) (free.erase t.ytno) (Function.update next t.ytno (t.ts + 1)) where
  opens := by
    intro y
    rw [Finset.mem_erase, h.opens]
    constructor
    · rintro ⟨hne, r, hr, hytno, hopen⟩
      exact ⟨exitRow t r, List.mem_map_of_mem hr, (exitRow_ytno r).trans hytno,
        (exitRow_isOpen r).mpr ⟨hopen, fun hy => hne (hytno.symm.trans hy)⟩⟩
    · rintro ⟨r', hr', hytno, hopen⟩
      obtain ⟨r, hr, rfl⟩ := List.mem_map.mp hr'
      rw [exitRow_ytno] at hytno
      obtain ⟨hopen, hne⟩ := (exitRow_isOpen r).mp hopen
      exact ⟨fun hy => hne (hytno.trans hy), r, hr, hytno, hopen⟩
  apart := by
    apply h.apart.map exitRow_ytno
    intro r s hs
    unfold exitRow at hs
    split_ifs at hs with hc
    · refine covers_of_cut hs rfl rfl ?_
      rw [isOpen_iff.mp (closes_iff.mp hc).2]
      exact fun x hx => absurd hx (by simp)
    · exact hs
  bound := by
    intro r' hr'
    obtain ⟨r, hr, rfl⟩ := List.mem_map.mp hr'
    have hb := h.bound r hr
    rw [exitRow_ytno, exitRow_enterTs, Function.update_apply]
    unfold exitRow
    split_ifs with hy hc hc
    · rw [hy] at hb
      refine ⟨by omega, fun x hx => ?_⟩
      have hx' : max r.enterTs t.ts = x := Option.some.inj hx
      omega
    · rw [hy] at hb
      exact ⟨by omega, fun x hx => by have := hb.2 x hx; omega⟩
    · exact absurd (closes_iff.mp hc).1 hy
    · exact hb

variable (snap) in
/-- **An edit that the list allows is written, and the intervals stay next to the list.** -/
theorem writeTransition_holds (h : Holds tbl free next) {free' : Finset String}
    (hedit : applyEdit free t.edit = some free') (hnext : next t.ytno ≤ t.ts) :
    (writeTransition snap t tbl).1 = true ∧
      Holds (writeTransition snap t tbl).2 free' (Function.update next t.ytno (t.ts + 1)) := by
  unfold writeTransition
  unfold applyEdit Transition.edit at hedit
  dsimp only at hedit
  cases henter : t.enter with
  | true =>
    rw [henter, if_pos rfl] at hedit
    split_ifs at hedit with hmem
    obtain rfl := Option.some.inj hedit
    rw [if_pos rfl, h.no_conflict hmem hnext]
    exact ⟨rfl, h.enter hmem hnext⟩
  | false =>
    rw [henter, if_neg Bool.false_ne_true] at hedit
    split_ifs at hedit with hmem
    obtain rfl := Option.some.inj hedit
    rw [if_neg Bool.false_ne_true]
    exact ⟨decide_eq_true (h.countP_closes hmem), h.exit hnext⟩

variable (snap) in
/-- **An edit script in which the times of each truck rise is written without a skip.** -/
theorem writeAll_holds {ts : List Transition} (h : Holds tbl free next)
    (hord : RowOrdered Transition.ytno Transition.ts ts) {free' : Finset String}
    (hedits : applyEdits (ts.map Transition.edit) free = some free') (hnext : ∀ t ∈ ts, next t.ytno ≤ t.ts) {last : ℤ}
    (hlast : ∀ t ∈ ts, t.ts < last) (hle : ∀ y, next y ≤ last) :
    (writeAll snap ts tbl).1 = 0 ∧ Holds (writeAll snap ts tbl).2 free' fun _ => last := by
  induction ts generalizing tbl free next with
  | nil =>
    obtain rfl := Option.some.inj hedits
    exact ⟨rfl, h.mono hle⟩
  | cons t ts ih =>
    obtain ⟨hfirst, hrest⟩ := List.pairwise_cons.mp hord
    obtain ⟨mid, hmid, hedits⟩ := Option.bind_eq_some_iff.mp
      (show (applyEdit free t.edit).bind (applyEdits (ts.map Transition.edit)) = some free' from hedits)
    obtain ⟨hok, hholds⟩ := writeTransition_holds snap h hmid (hnext t List.mem_cons_self)
    have hlt := hlast t List.mem_cons_self
    have hnext' : ∀ t' ∈ ts, Function.update next t.ytno (t.ts + 1) t'.ytno ≤ t'.ts := by
      intro t' ht'
      rw [Function.update_apply]
      split_ifs with hy
      · exact hfirst t' ht' hy.symm
      · exact hnext t' (List.mem_cons_of_mem _ ht')
    have hle' : ∀ y, Function.update next t.ytno (t.ts + 1) y ≤ last := by
      intro y
      rw [Function.update_apply]
      split_ifs
      · exact hlt
      · exact hle y
    obtain ⟨hzero, hdone⟩ := ih hholds hrest hedits hnext' (fun t' ht' => hlast t' (List.mem_cons_of_mem _ ht')) hle'
    refine ⟨?_, hdone⟩
    rw [writeAll]
    dsimp only
    rw [hok, if_pos rfl]
    exact hzero

end Write

/-! ## The transitions of a tick -/

theorem nodup_diffEdits (before after : Finset String) : ((diffEdits before after).map Prod.fst).Nodup := by
  unfold diffEdits
  rw [List.map_append, List.map_map, List.map_map]
  show (((inOrder (after \ before)).map id) ++ (inOrder (before \ after)).map id).Nodup
  rw [List.map_id, List.map_id]
  refine List.Nodup.append (nodup_inOrder _) (nodup_inOrder _) ?_
  intro y hy hy'
  rw [mem_inOrder, Finset.mem_sdiff] at hy hy'
  exact hy.2 hy'.1

theorem rowOrdered_of_nodup {ts : List Transition} (h : (ts.map Transition.ytno).Nodup) :
    RowOrdered Transition.ytno Transition.ts ts :=
  (List.pairwise_map.mp h).imp fun hne heq => absurd heq hne

theorem nodup_of_edits {ts : List Transition} {before after : Finset String}
    (h : ts.map Transition.edit = diffEdits before after) : (ts.map Transition.ytno).Nodup := by
  have hfst : ts.map Transition.ytno = (ts.map Transition.edit).map Prod.fst := by
    rw [List.map_map]
    rfl
  rw [hfst, h]
  exact nodup_diffEdits before after

/-- **A replay moves no truck twice at one time.** -/
theorem replay_rowOrdered (anchor : Anchor) (changes : List Change) (snap : Snapshot) :
    RowOrdered Transition.ytno Transition.ts (replay anchor changes snap).transitions := by
  rw [← flatten_replayOuts]
  unfold RowOrdered
  rw [List.pairwise_flatten]
  refine ⟨fun out hout => ?_, ?_⟩
  · rcases List.mem_append.mp hout with hout | hout
    · obtain ⟨s, hs, rfl⟩ := List.mem_map.mp hout
      exact rowOrdered_of_nodup (nodup_of_edits (runOps_spec (tracks_start anchor) s hs).2.1.edits)
    · rw [List.mem_singleton.mp hout]
      exact rowOrdered_of_nodup (nodup_of_edits (reconcile_edits snap _))
  · exact (replay_timed anchor changes snap).pairwise.imp fun h t ht t' ht' _ => h t ht t' ht'

theorem edits_initTransitions (snap : Snapshot) :
    applyEdits ((initTransitions snap).map Transition.edit) ∅ = some snap.state.freeSet := by
  unfold initTransitions
  rw [List.map_map]
  show applyEdits ((inOrder snap.state.freeSet).map (·, true)) ∅ = _
  rw [applyEdits_enter (nodup_inOrder _) fun y _ => Finset.notMem_empty y, Finset.empty_union]
  congr 1
  ext y
  rw [List.mem_toFinset, mem_inOrder]

theorem initTransitions_rowOrdered (snap : Snapshot) :
    RowOrdered Transition.ytno Transition.ts (initTransitions snap) := by
  apply rowOrdered_of_nodup
  unfold initTransitions
  rw [List.map_map]
  show ((inOrder snap.state.freeSet).map id).Nodup
  rw [List.map_id]
  exact nodup_inOrder _

theorem ts_of_mem_initTransitions {snap : Snapshot} {t : Transition} (h : t ∈ initTransitions snap) :
    t.ts = snap.asOf := by
  obtain ⟨y, -, rfl⟩ := List.mem_map.mp h
  rfl

/-! ## The tick -/

/-- The tick starts anew: the clock of Oracle has not gone back, and there is no usable anchor. -/
def Restarts (inp : TickIn) (db : Db) : Prop :=
  (∀ a ∈ db.anchor, a.asOf < inp.snap.asOf) ∧ usable db.anchor inp.now = none

/-- A restart is later than every time in the table. -/
def LaterRestart (inp : TickIn) (db : Db) : Prop :=
  Restarts inp db → ∀ r ∈ db.intervals, r.enterTs < inp.snap.asOf ∧ ∀ x ∈ r.exitTs, x ≤ inp.snap.asOf

/-- What every tick keeps. -/
def Sound (db : Db) : Prop :=
  match db.anchor with
  | some a => Holds db.intervals a.state.freeSet fun _ => max a.asOf a.lastTs + 1
  | none => Apart db.intervals ∧ ∀ r ∈ db.intervals, r.isOpen = false

theorem Sound.apart {db : Db} (h : Sound db) : Apart db.intervals := by
  unfold Sound at h
  split at h
  · exact h.apart
  · exact h.1

theorem Sound.story {db : Db} (h : Sound db) : Story db where
  opens := by
    intro a ha y
    unfold Sound at h
    rw [show db.anchor = some a from ha] at h
    exact h.opens y
  one := h.apart.one
  apart := h.apart

theorem backTick_sound {snap : Snapshot} {db : Db} (h : Sound db) : Sound (backTick snap db).2 := by
  show Apart (db.intervals.map (cutInterval snap.asOf)) ∧
    ∀ r ∈ db.intervals.map (cutInterval snap.asOf), r.isOpen = false
  constructor
  · apply h.apart.map
    · intro r
      unfold cutInterval
      split_ifs <;> rfl
    · intro r t ht
      unfold cutInterval at ht
      split_ifs at ht with hc
      · refine covers_of_cut ht rfl rfl fun x hx => ?_
        rw [show r.exitTs = some x from hx] at hc
        exact (of_decide_eq_true hc).le
      · exact ht
  · intro r' hr'
    obtain ⟨r, -, rfl⟩ := List.mem_map.mp hr'
    unfold cutInterval
    split_ifs with hc
    · rfl
    · unfold Interval.isOpen
      cases hx : r.exitTs with
      | none => rw [hx] at hc; exact absurd rfl hc
      | some x => rfl

theorem replayTick_sound {anchor : Anchor} {inp : TickIn} {db : Db} (h : Sound db) (ha : db.anchor = some anchor) :
    (replayTick anchor inp db).1.nDesync = 0 ∧ Sound (replayTick anchor inp db).2 := by
  have hholds : Holds db.intervals anchor.state.freeSet fun _ => max anchor.asOf anchor.lastTs + 1 := by
    unfold Sound at h
    rw [ha] at h
    exact h
  have htimed := (replay_timed anchor inp.changes inp.snap).bounds
  have hbounds : ∀ t ∈ (replay anchor inp.changes inp.snap).transitions,
      max anchor.asOf anchor.lastTs < t.ts ∧ t.ts ≤ (replay anchor inp.changes inp.snap).lastTs := by
    intro t ht
    rw [← flatten_replayOuts] at ht
    obtain ⟨out, hout, hmem⟩ := List.mem_flatten.mp ht
    exact htimed.2 out hout t hmem
  have hlast := htimed.1
  obtain ⟨hzero, hdone⟩ := writeAll_holds inp.snap hholds (replay_rowOrdered anchor inp.changes inp.snap)
    (replay_edits anchor inp.changes inp.snap) (fun t ht => (hbounds t ht).1)
    (fun t ht => Int.lt_add_one_iff.mpr (hbounds t ht).2)
    (fun _ => by omega)
  refine ⟨hzero, hdone.mono fun _ => ?_⟩
  show _ ≤ max inp.snap.asOf (replay anchor inp.changes inp.snap).lastTs + 1
  omega

theorem freshTick_sound {inp : TickIn} {db : Db} (h : Sound db) (hback : ∀ a ∈ db.anchor, a.asOf < inp.snap.asOf)
    (hlater : ∀ r ∈ db.intervals, r.enterTs < inp.snap.asOf ∧ ∀ x ∈ r.exitTs, x ≤ inp.snap.asOf) :
    (freshTick inp db).1.nDesync = 0 ∧ Sound (freshTick inp db).2 := by
  set known := (db.anchor.map Anchor.asOf).or db.checks.max? with hknown
  -- the open intervals are there only with an anchor, which is before the snapshot
  have hclosed : ∀ r ∈ db.intervals, r.isOpen = true → ∀ x ∈ known, x < inp.snap.asOf := by
    intro r hr hopen x hx
    unfold Sound at h
    cases ha : db.anchor with
    | none =>
      rw [ha] at h
      exact absurd hopen (by rw [h.2 r hr]; exact Bool.false_ne_true)
    | some a =>
      rw [hknown, ha] at hx
      rw [← show a.asOf = x from Option.some.inj hx]
      exact hback a ha
  have hholds : Holds (db.intervals.map (gapInterval known)) ∅ fun _ => inp.snap.asOf := by
    refine ⟨fun y => ⟨fun hy => absurd hy (Finset.notMem_empty y), ?_⟩, ?_, ?_⟩
    · rintro ⟨r', hr', -, hopen⟩
      obtain ⟨r, -, rfl⟩ := List.mem_map.mp hr'
      unfold gapInterval at hopen
      split_ifs at hopen with hr
      · exact absurd hopen Bool.false_ne_true
      · exact absurd hopen hr
    · apply h.apart.map
      · intro r
        unfold gapInterval
        split_ifs <;> rfl
      · intro r t ht
        unfold gapInterval at ht
        split_ifs at ht with hr
        · refine covers_of_cut ht rfl rfl ?_
          rw [isOpen_iff.mp hr]
          exact fun x hx => absurd hx (by simp)
        · exact ht
    · intro r' hr'
      obtain ⟨r, hr, rfl⟩ := List.mem_map.mp hr'
      obtain ⟨henter, hexit⟩ := hlater r hr
      unfold gapInterval
      split_ifs with hopen
      · refine ⟨henter, fun x hx => ?_⟩
        rw [← show max r.enterTs (known.getD r.enterTs) = x from Option.some.inj hx]
        apply max_le henter.le
        cases hk : known with
        | none => exact henter.le
        | some k => exact (hclosed r hr hopen k hk).le
      · exact ⟨henter, hexit⟩
  obtain ⟨hzero, hdone⟩ := writeAll_holds inp.snap hholds (initTransitions_rowOrdered inp.snap)
    (edits_initTransitions inp.snap) (fun t ht => (ts_of_mem_initTransitions ht).ge)
    (fun t ht => (ts_of_mem_initTransitions ht).trans_lt (lt_add_one inp.snap.asOf)) (fun _ => by omega)
  refine ⟨hzero, hdone.mono fun _ => ?_⟩
  show _ ≤ max inp.snap.asOf inp.snap.asOf + 1
  omega

/-- **A tick keeps the tables sound and skips nothing**, if it does not start anew before times that the table holds. -/
theorem tick_sound {inp : TickIn} {db : Db} (h : Sound db) (hlater : LaterRestart inp db) :
    Sound (tick inp db).2 ∧ (tick inp db).1.nDesync = 0 ∧ Story (tick inp db).2 := by
  have key : (tick inp db).1.nDesync = 0 ∧ Sound (tick inp db).2 := by
    unfold tick
    split_ifs with hback
    · exact ⟨rfl, backTick_sound h⟩
    · have hafter : ∀ a ∈ db.anchor, a.asOf < inp.snap.asOf := by
        intro a ha
        by_contra hle
        rw [show db.anchor = some a from ha] at hback
        exact hback (decide_eq_true (not_lt.mp hle))
      cases hu : usable db.anchor inp.now with
      | some anchor => exact replayTick_sound h (Option.filter_eq_some_iff.mp hu).1
      | none => exact freshTick_sound h hafter (hlater ⟨hafter, hu⟩)
  exact ⟨key.2, key.1, key.2.story⟩

theorem sound_empty : Sound emptyDb := ⟨List.Pairwise.nil, fun _ hr => absurd hr List.not_mem_nil⟩

/-- **In every run from empty tables in which each restart is later than the whole table, the story holds after every
tick, and no write is skipped or closes nothing.** -/
theorem story_of_later_restarts (inputs : List TickIn) (h : Meets tick LaterRestart inputs emptyDb) :
    ∀ x ∈ runInputs tick inputs emptyDb, x.1.nDesync = 0 ∧ Story x.2 := by
  have hrun := runInputs_inv (P := Sound) (Q := fun o db => o.nDesync = 0 ∧ Story db)
    (fun _ _ hs hok => tick_sound hs hok) sound_empty h
  exact fun x hx => (hrun x hx).2

/-! ## A clock that goes back -/

instance (r : Interval) (t : ℤ) : Decidable (r.Covers t) := inferInstanceAs (Decidable (_ ∧ _))

theorem Apart.nodup_at {tbl : List Interval} (h : Apart tbl) (t : ℤ) :
    ((tbl.filter fun r => r.Covers t).map Interval.ytno).Nodup := by
  apply List.pairwise_map.mpr
  apply List.pairwise_filter.mpr
  apply h.imp
  intro r r' hapart hr hr' hytno
  exact hapart hytno t ⟨of_decide_eq_true hr, of_decide_eq_true hr'⟩

def oneTruck : State := ⟨∅, Finmap.singleton "TT1" ⟨"O", none⟩, ∅⟩

/-- `TT1` is on the list all the time. -/
def quietTick (asOf : ℤ) : TickIn := ⟨asOf, ⟨asOf, oneTruck, ∅, ∅⟩, []⟩

/-- The clock is back at 50 and then at 30, before the list is read anew; the interval that the first of these cuts to
end at 50 overlaps the new one. And where it stands at 40, the new interval has the key of the one that was cut. -/
theorem story_broken :
    (¬ ∀ x ∈ runInputs tick [quietTick 40, quietTick 60, quietTick 50, quietTick 30] emptyDb, Story x.2) ∧
    ¬ ∀ x ∈ runInputs tick [quietTick 40, quietTick 40, quietTick 40] emptyDb, x.1.nDesync = 0 := by
  refine ⟨fun h => ?_, by decide +kernel⟩
  have hat : ∀ x ∈ runInputs tick [quietTick 40, quietTick 60, quietTick 50, quietTick 30] emptyDb,
      ((x.2.intervals.filter fun r => r.Covers 45).map Interval.ytno).Nodup := fun x hx => (h x hx).apart.nodup_at 45
  revert hat
  decide +kernel

/-- The clock goes back once, and the list is read anew later than all that the table holds. -/
theorem story_of_later_restarts_back :
    Meets tick LaterRestart [quietTick 40, quietTick 60, quietTick 50, quietTick 70] emptyDb ∧
      ∀ x ∈ runInputs tick [quietTick 40, quietTick 60, quietTick 50, quietTick 70] emptyDb,
        x.1.nDesync = 0 ∧ Story x.2 := by
  have hmeets : Meets tick LaterRestart [quietTick 40, quietTick 60, quietTick 50, quietTick 70] emptyDb :=
    ⟨fun _ => by decide +kernel, fun _ => by decide +kernel, fun _ => by decide +kernel, fun _ => by decide +kernel,
      trivial⟩
  exact ⟨hmeets, story_of_later_restarts _ hmeets⟩

end TtAiops.TosAvail
