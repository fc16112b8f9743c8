import TtAiops.TosAvail.Script

/-!
# The replay of a complete log

* `rowsAfter`, `CompleteLog` : the rows of the work orders after all commits, and a log that says everything that
  happened between the anchor and the snapshot;
* `applyTxn_rows`, `foldl_rows`, `foldl_isOn` : replayed, the rows are the log played over the rows of the anchor, and the
  logins are the logons played over those of the anchor;
* `groups_sorted` : the records in the order of the replay are a sorted copy of the log;
* `replay_complete` : **the replay of a complete log ends in the list of the snapshot**, whatever the statement times.
-/

namespace TtAiops.TosAvail
open TtAiops.Lib

/-- What the row held after the change. -/
def Change.post (e : Change) : Option JobRow := if e.ty = 'D' then none else some ⟨e.ytno, e.ys⟩

/-- A row that the snapshot returns: it has a truck and a busy status. -/
def JobRow.isBusy (r : JobRow) : Bool := r.ytno.isSome && r.ys ∈ BUSY

/-- A commit: its number, and its changes in the order in which they were made. -/
structure Commit where
  scn : ℕ
  records : List Change

/-- The rows of the work orders after all commits, in commit order. -/
def rowsAfter (commits : List Commit) (table : RowKey → Option JobRow) : RowKey → Option JobRow :=
  play ((commits.flatMap Commit.records).map fun e => (e.key, e.post)) table

def onAfter (logons : List Logon) (cur : State) (c : String) : Option Bool :=
  play (logons.map fun l => (l.code, some l.on)) (fun c => some (cur.isOn c)) c

/-- The records and the snapshot say everything that happened since the anchor: `table` are the rows of the work orders
at the anchor, `commits` and `logons` what came after it, in the order in which it came. A logon leaves its time in the
snapshot, where the anchor has seen another one or none; so there is at most one login and one logout for each truck. -/
structure CompleteLog (anchor : Anchor) (table : RowKey → Option JobRow) (commits : List Commit) (logons : List Logon)
    (changes : List Change) (snap : Snapshot) : Prop where
  rows : ∀ k, (anchor.state.rows.lookup k).filter JobRow.isBusy = (table k).filter JobRow.isBusy
  number : commits.Pairwise fun c c' => c.scn < c'.scn
  later : ∀ c ∈ commits, anchor.scn < c.scn
  scn : ∀ c ∈ commits, ∀ e ∈ c.records, e.scn = c.scn
  ordered : ∀ c ∈ commits, RowOrdered Change.key Change.rank c.records
  recorded : (changes.filter fun e => anchor.scn < e.scn).Perm (commits.flatMap Commit.records)
  times : logons.Pairwise fun l l' => l.code = l'.code → l.ts < l'.ts
  login : ∃ seen, anchor.logons = some seen ∧ ∀ c t,
    (⟨t, c, true⟩ ∈ logons ↔ snap.lastOn.lookup c = some t ∧ seen.lastOn.lookup c ≠ some t) ∧
    (⟨t, c, false⟩ ∈ logons ↔ snap.lastOff.lookup c = some t ∧ seen.lastOff.lookup c ≠ some t)
  before : ∀ l ∈ logons, l.ts ≤ snap.asOf
  stopped : snap.state.stopped = anchor.state.stopped
  machines : snap.state.machines.keys = anchor.state.machines.keys
  on : ∀ c, some (snap.state.isOn c) = onAfter logons anchor.state c
  snapRows : ∀ k, snap.state.rows.lookup k = (rowsAfter commits table k).filter JobRow.isBusy

/-! ## What the replay leaves -/

theorem busyTruck_isSome (r : JobRow) : r.busyTruck.isSome = r.isBusy := by
  unfold JobRow.busyTruck JobRow.isBusy
  by_cases h : r.ys ∈ BUSY <;> simp [h]

theorem State.busy_congr {s s' : State}
    (h : ∀ k, (s.rows.lookup k).filter JobRow.isBusy = (s'.rows.lookup k).filter JobRow.isBusy) : s.busy = s'.busy := by
  have key : ∀ {s s' : State},
      (∀ k, (s.rows.lookup k).filter JobRow.isBusy = (s'.rows.lookup k).filter JobRow.isBusy) → s.busy ⊆ s'.busy := by
    intro s s' h y hy
    obtain ⟨k, r, hr, hbusy⟩ := State.mem_busy.mp hy
    have hmem : (s.rows.lookup k).filter JobRow.isBusy = some r := by
      rw [hr, Option.filter_some, if_pos (by rw [← busyTruck_isSome, hbusy]; rfl)]
    rw [h k] at hmem
    exact State.mem_busy.mpr ⟨k, r, (Option.filter_eq_some_iff.mp hmem).1, hbusy⟩
  exact Finset.Subset.antisymm (key h) (key fun k => (h k).symm)

theorem applyChange_rows (x : State × Blame) (ev : Change) :
    (fun k => (applyChange x ev).1.rows.lookup k) = Function.update (fun k => x.1.rows.lookup k) ev.key ev.post := by
  funext k
  unfold applyChange Change.post
  dsimp only
  by_cases h : k = ev.key
  · subst h
    rw [Function.update_self]
    split_ifs
    · exact Finmap.lookup_erase _ _
    · exact Finmap.lookup_insert _
  · rw [Function.update_of_ne h]
    split_ifs
    · exact Finmap.lookup_erase_ne h
    · exact Finmap.lookup_insert_of_ne _ h

theorem foldl_applyChange (evs : List Change) (x : State × Blame) :
    (fun k => (evs.foldl applyChange x).1.rows.lookup k) =
      play (evs.map fun e => (e.key, e.post)) (fun k => x.1.rows.lookup k) ∧
    (evs.foldl applyChange x).1.machines = x.1.machines ∧ (evs.foldl applyChange x).1.stopped = x.1.stopped := by
  induction evs generalizing x with
  | nil => exact ⟨rfl, rfl, rfl⟩
  | cons ev evs ih =>
    obtain ⟨hrows, hmachines, hstopped⟩ := ih (applyChange x ev)
    rw [List.foldl_cons, List.map_cons, play_cons, ← applyChange_rows]
    exact ⟨hrows, hmachines, hstopped⟩

theorem applyTxn_rows (s : State) (evs : List Change) :
    (fun k => (applyTxn s evs).1.rows.lookup k) = play (evs.map fun e => (e.key, e.post)) (fun k => s.rows.lookup k) :=
  (foldl_applyChange evs (s, ⟨∅, ∅⟩)).1

theorem applyTxn_isOn (s : State) (evs : List Change) (c : String) : (applyTxn s evs).1.isOn c = s.isOn c :=
  congrArg (fun m : HashMap String Machine => (m.lookup c).any Machine.isOn) (foldl_applyChange evs (s, ⟨∅, ∅⟩)).2.1

section Ops

variable (snap : Snapshot)

/-- Replayed, the rows are the log played over the rows of the anchor. -/
theorem foldl_rows (ops : List Op) (s : State) :
    (fun k => (ops.foldl (fun s op => op.apply snap s) s).rows.lookup k) =
      play (((ops.filterMap Op.commit?).flatMap id).map fun e => (e.key, e.post)) (fun k => s.rows.lookup k) := by
  induction ops generalizing s with
  | nil => rfl
  | cons op ops ih =>
    rw [List.foldl_cons, ih]
    cases op with
    | logon l => rfl
    | commit evs =>
      show play _ (fun k => (applyTxn s evs).1.rows.lookup k) = _
      rw [applyTxn_rows, ← play_append, ← List.map_append]
      rfl

/-- Replayed, who is logged in is the logons played over the anchor. -/
theorem foldl_isOn (ops : List Op) (s : State) (c : String) :
    some ((ops.foldl (fun s op => op.apply snap s) s).isOn c) = onAfter (ops.filterMap Op.logon?) s c := by
  induction ops generalizing s with
  | nil => rfl
  | cons op ops ih =>
    rw [List.foldl_cons, ih]
    cases op with
    | logon l =>
      show play _ _ c = play _ (Function.update _ l.code (some l.on)) c
      congr 1
      funext c'
      show some ((setOnoff snap s l).isOn c') = _
      rw [isOn_setOnoff, Function.update_apply]
      split_ifs <;> rfl
    | commit evs =>
      show play _ (fun c' => some ((applyTxn s evs).1.isOn c')) c = play _ _ c
      simp only [applyTxn_isOn]
      rfl

theorem foldl_stopped (ops : List Op) (s : State) : (ops.foldl (fun s op => op.apply snap s) s).stopped = s.stopped := by
  induction ops generalizing s with
  | nil => rfl
  | cons op ops ih =>
    rw [List.foldl_cons, ih]
    cases op with
    | logon l => rfl
    | commit evs => exact (foldl_applyChange evs (s, ⟨∅, ∅⟩)).2.2

end Ops

/-! ## The order of the replay -/

/-- The rank of a record in the replay: its commit, then its rank in the commit. -/
def Change.fullRank (e : Change) : ℕ ×ₗ ℤ ×ₗ ℕ := toLex (e.scn, e.rank)

theorem fullRank_lt_of_scn {e e' : Change} (h : e.scn < e'.scn) : e.fullRank < e'.fullRank := Prod.Lex.left _ _ h

def replayed (scn : ℕ) (changes : List Change) : List Change := (txns scn changes).flatMap fun g => sortChanges g.2

theorem replayed_perm (scn : ℕ) (changes : List Change) :
    (replayed scn changes).Perm (changes.filter fun e => scn < e.scn) := by
  unfold replayed txns
  rw [List.flatMap_map]
  refine (List.Perm.flatMap_left _ fun n _ => List.perm_insertionSort _ _).trans ?_
  apply flatMap_filter_perm Change.scn (nodup_inOrder _)
  intro e he
  exact mem_inOrder.mpr (List.mem_toFinset.mpr (List.mem_map_of_mem he))

/-- **The replay takes the records by commit, and within a commit by time and kind.** -/
theorem groups_sorted (scn : ℕ) (changes : List Change) :
    (replayed scn changes).Pairwise fun e e' => e.fullRank ≤ e'.fullRank := by
  have hmem : ∀ {n : ℕ} {e : Change},
      e ∈ sortChanges ((changes.filter fun c => scn < c.scn).filter fun c => c.scn = n) → e.scn = n := by
    intro n e he
    have he' := (List.perm_insertionSort _ _).mem_iff.mp he
    exact of_decide_eq_true (List.mem_filter.mp he').2
  unfold replayed txns
  rw [List.flatMap_map, List.pairwise_flatMap]
  constructor
  · intro n _
    apply (List.pairwise_insertionSort (fun a b : Change => a.rank ≤ b.rank) _).imp_of_mem
    intro e e' he he' hle
    refine (Prod.Lex.le_iff ..).mpr (Or.inr ⟨?_, hle⟩)
    exact (hmem he).trans (hmem he').symm
  · apply (pairwise_inOrder _).imp
    intro n n' hlt e he e' he'
    apply le_of_lt (fullRank_lt_of_scn _)
    rw [hmem he, hmem he']
    exact hlt

section Complete

variable {anchor : Anchor} {table : RowKey → Option JobRow} {commits : List Commit} {logons : List Logon}
  {changes : List Change} {snap : Snapshot}

theorem CompleteLog.rowOrdered (h : CompleteLog anchor table commits logons changes snap) :
    RowOrdered Change.key Change.fullRank (commits.flatMap Commit.records) := by
  unfold RowOrdered
  rw [List.pairwise_flatMap]
  constructor
  · intro c hc
    apply (h.ordered c hc).imp_of_mem
    intro e e' he he' hlt hkey
    refine (Prod.Lex.lt_iff ..).mpr (Or.inr ⟨?_, hlt hkey⟩)
    exact (h.scn c hc e he).trans (h.scn c hc e' he').symm
  · apply h.number.imp_of_mem
    intro c c' hc hc' hlt e he e' he' _
    apply fullRank_lt_of_scn
    rw [h.scn c hc e he, h.scn c' hc' e' he']
    exact hlt

theorem replayEnd_cur (anchor : Anchor) (changes : List Change) (snap : Snapshot) :
    (replayEnd anchor changes snap).cur =
      (replayOps ((txns anchor.scn changes).map fun g => sortChanges g.2) (logonList anchor snap)).foldl
        (fun s op => op.apply snap s) anchor.state := runOps_cur _ _

/-- The busy rows of the replay are those after the commits, in commit order. -/
theorem CompleteLog.end_rows (h : CompleteLog anchor table commits logons changes snap) (k : RowKey) :
    ((replayEnd anchor changes snap).cur.rows.lookup k).filter JobRow.isBusy =
      (rowsAfter commits table k).filter JobRow.isBusy := by
  have hlog : (commits.flatMap Commit.records).Perm (replayed anchor.scn changes) :=
    h.recorded.symm.trans (replayed_perm anchor.scn changes).symm
  have hrows : (replayEnd anchor changes snap).cur.rows.lookup k =
      play ((commits.flatMap Commit.records).map fun e => (e.key, e.post)) (fun k => anchor.state.rows.lookup k) k := by
    rw [play_of_sorted h.rowOrdered hlog (groups_sorted anchor.scn changes), replayEnd_cur]
    refine (congrFun (foldl_rows snap _ anchor.state) k).trans ?_
    rw [replayOps_commit, List.flatMap_map]
    rfl
  rw [hrows]
  unfold rowsAfter
  rw [play_apply, play_apply]
  cases (((commits.flatMap Commit.records).map fun e => (e.key, e.post)).filter fun e => e.1 = k).getLast? with
  | none => exact h.rows k
  | some e => rfl

theorem mem_newLogons {last : HashMap String ℤ} {seen : Option (HashMap String ℤ)} {on : Bool} {l : Logon} :
    l ∈ newLogons anchor snap seen last on ↔
      l.on = on ∧ last.lookup l.code = some l.ts ∧ l.ts ≤ snap.asOf ∧ isNew anchor.asOf seen l.code l.ts = true := by
  unfold newLogons
  rw [List.mem_filterMap]
  simp only [Option.bind_eq_some_iff, mem_inOrder, Finmap.mem_keys, Option.ite_none_right_eq_some, Option.some.injEq]
  constructor
  · rintro ⟨c, -, t, ht, ⟨hle, hnew⟩, rfl⟩
    exact ⟨rfl, ht, hle, hnew⟩
  · rintro ⟨rfl, ht, hle, hnew⟩
    exact ⟨l.code, Finmap.lookup_isSome.mp (by rw [ht]; rfl), l.ts, ht, ⟨hle, hnew⟩, rfl⟩

theorem nodup_newLogons {last : HashMap String ℤ} {seen : Option (HashMap String ℤ)} {on : Bool} :
    (newLogons anchor snap seen last on).Nodup := by
  unfold newLogons
  apply List.Nodup.filterMap _ (nodup_inOrder _)
  intro c c' l hl hl'
  simp only [Option.mem_def, Option.bind_eq_some_iff, Option.ite_none_right_eq_some, Option.some.injEq] at hl hl'
  obtain ⟨t, -, -, rfl⟩ := hl
  obtain ⟨t', -, -, heq⟩ := hl'
  exact (congrArg Logon.code heq).symm

theorem CompleteLog.logonList_perm (h : CompleteLog anchor table commits logons changes snap) :
    logons.Perm (logonList anchor snap) := by
  obtain ⟨seen, hseen, hlogin⟩ := h.login
  have hnodup : logons.Nodup := by
    apply h.times.imp
    rintro l _ hlt rfl
    exact lt_irrefl _ (hlt rfl)
  refine List.Perm.trans ?_ (List.perm_insertionSort _ _).symm
  rw [List.perm_ext_iff_of_nodup hnodup]
  · intro l
    have hmem : l ∈ logons ↔ l ∈ logons ∧ l.ts ≤ snap.asOf := ⟨fun hl => ⟨hl, h.before l hl⟩, And.left⟩
    rw [hmem, List.mem_append, mem_newLogons, mem_newLogons, hseen]
    obtain ⟨t, c, on⟩ := l
    cases on with
    | true =>
      rw [(hlogin c t).1]
      simp [isNew]
      tauto
    | false =>
      rw [(hlogin c t).2]
      simp [isNew]
      tauto
  · refine List.Nodup.append nodup_newLogons nodup_newLogons ?_
    intro l hl hl'
    have hon := (mem_newLogons.mp hl).1
    rw [(mem_newLogons.mp hl').1] at hon
    exact Bool.false_ne_true hon

theorem CompleteLog.end_isOn (h : CompleteLog anchor table commits logons changes snap) (c : String) :
    (replayEnd anchor changes snap).cur.isOn c = snap.state.isOn c := by
  apply Option.some_injective
  rw [replayEnd_cur, foldl_isOn, replayOps_logon, h.on c]
  unfold onAfter
  have hordered : RowOrdered Logon.code Logon.rank logons :=
    h.times.imp fun hlt hcode => (Prod.Lex.lt_iff ..).mpr (Or.inl (hlt hcode))
  rw [play_of_sorted hordered h.logonList_perm (List.pairwise_insertionSort _ _)]

theorem CompleteLog.end_freeSet (h : CompleteLog anchor table commits logons changes snap) :
    (replayEnd anchor changes snap).cur.freeSet = snap.state.freeSet := by
  refine State.freeSet_congr h.end_isOn ?_ (State.busy_congr fun k => ?_)
  · rw [replayEnd_cur, foldl_stopped, h.stopped]
  · rw [h.end_rows k, h.snapRows k, Option.filter_filter]
    simp only [Bool.and_self]

theorem CompleteLog.replayFree (h : CompleteLog anchor table commits logons changes snap) :
    (replay anchor changes snap).replayFree = snap.state.freeSet :=
  (runOps_tracks (tracks_start anchor)).trans h.end_freeSet

/-- The same writes in the same order, at whatever times. -/
def SameWrites (commits commits' : List Commit) : Prop :=
  (commits.flatMap Commit.records).map (fun e => (e.key, e.post)) =
    (commits'.flatMap Commit.records).map fun e => (e.key, e.post)

/-- The same logons of each truck in the same order, at whatever times. -/
def SameLogons (logons logons' : List Logon) : Prop :=
  ∀ c, (logons.filter fun l => l.code = c).map Logon.on = (logons'.filter fun l => l.code = c).map Logon.on

/-- **The replay of a complete log ends in the list of the snapshot, with nothing to correct**; it depends neither on the
statement times nor on how the logons fall between the commits. -/
theorem replay_complete (h : CompleteLog anchor table commits logons changes snap) :
    (replay anchor changes snap).replayFree = snap.state.freeSet ∧
    (∀ t ∈ (replay anchor changes snap).transitions, t.cause ≠ .reconcile) ∧
    ∀ {commits' : List Commit} {logons' : List Logon} {changes' : List Change} {snap' : Snapshot},
      CompleteLog anchor table commits' logons' changes' snap' → SameWrites commits commits' → SameLogons logons logons' →
      (replay anchor changes' snap').replayFree = (replay anchor changes snap).replayFree := by
  refine ⟨h.replayFree, fun t ht => ?_, fun {commits' logons' changes' snap'} h' hwrites hlogons => ?_⟩
  · rcases List.mem_append.mp ht with ht | ht
    · obtain ⟨s, hs, hts⟩ := List.mem_flatMap.mp ht
      exact (runOps_spec (tracks_start anchor) s hs).2.1.cause t hts
    · have hfree : (replayEnd anchor changes snap).free = snap.state.freeSet := h.replayFree
      have hnone : (reconcile snap (replayEnd anchor changes snap)).1 = [] := by
        unfold reconcile
        dsimp only
        rw [if_neg (not_not.mpr hfree.symm)]
      have ht' : t ∈ (reconcile snap (replayEnd anchor changes snap)).1 := ht
      rw [hnone] at ht'
      exact absurd ht' List.not_mem_nil
  · rw [h.replayFree, h'.replayFree]
    refine State.freeSet_congr (fun c => ?_) (h'.stopped.trans h.stopped.symm) (State.busy_congr fun k => ?_)
    · apply Option.some_injective
      rw [h.on c, h'.on c]
      apply play_congr rfl
      have hkey : ∀ ls : List Logon, ((ls.map fun l => (l.code, some l.on)).filter fun e => e.1 = c) =
          ((ls.filter fun l => l.code = c).map Logon.on).map fun on => (c, some on) := by
        intro ls
        rw [List.filter_map, List.map_map]
        apply List.map_congr_left
        intro l hl
        have hc : l.code = c := of_decide_eq_true (List.mem_filter.mp hl).2
        show (l.code, some l.on) = (c, some l.on)
        rw [hc]
      rw [hkey, hkey, hlogons c]
    · rw [h.snapRows k, h'.snapRows k]
      unfold rowsAfter
      rw [hwrites]

end Complete

/-! ## A release and a login -/

def releaseKey : RowKey := ("C1", "1", "S1")

def releaseMachines (onoff : String) : HashMap String Machine :=
  (Finmap.singleton "TT1" ⟨"O", none⟩ : HashMap String Machine).insert "TT2" ⟨onoff, none⟩

/-- `TT1` is busy, `TT2` is not logged in. -/
def releaseAnchor : Anchor where
  asOf := 1000
  state := ⟨Finmap.singleton releaseKey ⟨some "TT1", "A"⟩, releaseMachines "F", ∅⟩
  scn := 10
  lastTs := 1000
  logons := some ⟨∅, ∅⟩

/-- The order of `TT1` is completed; the record is older than the anchor. -/
def releaseChange : Change := ⟨11, 900, 'U', releaseKey, some "TT1", "C", none, none⟩

def releaseSnap : Snapshot where
  asOf := 5000
  state := ⟨∅, releaseMachines "O", ∅⟩
  lastOn := Finmap.singleton "TT2" 2000
  lastOff := ∅

/-- The two records of the order of `TT1`: it is completed, and then the order is given to the truck again. -/
def doneChange (ts : ℤ) : Change := { releaseChange with ts := ts }

def againChange (ts : ℤ) : Change := ⟨12, ts, 'U', releaseKey, some "TT1", "B", none, none⟩

def againSnap : Snapshot :=
  { releaseSnap with state := ⟨Finmap.singleton releaseKey ⟨some "TT1", "B"⟩, releaseMachines "O", ∅⟩ }

theorem againComplete (ts ts' : ℤ) : CompleteLog releaseAnchor (fun k => releaseAnchor.state.rows.lookup k)
    [⟨11, [doneChange ts]⟩, ⟨12, [againChange ts']⟩] [⟨2000, "TT2", true⟩] [againChange ts', doneChange ts] againSnap where
  rows := fun _ => rfl
  number := by simp
  later := by simp [releaseAnchor]
  scn := by simp [doneChange, againChange, releaseChange]
  ordered := by simp [RowOrdered]
  recorded := List.Perm.swap _ _ _
  times := List.pairwise_singleton _ _
  login := by
    refine ⟨⟨∅, ∅⟩, rfl, fun c t => ⟨?_, ?_⟩⟩
    · by_cases hc : c = "TT2"
      · subst hc
        simp [againSnap, releaseSnap, eq_comm]
      · have hnone : againSnap.lastOn.lookup c = none := by
          apply Finmap.lookup_eq_none.mpr
          simpa [againSnap, releaseSnap] using hc
        simp [hnone, hc]
    · simp [againSnap, releaseSnap]
  before := by decide
  stopped := rfl
  machines := by decide
  on := fun c => by
    show _ = Function.update (fun c => some (releaseAnchor.state.isOn c)) "TT2" (some true) c
    rw [Function.update_apply]
    split_ifs with hc
    · rw [hc]
      decide
    · show some (((releaseMachines "O").lookup c).any Machine.isOn) = some (((releaseMachines "F").lookup c).any Machine.isOn)
      unfold releaseMachines
      rw [Finmap.lookup_insert_of_ne _ hc, Finmap.lookup_insert_of_ne _ hc]
  snapRows := fun k => by
    show againSnap.state.rows.lookup k = Option.filter JobRow.isBusy
      (Function.update (Function.update (fun k => releaseAnchor.state.rows.lookup k) releaseKey (some ⟨some "TT1", "C"⟩))
        releaseKey (some ⟨some "TT1", "B"⟩) k)
    rw [Function.update_apply]
    split_ifs with hk
    · rw [hk]
      decide
    · rw [Function.update_of_ne hk, Finmap.lookup_eq_none.mpr, Finmap.lookup_eq_none.mpr]
      · rfl
      · simpa [releaseAnchor] using hk
      · simpa [againSnap] using hk

/-- The second commit is from an earlier statement than the first, and the truck has its order; so it is with other times. -/
theorem replay_complete_again :
    (replay releaseAnchor [againChange 800, doneChange 900] againSnap).replayFree = againSnap.state.freeSet ∧
      againSnap.state.freeSet = {"TT2"} ∧
      (replay releaseAnchor [againChange 4000, doneChange 3000] againSnap).replayFree =
        (replay releaseAnchor [againChange 800, doneChange 900] againSnap).replayFree := by
  obtain ⟨hfree, -, hother⟩ := replay_complete (againComplete 900 800)
  exact ⟨hfree, by decide +kernel, hother (againComplete 3000 4000) rfl fun c => rfl⟩

end TtAiops.TosAvail
