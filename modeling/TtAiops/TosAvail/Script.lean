import TtAiops.TosAvail.Replay

/-!
# The transitions of a replay are an edit script

* `mem_freeSet`, `freeSet_congr` : what the list depends on;
* `Tracks`, `opStep_spec` : the cursor holds the list of its state, and what one step does;
* `Timed`, `runOps_timed`, `runOps_edits` : the times and the edits of all steps;
* `replay_edit_script` : **the transitions lead from the list of the anchor to that of the snapshot, step by step and in
  strict order of time.**
-/

namespace TtAiops.TosAvail
open TtAiops.Lib

/-! ## The list -/

theorem State.mem_busy {s : State} {y : String} :
    y ∈ s.busy ↔ ∃ k r, s.rows.lookup k = some r ∧ r.busyTruck = some y := by
  unfold State.busy
  simp only [Finset.mem_biUnion, Finmap.mem_keys, Option.mem_toFinset, Option.mem_def, Option.bind_eq_some_iff]
  constructor
  · rintro ⟨k, -, r, hr, hy⟩
    exact ⟨k, r, hr, hy⟩
  · rintro ⟨k, r, hr, hy⟩
    exact ⟨k, Finmap.lookup_isSome.mp (by rw [hr]; rfl), r, hr, hy⟩

theorem State.mem_freeSet {s : State} {c : String} :
    c ∈ s.freeSet ↔ s.isOn c = true ∧ c ∉ s.stopped ∧ c ∉ s.busy := by
  unfold State.freeSet
  rw [Finset.mem_filter, Finmap.mem_keys, and_iff_right_iff_imp]
  intro h
  unfold State.isOn at h
  apply Finmap.lookup_isSome.mp
  cases hm : s.machines.lookup c with
  | none => simp [hm] at h
  | some m => rfl

/-- The list depends on who is logged in, who is stopped and who is busy. -/
theorem State.freeSet_congr {s s' : State} (hon : ∀ c, s.isOn c = s'.isOn c) (hstop : s.stopped = s'.stopped)
    (hbusy : s.busy = s'.busy) : s.freeSet = s'.freeSet := by
  ext c
  rw [State.mem_freeSet, State.mem_freeSet, hon, hstop, hbusy]

theorem isOn_setOnoff (snap : Snapshot) (cur : State) (l : Logon) (c : String) :
    (setOnoff snap cur l).isOn c = if c = l.code then l.on else cur.isOn c := by
  unfold State.isOn setOnoff
  by_cases h : c = l.code
  · subst h
    rw [if_pos rfl, Finmap.lookup_insert]
    cases l.on <;> simp [Machine.isOn]
  · rw [if_neg h, Finmap.lookup_insert_of_ne _ h]

/-! ## One step -/

def Transition.edit (t : Transition) : Edit String := (t.ytno, t.enter)

section DiffInto

variable (before after : Finset String) (ts : ℤ) (blame : Option Blame) (logonChanged : Finset String) (late : Bool)

@[simp] theorem edits_diffInto :
    (diffInto before after ts blame logonChanged late).map Transition.edit = diffEdits before after := by
  unfold diffInto diffEdits
  rw [List.map_append, List.map_map, List.map_map]
  rfl

theorem ts_of_mem_diffInto {t : Transition} (h : t ∈ diffInto before after ts blame logonChanged late) : t.ts = ts := by
  unfold diffInto at h
  rcases List.mem_append.mp h with h | h <;> obtain ⟨y, -, rfl⟩ := List.mem_map.mp h <;> rfl

theorem cause_of_mem_diffInto {t : Transition} (h : t ∈ diffInto before after ts blame logonChanged late) :
    t.cause ≠ .reconcile := by
  unfold diffInto at h
  rcases List.mem_append.mp h with h | h <;> obtain ⟨y, -, rfl⟩ := List.mem_map.mp h <;>
    show (if _ then _ else _) ≠ _ <;> split_ifs <;> decide

end DiffInto

@[simp] theorem diffEdits_self (s : Finset String) : diffEdits s s = [] := by
  unfold diffEdits
  rw [Finset.sdiff_self, inOrder_eq_nil.mpr rfl]
  rfl

theorem lt_stepTs (want last : ℤ) : last < stepTs want last := by
  unfold stepTs
  split_ifs <;> omega

def Tracks (c : Cursor) : Prop := c.free = c.cur.freeSet

/-- What a step does: from a cursor that holds the list of its state it makes the edits between the two lists, all at one
time later than the last one. -/
structure StepSpec (c : Cursor) (out : List Transition) (c' : Cursor) : Prop where
  tracks : Tracks c'
  edits : out.map Transition.edit = diffEdits c.free c'.free
  last_le : c.last ≤ c'.last
  time : ∀ t ∈ out, c.last < t.ts ∧ t.ts = c'.last
  cause : ∀ t ∈ out, t.cause ≠ .reconcile

theorem StepSpec.silent {c c' : Cursor} (hfree : c'.free = c.free) (hlast : c'.last = c.last) (htracks : Tracks c') :
    StepSpec c [] c' where
  tracks := htracks
  edits := by rw [hfree, diffEdits_self, List.map_nil]
  last_le := hlast.ge
  time := fun t ht => absurd ht List.not_mem_nil
  cause := fun t ht => absurd ht List.not_mem_nil

theorem StepSpec.diff {c : Cursor} {cur : State} {want : ℤ} {blame : Option Blame} {logonChanged : Finset String}
    {late : Bool} {n : ℕ} :
    StepSpec c (diffInto c.free cur.freeSet (stepTs want c.last) blame logonChanged late)
      ⟨cur, cur.freeSet, stepTs want c.last, n⟩ where
  tracks := rfl
  edits := edits_diffInto _ _ _ _ _ _
  last_le := (lt_stepTs want c.last).le
  time := fun t ht => by
    rw [ts_of_mem_diffInto _ _ _ _ _ _ ht]
    exact ⟨lt_stepTs want c.last, rfl⟩
  cause := fun t ht => cause_of_mem_diffInto _ _ _ _ _ _ ht

theorem setOnoff_freeSet {snap : Snapshot} {cur : State} {l : Logon} (h : cur.isOn l.code = l.on) :
    (setOnoff snap cur l).freeSet = cur.freeSet := by
  refine State.freeSet_congr (fun c => ?_) rfl rfl
  rw [isOn_setOnoff]
  split_ifs with hc
  · rw [hc, h]
  · rfl

theorem applyLogon_spec {asOf : ℤ} {snap : Snapshot} {l : Logon} {c : Cursor} (h : Tracks c) :
    StepSpec c (applyLogon asOf snap l c).1 (applyLogon asOf snap l c).2 := by
  unfold applyLogon
  dsimp only
  split_ifs with hwas hdiff
  · refine StepSpec.silent rfl rfl ?_
    show c.free = (setOnoff snap c.cur l).freeSet
    rw [setOnoff_freeSet hwas]
    exact h
  · exact StepSpec.diff
  · exact StepSpec.silent rfl rfl (not_not.mp hdiff).symm

theorem applyCommit_spec {asOf : ℤ} {evs : List Change} {c : Cursor} :
    StepSpec c (applyCommit asOf evs c).1 (applyCommit asOf evs c).2 := by
  unfold applyCommit
  dsimp only
  by_cases hdiff : (applyTxn c.cur evs).1.freeSet ≠ c.free
  · rw [if_pos hdiff]
    exact StepSpec.diff
  · rw [if_neg hdiff]
    exact StepSpec.silent rfl rfl (not_not.mp hdiff).symm

theorem opStep_spec {asOf : ℤ} {snap : Snapshot} {op : Op} {c : Cursor} (h : Tracks c) :
    StepSpec c (opStep asOf snap op c).1 (opStep asOf snap op c).2 := by
  cases op with
  | logon l => exact applyLogon_spec h
  | commit evs => exact applyCommit_spec

/-- The state after a step. -/
def Op.apply (snap : Snapshot) : Op → State → State
  | .logon l, s => setOnoff snap s l
  | .commit evs, s => (applyTxn s evs).1

@[simp] theorem opStep_cur (asOf : ℤ) (snap : Snapshot) (op : Op) (c : Cursor) :
    (opStep asOf snap op c).2.cur = op.apply snap c.cur := by
  cases op with
  | logon l => show (applyLogon asOf snap l c).2.cur = _; unfold applyLogon; dsimp only; split_ifs <;> rfl
  | commit evs => show (applyCommit asOf evs c).2.cur = _; unfold applyCommit; dsimp only; split_ifs <;> rfl

/-! ## All steps -/

/-- The groups of transitions `outs`, each at one time, the times rising from after `last` up to at most `last'`. -/
def Timed : ℤ → List (List Transition) → ℤ → Prop
  | last, [], last' => last ≤ last'
  | last, out :: outs, last' => ∃ mid, last ≤ mid ∧ (∀ t ∈ out, last < t.ts ∧ t.ts = mid) ∧ Timed mid outs last'

theorem Timed.append {last mid last' : ℤ} {outs outs' : List (List Transition)} (h : Timed last outs mid)
    (h' : Timed mid outs' last') : Timed last (outs ++ outs') last' := by
  induction outs generalizing last with
  | nil =>
    cases outs' with
    | nil => exact le_trans (b := mid) h h'
    | cons out outs' =>
      obtain ⟨m, hm, hout, hrest⟩ := h'
      exact ⟨m, le_trans (b := mid) h hm, fun t ht => ⟨lt_of_le_of_lt (b := mid) h (hout t ht).1, (hout t ht).2⟩, hrest⟩
  | cons out outs ih =>
    obtain ⟨m, hm, hout, hrest⟩ := h
    exact ⟨m, hm, hout, ih hrest⟩

theorem Timed.bounds {last last' : ℤ} {outs : List (List Transition)} (h : Timed last outs last') :
    last ≤ last' ∧ ∀ out ∈ outs, ∀ t ∈ out, last < t.ts ∧ t.ts ≤ last' := by
  induction outs generalizing last with
  | nil => exact ⟨h, fun out hout => absurd hout List.not_mem_nil⟩
  | cons out outs ih =>
    obtain ⟨mid, hmid, hout, hrest⟩ := h
    obtain ⟨hle, hb⟩ := ih hrest
    refine ⟨hmid.trans hle, fun o ho t ht => ?_⟩
    rcases List.mem_cons.mp ho with rfl | ho
    · exact ⟨(hout t ht).1, (hout t ht).2.trans_le hle⟩
    · exact ⟨hmid.trans_lt (hb o ho t ht).1, (hb o ho t ht).2⟩

theorem Timed.same {last last' : ℤ} {outs : List (List Transition)} (h : Timed last outs last') :
    ∀ out ∈ outs, ∀ t ∈ out, ∀ t' ∈ out, t.ts = t'.ts := by
  induction outs generalizing last with
  | nil => exact fun out hout => absurd hout List.not_mem_nil
  | cons out outs ih =>
    obtain ⟨mid, -, hout, hrest⟩ := h
    intro o ho
    rcases List.mem_cons.mp ho with rfl | ho
    · exact fun t ht t' ht' => (hout t ht).2.trans (hout t' ht').2.symm
    · exact ih hrest o ho

theorem Timed.pairwise {last last' : ℤ} {outs : List (List Transition)} (h : Timed last outs last') :
    outs.Pairwise fun out out' => ∀ t ∈ out, ∀ t' ∈ out', t.ts < t'.ts := by
  induction outs generalizing last with
  | nil => exact List.Pairwise.nil
  | cons out outs ih =>
    obtain ⟨mid, -, hout, hrest⟩ := h
    refine List.pairwise_cons.mpr ⟨fun o ho t ht t' ht' => ?_, ih hrest⟩
    rw [(hout t ht).2]
    exact (hrest.bounds.2 o ho t' ht').1

@[simp] theorem endCursor_nil (c : Cursor) : endCursor c [] = c := rfl

@[simp] theorem endCursor_cons (c : Cursor) (s : Step) (steps : List Step) :
    endCursor c (s :: steps) = endCursor s.after steps := by
  unfold endCursor
  rw [List.getLast?_cons]
  cases steps.getLast? <;> rfl

section RunOps

variable {asOf : ℤ} {snap : Snapshot}

theorem runOps_spec {ops : List Op} {c : Cursor} (h : Tracks c) :
    ∀ s ∈ runOps asOf snap ops c, Tracks s.before ∧ StepSpec s.before s.out s.after ∧
      s.after.cur = s.op.apply snap s.before.cur := by
  induction ops generalizing c with
  | nil => exact fun s hs => absurd hs List.not_mem_nil
  | cons op ops ih =>
    intro s hs
    rcases List.mem_cons.mp hs with rfl | hs
    · exact ⟨h, opStep_spec h, opStep_cur asOf snap op c⟩
    · exact ih (opStep_spec h).tracks s hs

theorem runOps_tracks {ops : List Op} {c : Cursor} (h : Tracks c) : Tracks (endCursor c (runOps asOf snap ops c)) := by
  induction ops generalizing c with
  | nil => exact h
  | cons op ops ih =>
    rw [runOps, endCursor_cons]
    exact ih (opStep_spec h).tracks

theorem runOps_edits {ops : List Op} {c : Cursor} (h : Tracks c) :
    applyEdits (((runOps asOf snap ops c).flatMap Step.out).map Transition.edit) c.free =
      some (endCursor c (runOps asOf snap ops c)).free := by
  induction ops generalizing c with
  | nil => rfl
  | cons op ops ih =>
    have hspec : StepSpec c (opStep asOf snap op c).1 (opStep asOf snap op c).2 := opStep_spec h
    rw [runOps, List.flatMap_cons, List.map_append, endCursor_cons]
    apply applyEdits_trans _ (ih hspec.tracks)
    rw [hspec.edits]
    exact applyEdits_diff _ _

theorem runOps_timed {ops : List Op} {c : Cursor} (h : Tracks c) :
    Timed c.last ((runOps asOf snap ops c).map Step.out) (endCursor c (runOps asOf snap ops c)).last := by
  induction ops generalizing c with
  | nil => exact le_refl c.last
  | cons op ops ih =>
    have hspec : StepSpec c (opStep asOf snap op c).1 (opStep asOf snap op c).2 := opStep_spec h
    rw [runOps, List.map_cons, endCursor_cons]
    exact ⟨_, hspec.last_le, hspec.time, ih hspec.tracks⟩

/-- The state after a run is that of its operations, one after the other. -/
theorem runOps_cur (ops : List Op) (c : Cursor) :
    (endCursor c (runOps asOf snap ops c)).cur = ops.foldl (fun s op => op.apply snap s) c.cur := by
  induction ops generalizing c with
  | nil => rfl
  | cons op ops ih => rw [runOps, endCursor_cons, ih, opStep_cur, List.foldl_cons]

theorem map_op_runOps (ops : List Op) (c : Cursor) : (runOps asOf snap ops c).map Step.op = ops := by
  induction ops generalizing c with
  | nil => rfl
  | cons op ops ih => rw [runOps, List.map_cons, ih]

end RunOps

/-! ## The whole replay -/

def Op.commit? : Op → Option (List Change)
  | .logon _ => none
  | .commit evs => some evs

def Op.logon? : Op → Option Logon
  | .logon l => some l
  | .commit _ => none

theorem replayOps_commit (groups : List (List Change)) (ls : List Logon) :
    (replayOps groups ls).filterMap Op.commit? = groups := by
  induction groups generalizing ls with
  | nil => simp [replayOps, Op.commit?]
  | cons evs groups ih => simp [replayOps, List.filterMap_append, Op.commit?, ih]

theorem replayOps_logon (groups : List (List Change)) (ls : List Logon) :
    (replayOps groups ls).filterMap Op.logon? = ls := by
  induction groups generalizing ls with
  | nil => simp [replayOps, Op.logon?, List.filterMap_map, Function.comp_def]
  | cons evs groups ih =>
    simp [replayOps, List.filterMap_append, List.filterMap_cons, Op.logon?, ih, List.filterMap_map, Function.comp_def]

section Reconcile

variable (snap : Snapshot) (c : Cursor)

theorem reconcile_edits : (reconcile snap c).1.map Transition.edit = diffEdits c.free snap.state.freeSet := by
  unfold reconcile
  dsimp only
  split_ifs with h
  · show (reconcileInto c.free snap.state.freeSet _).map _ = _
    unfold reconcileInto
    rw [List.map_map]
    exact List.map_id _
  · rw [← not_not.mp h, diffEdits_self]
    rfl

theorem reconcile_time : c.last ≤ (reconcile snap c).2 ∧
    ∀ t ∈ (reconcile snap c).1, c.last < t.ts ∧ t.ts = (reconcile snap c).2 := by
  unfold reconcile
  dsimp only
  split_ifs with h
  · refine ⟨(lt_stepTs snap.asOf c.last).le, fun t ht => ?_⟩
    obtain ⟨e, -, rfl⟩ := List.mem_map.mp ht
    exact ⟨lt_stepTs snap.asOf c.last, rfl⟩
  · exact ⟨le_rfl, fun t ht => absurd ht List.not_mem_nil⟩

end Reconcile

section Replay

variable (anchor : Anchor) (changes : List Change) (snap : Snapshot)

/-- The cursor before the comparison with the snapshot. -/
def replayEnd : Cursor := endCursor (startCursor anchor) (replaySteps anchor changes snap)

/-- The transitions of each step, the comparison with the snapshot as the last. -/
def replayOuts : List (List Transition) :=
  (replaySteps anchor changes snap).map Step.out ++ [(reconcile snap (replayEnd anchor changes snap)).1]

theorem flatten_replayOuts : (replayOuts anchor changes snap).flatten = (replay anchor changes snap).transitions := by
  unfold replayOuts
  rw [List.flatten_append, ← List.flatMap_def, List.flatten_singleton]
  rfl

theorem tracks_start : Tracks (startCursor anchor) := rfl

theorem replay_timed :
    Timed (max anchor.asOf anchor.lastTs) (replayOuts anchor changes snap) (replay anchor changes snap).lastTs := by
  apply Timed.append (runOps_timed (tracks_start anchor))
  obtain ⟨hle, htime⟩ := reconcile_time snap (replayEnd anchor changes snap)
  exact ⟨_, hle, htime, le_rfl⟩

theorem replay_edits :
    applyEdits ((replay anchor changes snap).transitions.map Transition.edit) anchor.state.freeSet =
      some snap.state.freeSet := by
  show applyEdits (((replaySteps anchor changes snap).flatMap Step.out ++
    (reconcile snap (replayEnd anchor changes snap)).1).map Transition.edit) _ = _
  rw [List.map_append]
  apply applyEdits_trans (runOps_edits (tracks_start anchor))
  rw [reconcile_edits]
  exact applyEdits_diff _ _

/-- The commits of the replay are those of the records after the anchor, in the order of their numbers. -/
theorem replaySteps_commit : ((replaySteps anchor changes snap).map Step.op).filterMap Op.commit? =
    (txns anchor.scn changes).map fun g => sortChanges g.2 := by
  unfold replaySteps
  rw [map_op_runOps, replayOps_commit]

theorem commit_step {s : Step} (hs : s ∈ replaySteps anchor changes snap) {evs : List Change} (hop : s.op = .commit evs) :
    s.out.map Transition.edit = diffEdits s.before.cur.freeSet (applyTxn s.before.cur evs).1.freeSet := by
  obtain ⟨htracks, hspec, hcur⟩ := runOps_spec (tracks_start anchor) s hs
  rw [hspec.edits, htracks, hspec.tracks, hcur, hop]
  rfl

/-- **The transitions of a replay are an edit script from the list of the anchor to that of the snapshot**; those of a
commit are the difference that the whole commit makes; the times rise strictly from step to step. -/
theorem replay_edit_script :
    applyEdits ((replay anchor changes snap).transitions.map Transition.edit) anchor.state.freeSet =
      some snap.state.freeSet ∧
    ((replaySteps anchor changes snap).map Step.op).filterMap Op.commit? =
      (txns anchor.scn changes).map (fun g => sortChanges g.2) ∧
    (∀ s ∈ replaySteps anchor changes snap, ∀ evs, s.op = .commit evs →
      s.out.map Transition.edit = diffEdits s.before.cur.freeSet (applyTxn s.before.cur evs).1.freeSet) ∧
    (replayOuts anchor changes snap).flatten = (replay anchor changes snap).transitions ∧
    (∀ out ∈ replayOuts anchor changes snap, ∀ t ∈ out, ∀ t' ∈ out, t.ts = t'.ts) ∧
    (replayOuts anchor changes snap).Pairwise (fun out out' => ∀ t ∈ out, ∀ t' ∈ out', t.ts < t'.ts) ∧
    ∀ t ∈ (replay anchor changes snap).transitions,
      anchor.asOf < t.ts ∧ anchor.lastTs < t.ts ∧ t.ts ≤ (replay anchor changes snap).lastTs := by
  have htimed := replay_timed anchor changes snap
  refine ⟨replay_edits anchor changes snap, replaySteps_commit anchor changes snap,
    fun s hs evs hop => commit_step anchor changes snap hs hop, flatten_replayOuts anchor changes snap, htimed.same,
    htimed.pairwise, fun t ht => ?_⟩
  rw [← flatten_replayOuts] at ht
  obtain ⟨out, hout, htout⟩ := List.mem_flatten.mp ht
  obtain ⟨hlt, hle⟩ := htimed.bounds.2 out hout t htout
  exact ⟨(le_max_left _ _).trans_lt hlt, (le_max_right _ _).trans_lt hlt, hle⟩

end Replay

end TtAiops.TosAvail
