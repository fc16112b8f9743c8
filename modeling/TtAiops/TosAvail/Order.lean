import TtAiops.TosAvail.Blame

/-!
# The replay of the records in another order

The records come from a query without an order. Those of one row are told apart by their time and kind, and the state after
each commit does not depend on the order. Records of different rows may share both; then the last writer of a blame map is
the one that came last.

* `rowBefore`, `LetsGoIn` : the row that a record finds, and the trucks that it lets go, said without an order;
* `SameRecords`, `SameOp`, `SameStep` : commits, steps and cursors of two orders;
* `replaySteps_same` : the two replays run in step, and write the same edits;
* `OneStory`, `replay_perm_iff` : **the replay does not depend on the order exactly when the records that could be blamed for
  one truck say the same**.
-/

namespace TtAiops.TosAvail
open TtAiops.Lib

/-! ## One commit in two orders -/

/-- The row of the record as the records of smaller rank leave it. -/
def rowBefore (s : State) (evs : List Change) (e : Change) : Option JobRow :=
  rowAfter s (evs.filter fun b => b.rank < e.rank) e.key

/-- The record of the commit lets the truck go. -/
def LetsGoIn (s : State) (evs : List Change) (y : String) (e : Change) : Prop := LetsGo (rowBefore s evs e) e y

instance (s : State) (evs : List Change) (y : String) (e : Change) : Decidable (LetsGoIn s evs y e) :=
  inferInstanceAs (Decidable (LetsGo _ _ _))

/-- The order in which a commit applies its records: by time and kind, which are different for two records of one row. -/
structure CommitOrder (evs : List Change) : Prop where
  sorted : evs.Pairwise fun a b => a.rank ≤ b.rank
  ordered : RowOrdered Change.key Change.rank evs

/-- The same records, in two orders in which a commit may apply them. -/
structure SameRecords (evs evs' : List Change) : Prop where
  perm : evs.Perm evs'
  left : CommitOrder evs
  right : CommitOrder evs'

theorem rowAfter_congr {s : State} {evs evs' : List Change} {k : RowKey}
    (h : (evs.filter fun e => e.key = k) = evs'.filter fun e => e.key = k) : rowAfter s evs k = rowAfter s evs' k := by
  rw [rowAfter_apply, rowAfter_apply]
  unfold lastBy
  rw [h]

theorem groupTs_perm {evs evs' : List Change} (h : evs.Perm evs') : groupTs evs = groupTs evs' := by
  unfold groupTs
  congr 1
  ext t
  rw [List.max?_eq_some_iff, List.max?_eq_some_iff]
  simp only [(h.map Change.ts).mem_iff]

section Commit

variable {s : State} {evs evs' : List Change} {y : String}

theorem SameRecords.filter_eq (h : SameRecords evs evs') (k : RowKey) :
    (evs.filter fun e => e.key = k) = evs'.filter fun e => e.key = k := h.left.ordered.filter_eq h.perm h.right.sorted k

theorem SameRecords.rowAfter_eq (h : SameRecords evs evs') (k : RowKey) : rowAfter s evs k = rowAfter s evs' k :=
  rowAfter_congr (h.filter_eq k)

theorem SameRecords.state_eq (h : SameRecords evs evs') : (applyTxn s evs).1 = (applyTxn s evs').1 := by
  obtain ⟨-, hmachines, hstopped⟩ := foldl_applyChange evs (s, ⟨∅, ∅⟩)
  obtain ⟨-, hmachines', hstopped'⟩ := foldl_applyChange evs' (s, ⟨∅, ∅⟩)
  have hrows : (applyTxn s evs).1.rows = (applyTxn s evs').1.rows := Finmap.ext_lookup fun k => by
    rw [TosAvail.rowAfter_eq, TosAvail.rowAfter_eq, h.rowAfter_eq]
  show State.mk _ _ _ = State.mk _ _ _
  rw [hrows]
  exact congrArg₂ (State.mk _) (hmachines.trans hmachines'.symm) (hstopped.trans hstopped'.symm)

theorem SameRecords.letsGoIn_iff (h : SameRecords evs evs') (e : Change) : LetsGoIn s evs y e ↔ LetsGoIn s evs' y e := by
  have hrow : rowBefore s evs e = rowBefore s evs' e := by
    apply rowAfter_congr
    rw [List.filter_comm, h.filter_eq, List.filter_comm]
  unfold LetsGoIn
  rw [hrow]

theorem rowBefore_split {front back : List Change} {e : Change}
    (h : RowOrdered Change.key Change.rank (front ++ e :: back)) :
    rowBefore s (front ++ e :: back) e = rowAfter s front e.key := by
  obtain ⟨-, hcons, hcross⟩ := List.pairwise_append.mp h
  apply rowAfter_congr
  rw [List.filter_filter, List.filter_append, List.filter_cons_of_neg (by simp)]
  have hfront : front.filter (fun b => decide (b.key = e.key) && decide (b.rank < e.rank)) =
      front.filter fun b => b.key = e.key := by
    apply List.filter_congr
    intro b hb
    by_cases hkey : b.key = e.key
    · simp [hkey, hcross b hb e List.mem_cons_self hkey]
    · simp [hkey]
  have hback : back.filter (fun b => decide (b.key = e.key) && decide (b.rank < e.rank)) = [] := by
    rw [List.filter_eq_nil_iff]
    intro b hb hboth
    rw [Bool.and_eq_true, decide_eq_true_iff, decide_eq_true_iff] at hboth
    exact absurd ((List.pairwise_cons.mp hcons).1 b hb hboth.1.symm) (not_lt.mpr hboth.2.le)
  rw [hfront, hback, List.append_nil]

theorem freed_eq_lastBy (h : RowOrdered Change.key Change.rank evs) :
    (applyTxn s evs).2.freed.lookup y = lastBy (LetsGoIn s evs y) evs := by
  have hsnd : lastBy (LetsGoIn s evs y) evs = lastBy (LetsGoIn s evs y) ((withBefore [] evs).map Prod.snd) := by
    rw [map_snd_withBefore]
  rw [freed_eq, hsnd, lastBy_map]
  refine congrArg (Option.map Prod.snd) (lastBy_congr fun x hx => ?_)
  obtain ⟨front, back, hevs, hfront⟩ := mem_withBefore.mp hx
  unfold LetsGoAt LetsGoIn
  rw [hfront, List.nil_append]
  subst hevs
  rw [rowBefore_split h]

end Commit

/-! ## The steps in two orders -/

/-- The same step, with the records of a commit in two orders. -/
inductive SameOp : Op → Op → Prop
  | logon (l : Logon) : SameOp (.logon l) (.logon l)
  | commit {evs evs' : List Change} (h : SameRecords evs evs') : SameOp (.commit evs) (.commit evs')

theorem SameOp.of_commit {op op' : Op} (h : SameOp op op') {evs : List Change} (hop : op = .commit evs) :
    ∃ evs', op' = .commit evs' ∧ SameRecords evs evs' := by
  cases h with
  | logon l => cases hop
  | commit h => cases hop; exact ⟨_, rfl, h⟩

/-- The same step of two replays: it makes the same edits and leads to the same cursor. -/
structure SameStep (asOf : ℤ) (snap : Snapshot) (a b : Step) : Prop where
  op : SameOp a.op b.op
  before : a.before = b.before
  after : a.after = b.after
  edits : a.out.map Transition.edit = b.out.map Transition.edit
  out : a.out = (opStep asOf snap a.op a.before).1
  out' : b.out = (opStep asOf snap b.op b.before).1

section Steps

variable {asOf : ℤ} {snap : Snapshot}

theorem SameRecords.applyCommit_after {evs evs' : List Change} (h : SameRecords evs evs') (c : Cursor) :
    (applyCommit asOf evs c).2 = (applyCommit asOf evs' c).2 := by
  unfold applyCommit
  dsimp only
  rw [← h.state_eq, ← groupTs_perm h.perm]
  split_ifs <;> rfl

theorem SameRecords.applyCommit_edits {evs evs' : List Change} (h : SameRecords evs evs') (c : Cursor) :
    (applyCommit asOf evs c).1.map Transition.edit = (applyCommit asOf evs' c).1.map Transition.edit := by
  rw [applyCommit_out, applyCommit_out, edits_diffInto, edits_diffInto, h.state_eq]

variable (asOf snap) in
theorem SameOp.step {op op' : Op} (h : SameOp op op') (c : Cursor) :
    SameStep asOf snap ⟨op, c, (opStep asOf snap op c).1, (opStep asOf snap op c).2⟩
      ⟨op', c, (opStep asOf snap op' c).1, (opStep asOf snap op' c).2⟩ where
  op := h
  before := rfl
  after := by
    cases h with
    | logon l => rfl
    | commit h => exact h.applyCommit_after c
  edits := by
    cases h with
    | logon l => rfl
    | commit h => exact h.applyCommit_edits c
  out := rfl
  out' := rfl

theorem runOps_same {ops ops' : List Op} (h : List.Forall₂ SameOp ops ops') (c : Cursor) :
    List.Forall₂ (SameStep asOf snap) (runOps asOf snap ops c) (runOps asOf snap ops' c) := by
  induction h generalizing c with
  | nil => exact List.Forall₂.nil
  | @cons op op' ops ops' hop _ ih =>
    have hstep := hop.step asOf snap c
    have hafter : (opStep asOf snap op c).2 = (opStep asOf snap op' c).2 := hstep.after
    rw [runOps, runOps]
    refine List.Forall₂.cons hstep ?_
    rw [← hafter]
    exact ih _

theorem endCursor_same {steps steps' : List Step} (h : List.Forall₂ (SameStep asOf snap) steps steps') (c : Cursor) :
    endCursor c steps = endCursor c steps' := by
  induction h generalizing c with
  | nil => rfl
  | cons hstep _ ih => rw [endCursor_cons, endCursor_cons, hstep.after, ih]

/-- The transitions of two replays are the same if they are the same step by step. -/
theorem flatMap_out_iff {steps steps' : List Step} (h : List.Forall₂ (SameStep asOf snap) steps steps') :
    steps.flatMap Step.out = steps'.flatMap Step.out ↔
      List.Forall₂ (fun a b => SameStep asOf snap a b ∧ a.out = b.out) steps steps' := by
  induction h with
  | nil => simp
  | @cons a b steps steps' hstep _ ih =>
    have hlength : a.out.length = b.out.length := by
      simpa using congrArg List.length hstep.edits
    rw [List.flatMap_cons, List.flatMap_cons, List.forall₂_cons, ← ih]
    constructor
    · intro heq
      obtain ⟨hout, hrest⟩ := List.append_inj heq hlength
      exact ⟨⟨hstep, hout⟩, hrest⟩
    · intro heq
      rw [heq.1.2, heq.2]

theorem replayOps_same {groups groups' : List (List Change)} (h : List.Forall₂ SameRecords groups groups')
    (ls : List Logon) : List.Forall₂ SameOp (replayOps groups ls) (replayOps groups' ls) := by
  have hlogons : ∀ ls : List Logon, List.Forall₂ SameOp (ls.map .logon) (ls.map .logon) :=
    fun ls => List.forall₂_same.mpr fun op hop => by
      obtain ⟨l, -, rfl⟩ := List.mem_map.mp hop
      exact SameOp.logon l
  induction h generalizing ls with
  | nil => exact hlogons ls
  | cons hrecords _ ih =>
    rw [replayOps, replayOps, groupTs_perm hrecords.perm]
    exact List.rel_append (hlogons _) (List.Forall₂.cons (SameOp.commit hrecords) (ih _))

end Steps

/-! ## The records that could be blamed -/

/-- The records that could be blamed for one truck say the same. A commit that sets a truck free that was at work, logged in
and not stopped, blames one of the last records that let it go; a commit that gives work that stands to a free truck blames
one of the last records that give it work. -/
structure OneStory (s : State) (evs : List Change) : Prop where
  enters : ∀ y ∈ s.busy, s.isOn y = true → y ∉ s.stopped → (∀ k, ¬ BusyWith (rowAfter s evs k) y) →
    ∀ e e', Greatest Change.rank (LetsGoIn s evs y) evs e → Greatest Change.rank (LetsGoIn s evs y) evs e' →
      e.program = e'.program
  exits : ∀ y ∈ s.freeSet, (∃ e, Stands evs y e) →
    ∀ e e', Greatest Change.rank (Gives y) evs e → Greatest Change.rank (Gives y) evs e' →
      e.program = e'.program ∧ e.key.1 = e'.key.1 ∧ e.jobtype = e'.jobtype

/-- What a transition takes of a record. -/
def Change.story (o : Option Change) : Option String × Option String × Option String :=
  (o.bind Change.program, o.map fun e => e.key.1, o.bind Change.jobtype)

theorem diffInto_blame_iff {before after : Finset String} {ts : ℤ} {b b' : Blame} {late : Bool} :
    diffInto before after ts (some b) ∅ late = diffInto before after ts (some b') ∅ late ↔
      (∀ y ∈ after \ before, (b.freed.lookup y).bind Change.program = (b'.freed.lookup y).bind Change.program) ∧
        ∀ y ∈ before \ after, Change.story (b.took.lookup y) = Change.story (b'.took.lookup y) := by
  unfold diffInto Change.story
  rw [List.append_eq_append_iff_of_size_eq_left (by simp), List.map_inj_left, List.map_inj_left]
  simp only [mem_inOrder, Finset.notMem_empty, if_false, Prod.mk.injEq]
  cases late <;> simp

section Outs

variable {asOf : ℤ} {c : Cursor} {evs evs' : List Change}

theorem SameRecords.out_eq_iff (h : SameRecords evs evs') (hfree : c.free = c.cur.freeSet) :
    (applyCommit asOf evs c).1 = (applyCommit asOf evs' c).1 ↔
      (∀ y ∈ (applyTxn c.cur evs).1.freeSet \ c.cur.freeSet,
        (lastBy (LetsGoIn c.cur evs y) evs).bind Change.program =
          (lastBy (LetsGoIn c.cur evs y) evs').bind Change.program) ∧
        ∀ y ∈ c.cur.freeSet \ (applyTxn c.cur evs).1.freeSet,
          Change.story (lastBy (Gives y) evs) = Change.story (lastBy (Gives y) evs') := by
  rw [applyCommit_out, applyCommit_out, ← groupTs_perm h.perm, ← h.state_eq, hfree, diffInto_blame_iff]
  simp only [freed_eq_lastBy h.left.ordered, freed_eq_lastBy h.right.ordered, took_eq]
  have hlast : ∀ y, lastBy (LetsGoIn c.cur evs' y) evs' = lastBy (LetsGoIn c.cur evs y) evs' :=
    fun y => lastBy_congr fun e _ => (h.letsGoIn_iff e).symm
  simp only [hlast]

theorem SameRecords.out_eq (h : SameRecords evs evs') (hfree : c.free = c.cur.freeSet) (hone : OneStory c.cur evs) :
    (applyCommit asOf evs c).1 = (applyCommit asOf evs' c).1 := by
  refine (h.out_eq_iff hfree).mpr ⟨fun y hy => ?_, fun y hy => ?_⟩
  · obtain ⟨hbusy, hon, hstopped, hdone⟩ := mem_enters.mp hy
    exact lastBy_perm h.left.sorted h.right.sorted h.perm (fun o => o.bind Change.program)
      fun e e' he he' => hone.enters y hbusy hon hstopped hdone e e' he he'
  · obtain ⟨hfree, hstands⟩ := mem_exits.mp hy
    refine lastBy_perm h.left.sorted h.right.sorted h.perm Change.story fun e e' he he' => ?_
    obtain ⟨hprogram, hcontno, hjobtype⟩ := hone.exits y hfree hstands e e' he he'
    simp [Change.story, hprogram, hcontno, hjobtype]

/-- If a commit writes the same in the orders in which each of its records comes last among its equals, it tells one
story. -/
theorem oneStory_of_out_eq (hfree : c.free = c.cur.freeSet)
    (h : ∀ e ∈ evs, ∃ front back, SameRecords evs (front ++ e :: back) ∧ (∀ b ∈ back, e.rank < b.rank) ∧
      (applyCommit asOf evs c).1 = (applyCommit asOf (front ++ e :: back) c).1) : OneStory c.cur evs where
  enters := by
    intro y hbusy hon hstopped hdone
    have hstory : ∀ e, Greatest Change.rank (LetsGoIn c.cur evs y) evs e →
        (lastBy (LetsGoIn c.cur evs y) evs).bind Change.program = e.program := by
      intro e he
      obtain ⟨front, back, hsame, hback, hout⟩ := h e he.mem
      rw [((hsame.out_eq_iff hfree).mp hout).1 y (mem_enters.mpr ⟨hbusy, hon, hstopped, hdone⟩),
        lastBy_of_greatest (he.perm hsame.perm) hback]
      rfl
    exact fun e e' he he' => (hstory e he).symm.trans (hstory e' he')
  exits := by
    intro y hy hstands
    have hstory : ∀ e, Greatest Change.rank (Gives y) evs e → Change.story (lastBy (Gives y) evs) = Change.story (some e) := by
      intro e he
      obtain ⟨front, back, hsame, hback, hout⟩ := h e he.mem
      rw [((hsame.out_eq_iff hfree).mp hout).2 y (mem_exits.mpr ⟨hy, hstands⟩),
        lastBy_of_greatest (he.perm hsame.perm) hback]
    intro e e' he he'
    have heq := (hstory e he).symm.trans (hstory e' he')
    simpa [Change.story] using heq

end Outs

/-! ## The replay -/

/-- The records of one number after `scn`. -/
def group (scn : ℕ) (changes : List Change) (n : ℕ) : List Change :=
  (changes.filter fun c => scn < c.scn).filter fun c => c.scn = n

/-- The numbers of the commits after `scn`. -/
def numbers (scn : ℕ) (changes : List Change) : List ℕ :=
  inOrder ((changes.filter fun c => scn < c.scn).map Change.scn).toFinset

theorem txns_eq (scn : ℕ) (changes : List Change) :
    txns scn changes = (numbers scn changes).map fun n => (n, group scn changes n) := rfl

theorem numbers_perm {scn : ℕ} {changes changes' : List Change} (h : changes.Perm changes') :
    numbers scn changes = numbers scn changes' := by
  unfold numbers
  rw [List.toFinset_eq_of_perm _ _ ((h.filter _).map _)]

theorem group_perm {scn n : ℕ} {changes changes' : List Change} (h : changes.Perm changes') :
    (group scn changes n).Perm (group scn changes' n) := (h.filter _).filter _

theorem tyRank_inj {a b : Char} (ha : a = 'I' ∨ a = 'U' ∨ a = 'D') (hb : b = 'I' ∨ b = 'U' ∨ b = 'D')
    (h : tyRank a = tyRank b) : a = b := by
  revert h
  rcases ha with rfl | rfl | rfl <;> rcases hb with rfl | rfl | rfl <;> decide

/-- The records are told apart within their commit by time, kind and row. -/
def ToldApart (changes : List Change) : Prop :=
  changes.Pairwise fun e e' => ¬ (e.scn = e'.scn ∧ e.ts = e'.ts ∧ e.ty = e'.ty ∧ e.key = e'.key)

theorem ToldApart.perm {changes changes' : List Change} (h : ToldApart changes) (hperm : changes.Perm changes') :
    ToldApart changes' :=
  (hperm.pairwise_iff fun hne heq => hne ⟨heq.1.symm, heq.2.1.symm, heq.2.2.1.symm, heq.2.2.2.symm⟩).mp h

section Replay

variable {anchor : Anchor} {changes changes' : List Change} {snap : Snapshot}

theorem ToldApart.commitOrder (h : ToldApart changes) (hkinds : ∀ e ∈ changes, e.ty = 'I' ∨ e.ty = 'U' ∨ e.ty = 'D')
    (scn n : ℕ) : CommitOrder (sortChanges (group scn changes n)) := by
  have hsorted : (sortChanges (group scn changes n)).Pairwise fun a b => a.rank ≤ b.rank := List.pairwise_insertionSort _ _
  have happart : ToldApart (sortChanges (group scn changes n)) :=
    ToldApart.perm ((List.Pairwise.filter _ h).filter _) (List.perm_insertionSort _ _).symm
  have hmem : ∀ e ∈ sortChanges (group scn changes n), e ∈ changes ∧ e.scn = n := by
    intro e he
    have he' := List.mem_filter.mp ((List.perm_insertionSort _ _).mem_iff.mp he)
    exact ⟨(List.mem_filter.mp he'.1).1, of_decide_eq_true he'.2⟩
  refine ⟨hsorted, (hsorted.and happart).imp_of_mem ?_⟩
  intro e e' he he' hboth hkey
  obtain ⟨hin, hscn⟩ := hmem e he
  obtain ⟨hin', hscn'⟩ := hmem e' he'
  refine lt_of_le_of_ne hboth.1 fun hrank => hboth.2 ?_
  obtain ⟨hts, hty⟩ := Prod.mk.inj (toLex.injective hrank)
  exact ⟨hscn.trans hscn'.symm, hts, tyRank_inj (hkinds e hin) (hkinds e' hin') hty, hkey⟩

theorem group_of_step {step : Step} (hstep : step ∈ replaySteps anchor changes snap) {evs : List Change}
    (hop : step.op = .commit evs) : ∃ n, evs = sortChanges (group anchor.scn changes n) := by
  have hmem : evs ∈ ((replaySteps anchor changes snap).map Step.op).filterMap Op.commit? :=
    List.mem_filterMap.mpr ⟨_, List.mem_map_of_mem hstep, by rw [hop]; rfl⟩
  rw [replaySteps_commit, txns_eq, List.map_map] at hmem
  obtain ⟨n, -, rfl⟩ := List.mem_map.mp hmem
  exact ⟨n, rfl⟩

theorem mem_of_commit {step : Step} (hstep : step ∈ replaySteps anchor changes snap) {evs : List Change}
    (hop : step.op = .commit evs) {e : Change} (he : e ∈ evs) : e ∈ changes ∧ anchor.scn < e.scn := by
  obtain ⟨n, rfl⟩ := group_of_step hstep hop
  have hgroup := (List.mem_filter.mp ((List.perm_insertionSort _ _).mem_iff.mp he)).1
  exact ⟨(List.mem_filter.mp hgroup).1, of_decide_eq_true (List.mem_filter.mp hgroup).2⟩

theorem group_concat {scn n : ℕ} {e : Change} (hnew : scn < e.scn) (hn : e.scn = n) :
    group scn (changes ++ [e]) n = group scn changes n ++ [e] := by
  subst hn
  unfold group
  rw [List.filter_append, List.filter_append]
  simp [hnew]

variable (hkinds : ∀ e ∈ changes, e.ty = 'I' ∨ e.ty = 'U' ∨ e.ty = 'D') (happart : ToldApart changes)
include hkinds happart

theorem sameRecords (hperm : changes.Perm changes') (scn n : ℕ) :
    SameRecords (sortChanges (group scn changes n)) (sortChanges (group scn changes' n)) where
  perm := (List.perm_insertionSort _ _).trans ((group_perm hperm).trans (List.perm_insertionSort _ _).symm)
  left := happart.commitOrder hkinds scn n
  right := (happart.perm hperm).commitOrder (fun e he => hkinds e (hperm.mem_iff.mpr he)) scn n

/-- **The replays of two orders run in step.** -/
theorem replaySteps_same (hperm : changes.Perm changes') :
    List.Forall₂ (SameStep anchor.asOf snap) (replaySteps anchor changes snap) (replaySteps anchor changes' snap) := by
  unfold replaySteps
  rw [txns_eq, txns_eq, ← numbers_perm hperm, List.map_map, List.map_map]
  refine runOps_same (replayOps_same ?_ _) _
  rw [List.forall₂_map_left_iff, List.forall₂_map_right_iff]
  exact List.forall₂_same.mpr fun n _ => sameRecords hkinds happart hperm anchor.scn n

theorem replay_eq_iff (hperm : changes.Perm changes') : replay anchor changes' snap = replay anchor changes snap ↔
    List.Forall₂ (fun a b => SameStep anchor.asOf snap a b ∧ a.out = b.out) (replaySteps anchor changes snap)
      (replaySteps anchor changes' snap) := by
  have hsteps : List.Forall₂ (SameStep anchor.asOf snap) (replaySteps anchor changes snap) (replaySteps anchor changes' snap) :=
    replaySteps_same hkinds happart hperm
  have hcursor := endCursor_same hsteps (startCursor anchor)
  have hscn : (changes'.map Change.scn).max? = (changes.map Change.scn).max? := by
    ext n
    rw [List.max?_eq_some_iff, List.max?_eq_some_iff]
    simp only [(hperm.map Change.scn).mem_iff]
  have hcount : (txns anchor.scn changes').map (fun g => g.2.length) = (txns anchor.scn changes).map fun g => g.2.length := by
    rw [txns_eq, txns_eq, List.map_map, List.map_map, numbers_perm hperm]
    exact List.map_congr_left fun n _ => (group_perm hperm).length_eq.symm
  have hlength : (txns anchor.scn changes').length = (txns anchor.scn changes).length := by
    rw [txns_eq, txns_eq, List.length_map, List.length_map, numbers_perm hperm]
  rw [← flatMap_out_iff hsteps]
  unfold replay
  simp only [hcursor, hscn, hcount, hlength, Replay.mk.injEq, List.append_cancel_right_eq, and_true]
  exact eq_comm

/-- A replay that does not depend on the order writes the same of a commit when one of its records comes last. -/
theorem out_eq_last (hall : ∀ changes', changes'.Perm changes → replay anchor changes' snap = replay anchor changes snap)
    {step : Step} (hstep : step ∈ replaySteps anchor changes snap) {evs : List Change} (hop : step.op = .commit evs)
    {e : Change} (he : e ∈ evs) : ∃ front back, SameRecords evs (front ++ e :: back) ∧ (∀ b ∈ back, e.rank < b.rank) ∧
      (applyCommit anchor.asOf evs step.before).1 = (applyCommit anchor.asOf (front ++ e :: back) step.before).1 := by
  obtain ⟨hin, hnew⟩ := mem_of_commit hstep hop he
  have hperm : changes.Perm (changes.erase e ++ [e]) :=
    (List.perm_cons_erase hin).trans (List.perm_append_singleton e _).symm
  obtain ⟨hlength, hget⟩ := List.forall₂_iff_get.mp ((replay_eq_iff hkinds happart hperm).mp (hall _ hperm.symm))
  obtain ⟨i, rfl⟩ := List.mem_iff_get.mp hstep
  obtain ⟨hsame, hout⟩ := hget i i.2 (hlength ▸ i.2)
  have hstep' := List.get_mem (replaySteps anchor (changes.erase e ++ [e]) snap) ⟨i, hlength ▸ i.2⟩
  generalize (replaySteps anchor (changes.erase e ++ [e]) snap).get ⟨i, hlength ▸ i.2⟩ = step' at hsame hout hstep'
  obtain ⟨evs', hop', hrecords⟩ := hsame.op.of_commit hop
  have hwrites : (applyCommit anchor.asOf evs step'.before).1 = (applyCommit anchor.asOf evs' step'.before).1 := by
    have hleft := hsame.out
    have hright := hsame.out'
    rw [hop, hsame.before] at hleft
    rw [hop'] at hright
    exact hleft.symm.trans (hout.trans hright)
  obtain ⟨n, rfl⟩ := group_of_step hstep' hop'
  have hn : e.scn = n := by
    have he' := (List.perm_insertionSort _ _).mem_iff.mp (hrecords.perm.mem_iff.mp he)
    exact of_decide_eq_true (List.mem_filter.mp he').2
  obtain ⟨front, back, heq, hback⟩ := insertionSort_concat Change.rank (group anchor.scn (changes.erase e) n) e
  have hgroup : sortChanges (group anchor.scn (changes.erase e ++ [e]) n) = front ++ e :: back := by
    rw [group_concat hnew hn]
    exact heq
  rw [hgroup] at hrecords hwrites
  rw [hsame.before]
  exact ⟨front, back, hrecords, hback, hwrites⟩

/-- **The replay does not depend on the order of the records exactly when every commit tells one story.** -/
theorem replay_perm_iff :
    (∀ changes', changes'.Perm changes → replay anchor changes' snap = replay anchor changes snap) ↔
      ∀ step ∈ replaySteps anchor changes snap, ∀ evs, step.op = .commit evs → OneStory step.before.cur evs := by
  constructor
  · intro hall step hstep evs hop
    obtain ⟨htracks, -, -⟩ := runOps_spec (tracks_start anchor) step hstep
    exact oneStory_of_out_eq htracks fun e he => out_eq_last hkinds happart hall hstep hop he
  · intro hone changes' hperm
    refine (replay_eq_iff hkinds happart hperm.symm).mpr ?_
    have hsteps : List.Forall₂ (SameStep anchor.asOf snap) (replaySteps anchor changes snap)
        (replaySteps anchor changes' snap) := replaySteps_same hkinds happart hperm.symm
    have htells : ∀ step ∈ replaySteps anchor changes snap, Tracks step.before ∧
        ∀ evs, step.op = .commit evs → OneStory step.before.cur evs := fun step hstep =>
      ⟨(runOps_spec (tracks_start anchor) step hstep).1, hone step hstep⟩
    refine List.Forall₂.imp ?_ ((List.forall₂_and_left _ _).mpr ⟨htells, hsteps⟩)
    intro a b ⟨⟨htracks, hone⟩, hsame⟩
    refine ⟨hsame, ?_⟩
    rw [hsame.out, hsame.out', ← hsame.before]
    obtain ⟨op, before, out, after⟩ := a
    obtain ⟨op', before', out', after'⟩ := b
    cases hsame.op with
    | logon l => rfl
    | commit h => exact h.out_eq htracks (hone _ rfl)

end Replay

/-- T1 is given two boxes in one commit, both at the same instant. -/
def sameInstant : List Change := [recordT1 10 'U' "C1" "A" "first", recordT1 10 'U' "C2" "A" "second"]

def freeAnchor : Anchor := ⟨0, withT1 [], 0, 0, some ⟨∅, ∅⟩⟩

def bothSnap : Snapshot := ⟨100, withT1 [(("C1", "1", "1"), ⟨some "T1", "A"⟩), (("C2", "1", "1"), ⟨some "T1", "A"⟩)], ∅, ∅⟩

theorem sameInstant_apart : ToldApart sameInstant := by
  unfold ToldApart
  decide

/-- The two boxes do not tell one story: in the other order the exit of T1 names the other one. -/
theorem replay_perm_iff_two : ¬ ∀ step ∈ replaySteps freeAnchor sameInstant bothSnap, ∀ evs, step.op = .commit evs →
    OneStory step.before.cur evs := by
  intro hone
  have hall := (replay_perm_iff (by decide) sameInstant_apart).mpr hone
  have heq := congrArg Replay.transitions (hall sameInstant.reverse (List.reverse_perm _))
  exact absurd heq (by decide +kernel)

/-- In one order T1 leaves the list for C2, in the other one for C1. -/
theorem replay_order_matters : (∀ e ∈ sameInstant, e.ty = 'I' ∨ e.ty = 'U' ∨ e.ty = 'D') ∧ ToldApart sameInstant ∧
    sameInstant.reverse.Perm sameInstant ∧
    ((replay freeAnchor sameInstant bothSnap).transitions.map Transition.contno = [some "C2"] ∧
      (replay freeAnchor sameInstant.reverse bothSnap).transitions.map Transition.contno = [some "C1"]) :=
  ⟨by decide, sameInstant_apart, List.reverse_perm _, by decide +kernel⟩

end TtAiops.TosAvail
