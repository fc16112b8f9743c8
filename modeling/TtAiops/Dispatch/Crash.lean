import TtAiops.Dispatch.Tick

/-!
# Crashes, and the holds restored after them

The holds in memory and the rows of `dispatch_sent` are written one after the other; every write and every close may
fail, and the process may stop in between.

* `Backs`, `Old`, `TableInv` : every hold has its open row, or is so old that the row was pruned;
* `tableInv_close`, `tableInv_write`, `tableInv_applied`, `tableInv_restored` : what each step does to the invariant;
* `tick_tableInv` : every effect of a tick keeps it;
* `restore_keeps` : the restore holds a truck by the row of its hold, or by one that is dated no earlier;
* `crash_consistent` : **in every reachable state the young holds have open rows, and a restart restores them**;
* `restart_forgets` : an hour later the hold is gone, and within a millisecond an older row can win.
-/

namespace TtAiops.Dispatch
open TtAiops.Lib

/-- The record is the open row of the hold of truck `yt`. -/
structure Backs (yt : String) (h : Hold) (r : SentRecord) : Prop where
  isOpen : r.released = none
  msgId : r.msgId = h.msgId
  ytno : r.ytno = yt
  contno : r.contno = h.contno
  kind : r.kind = h.kind
  sentMs : h.sentMs = millis r.writtenUs ∨ h.sentMs = roundMs r.writtenUs

/-- The row of a hold that is so old may be pruned. -/
def Old (clock : ℤ) (h : Hold) : Prop := h.sentMs * 1000 < clock - 21 * 86400000000 + 500

/-- The hold is not older than the restore window. -/
def Young (clock : ℤ) (h : Hold) : Prop := millis clock - h.sentMs ≤ RESTORE_MAX_AGE_MS

theorem Young.not_old {clock : ℤ} {h : Hold} (hy : Young clock h) : ¬ Old clock h := by
  unfold Young millis RESTORE_MAX_AGE_MS at hy
  unfold Old
  omega

/-- The table has every drawn id at most once, and every hold has an open row there or is old. -/
structure TableInv (uuid : ℕ → String) (st : Loop) : Prop where
  own : OwnIds uuid st.next st.held
  drawn : ∀ r ∈ st.table, Drawn uuid st.next r.msgId
  nodup : (st.table.map SentRecord.msgId).Nodup
  fresh : st.restored = false → st.held = ∅
  backed : ∀ yt h, st.held.lookup yt = some h → (∃ r ∈ st.table, Backs yt h r) ∨ Old st.clock h

section Steps

variable {uuid : ℕ → String} {st : Loop}

theorem ownIds_empty (uuid : ℕ → String) (n : ℕ) : OwnIds uuid n ∅ :=
  ⟨fun _ _ hl => by simp at hl, fun _ _ _ _ hl => by simp at hl⟩

theorem TableInv.clear (hinv : TableInv uuid st) (restored : Bool) :
    TableInv uuid { st with held := ∅, restored := restored } :=
  ⟨ownIds_empty uuid st.next, hinv.drawn, hinv.nodup, fun _ => rfl, fun _ _ hl => by simp at hl⟩

/-! ## The close of rows -/

theorem closeRecord_msgId (closes : List (String × String)) (r : SentRecord) :
    (closeRecord closes r).msgId = r.msgId := by
  unfold closeRecord
  split <;> rfl

theorem map_msgId_closeSent (closes : List (String × String)) (table : List SentRecord) :
    (closeSent closes table).map SentRecord.msgId = table.map SentRecord.msgId := by
  unfold closeSent
  rw [List.map_map]
  exact List.map_congr_left fun r _ => closeRecord_msgId closes r

theorem closeRecord_of_notMem {closes : List (String × String)} {r : SentRecord} (h : ∀ c ∈ closes, r.msgId ≠ c.1) :
    closeRecord closes r = r := by
  unfold closeRecord
  cases hr : r.released with
  | some why => rfl
  | none =>
    have hfind : (closes.find? fun c => c.1 = r.msgId) = none := by
      rw [List.find?_eq_none]
      intro c hc he
      exact h c hc (of_decide_eq_true he).symm
    simp only [hfind, Option.map_none]
    rw [← hr]

/-- A close of rows that are not those of holds keeps the invariant. -/
theorem tableInv_close (hinv : TableInv uuid st) {closes : List (String × String)} (ok : Bool)
    (hno : ∀ c ∈ closes, ∀ yt h, st.held.lookup yt = some h → h.msgId ≠ c.1) : TableInv uuid (st.close ok closes) := by
  cases ok with
  | false => exact hinv
  | true =>
    refine ⟨hinv.own, fun r hr => ?_, ?_, hinv.fresh, fun yt h hl => ?_⟩
    · obtain ⟨r', hr', rfl⟩ := List.mem_map.mp hr
      rw [closeRecord_msgId]
      exact hinv.drawn r' hr'
    · change ((closeSent closes st.table).map SentRecord.msgId).Nodup
      rw [map_msgId_closeSent]
      exact hinv.nodup
    · rcases hinv.backed yt h hl with ⟨r, hr, hb⟩ | hold
      · refine Or.inl ⟨r, List.mem_map.mpr ⟨r, hr, closeRecord_of_notMem fun c hc he => ?_⟩, hb⟩
        exact hno c hc yt h hl (hb.msgId.symm.trans he)
      · exact Or.inr hold

/-! ## The write -/

theorem Old.mono {clock clock' : ℤ} {h : Hold} (hold : Old clock h) (hle : clock ≤ clock') : Old clock' h := by
  unfold Old at hold ⊢
  omega

theorem map_msgId_writeSent (rows : List SentRow) (us : ℤ) (n : ℕ) :
    (writeSent rows (newIds uuid n rows.length) us).map SentRecord.msgId = newIds uuid n rows.length := by
  unfold writeSent
  rw [List.map_map]
  exact List.map_snd_zip (by simp [newIds])

theorem mem_newIds {n k : ℕ} {id : String} (h : id ∈ newIds uuid n k) : ∃ m, n ≤ m ∧ m < n + k ∧ id = uuid m := by
  obtain ⟨m, hm, rfl⟩ := List.mem_map.mp h
  obtain ⟨h1, h2⟩ := List.mem_range'_1.mp hm
  exact ⟨m, h1, h2, rfl⟩

theorem tableInv_write (huuid : Function.Injective uuid) (hinv : TableInv uuid st) (rows : List SentRow) {us : ℤ}
    (hus : st.clock ≤ us) : TableInv uuid (st.write uuid rows us) := by
  have hle : st.next ≤ st.next + rows.length := Nat.le_add_right _ _
  refine ⟨hinv.own.mono hle, fun r hr => ?_, ?_, hinv.fresh, fun yt h hl => ?_⟩
  · rcases List.mem_append.mp hr with hr | hr
    · exact (hinv.drawn r hr).mono hle
    · have hid : r.msgId ∈ newIds uuid st.next rows.length := by
        rw [← map_msgId_writeSent rows us st.next]
        exact List.mem_map_of_mem hr
      obtain ⟨m, -, hm, he⟩ := mem_newIds hid
      exact ⟨m, hm, he⟩
  · change ((st.table ++ writeSent rows (newIds uuid st.next rows.length) us).map SentRecord.msgId).Nodup
    rw [List.map_append, map_msgId_writeSent]
    refine hinv.nodup.append (List.Nodup.map huuid List.nodup_range') fun id hid hid' => ?_
    obtain ⟨r, hr, rfl⟩ := List.mem_map.mp hid
    obtain ⟨k, hk, he⟩ := hinv.drawn r hr
    obtain ⟨m, hm, -, he'⟩ := mem_newIds hid'
    exact absurd (huuid (he.symm.trans he')) (by omega)
  · rcases hinv.backed yt h hl with ⟨r, hr, hb⟩ | hold
    · exact Or.inl ⟨r, List.mem_append_left _ hr, hb⟩
    · exact Or.inr (hold.mono hus)

/-- The holds of the rows that were written have them as open rows, and the rows to close are those of replaced
holds. -/
theorem tableInv_applied (huuid : Function.Injective uuid) (hinv : TableInv uuid st) (hrest : st.restored = true)
    (rows : List SentRow) {us : ℤ} (hus : st.clock ≤ us) :
    TableInv uuid { st.write uuid rows us with held := (st.applied uuid rows us).1 } ∧
      ∀ c ∈ (st.applied uuid rows us).2.getD [], ∀ yt h,
        (st.applied uuid rows us).1.lookup yt = some h → h.msgId ≠ c.1 := by
  have hwrite := tableInv_write huuid hinv rows hus
  obtain ⟨hown, hdrop⟩ := applyRows_ids huuid (millis us) rows st.next (st.held, []) hinv.own
    fun c hc => absurd hc List.not_mem_nil
  refine ⟨⟨hown, hwrite.drawn, hwrite.nodup, fun hno => ?_, fun yt h hl => ?_⟩, fun c hc => (hdrop c hc).2⟩
  · exact absurd (hno.symm.trans hrest) (by decide)
  · rcases lookup_applyRows _ _ hl with ⟨h1, -⟩ | ⟨x, hx, rfl, rfl⟩
    · exact hwrite.backed yt h h1
    · refine Or.inl ⟨⟨x.2, x.1.kind, x.1.ytno, x.1.contno, us, none⟩, List.mem_append_right _ ?_, ?_⟩
      · exact List.mem_map.mpr ⟨x, hx, rfl⟩
      · exact ⟨rfl, rfl, rfl, rfl, rfl, Or.inl rfl⟩

theorem tableInv_sendRows (huuid : Function.Injective uuid) (hinv : TableInv uuid st) (hrest : st.restored = true)
    (writtenAt : Option ℤ) (closeOk : Bool) (rows : List SentRow) :
    ∀ x ∈ sendRows uuid writtenAt closeOk rows st, TableInv uuid x.2 ∧ x.2.restored = true := by
  rcases sendRows_cases uuid writtenAt closeOk rows st with h | h | ⟨us, hus, -, h⟩ <;> rw [h]
  · exact fun x hx => absurd hx List.not_mem_nil
  · simpa using ⟨hinv, hrest⟩
  · obtain ⟨happlied, hno⟩ := tableInv_applied huuid hinv hrest rows hus
    simp only [List.mem_cons, List.not_mem_nil, or_false, forall_eq_or_imp, forall_eq, write_restored, close_restored]
    exact ⟨⟨tableInv_write huuid hinv rows hus, hrest⟩, ⟨happlied, hrest⟩, tableInv_close happlied closeOk hno, hrest⟩

/-! ## The release and the prune -/

theorem tableInv_released (hinv : TableInv uuid st) (hrest : st.restored = true) (asOf : Option ℤ)
    (listed : String → String → Bool) (busy : String → Hold → Bool) :
    TableInv uuid { st with held := (releaseHeld st.held asOf listed busy).1 } ∧
      ∀ c ∈ (releaseHeld st.held asOf listed busy).2, ∀ yt h,
        (releaseHeld st.held asOf listed busy).1.lookup yt = some h → h.msgId ≠ c.1 := by
  refine ⟨⟨hinv.own.retain fun yt h => (releaseWhy asOf listed busy yt h).isNone, hinv.drawn, hinv.nodup, fun hno => ?_,
    fun yt h hl => ?_⟩, ?_⟩
  · exact absurd (hno.symm.trans hrest) (by decide)
  · exact hinv.backed yt h (lookup_releaseHeld.mp hl).1
  · rintro ⟨id, why⟩ hc yt h hl he
    obtain ⟨yt', h', hl', hid, hwhy⟩ := mem_releaseHeld hc
    obtain ⟨hl, hstay⟩ := lookup_releaseHeld.mp hl
    obtain rfl := hinv.own.inj yt yt' h h' hl hl' (he.trans hid.symm)
    obtain rfl : h = h' := Option.some.inj (hl.symm.trans hl')
    rw [hstay] at hwhy
    exact absurd hwhy (by simp)

theorem tableInv_pruned (hinv : TableInv uuid st) {us : ℤ} (hus : st.clock ≤ us) :
    TableInv uuid { st with table := st.table.filter fun r => us - 21 * 86400000000 ≤ r.writtenUs, clock := us } := by
  refine ⟨hinv.own, fun r hr => hinv.drawn r (List.mem_filter.mp hr).1, ?_, hinv.fresh, fun yt h hl => ?_⟩
  · exact hinv.nodup.sublist (List.filter_sublist.map _)
  · rcases hinv.backed yt h hl with ⟨r, hr, hb⟩ | hold
    · by_cases hkeep : us - 21 * 86400000000 ≤ r.writtenUs
      · exact Or.inl ⟨r, List.mem_filter.mpr ⟨hr, decide_eq_true hkeep⟩, hb⟩
      · right
        have hsent := hb.sentMs
        unfold millis roundMs at hsent
        change h.sentMs * 1000 < us - 21 * 86400000000 + 500
        omega
    · exact Or.inr (hold.mono hus)

/-! ## The restore -/

/-- The rows that a restore closes are not those it holds trucks by. -/
theorem restoreRows_dropped (nowMs : ℤ) (rows : List OpenSent) :
    ∀ acc : Held × List (String × String), (rows.map OpenSent.msgId).Nodup →
      (∀ o ∈ rows, (∀ c ∈ acc.2, o.msgId ≠ c.1) ∧ ∀ yt h, acc.1.lookup yt = some h → h.msgId ≠ o.msgId) →
      (∀ c ∈ acc.2, ∀ yt h, acc.1.lookup yt = some h → h.msgId ≠ c.1) →
      ∀ c ∈ (rows.foldl (restoreRow nowMs) acc).2, ∀ yt h,
        (rows.foldl (restoreRow nowMs) acc).1.lookup yt = some h → h.msgId ≠ c.1 := by
  induction rows with
  | nil => exact fun acc _ _ hacc => hacc
  | cons o rows ih =>
    intro acc hnodup hnew hacc
    rw [List.map_cons, List.nodup_cons] at hnodup
    obtain ⟨hout, hnodup⟩ := hnodup
    obtain ⟨⟨hoc, hoh⟩, hnew⟩ := List.forall_mem_cons.mp hnew
    have hne : ∀ x ∈ rows, x.msgId ≠ o.msgId := fun x hx he => hout (he ▸ List.mem_map_of_mem hx)
    -- a row that is closed adds its id to the closes and leaves the holds
    have hclosed : ∀ why, (∀ x ∈ rows, (∀ c ∈ acc.2 ++ [(o.msgId, why)], x.msgId ≠ c.1) ∧
        ∀ yt h, acc.1.lookup yt = some h → h.msgId ≠ x.msgId) ∧
        ∀ c ∈ acc.2 ++ [(o.msgId, why)], ∀ yt h, acc.1.lookup yt = some h → h.msgId ≠ c.1 := by
      refine fun why => ⟨fun x hx => ⟨fun c hc => ?_, (hnew x hx).2⟩, fun c hc => ?_⟩
      · rcases List.mem_append.mp hc with hc | hc
        · exact (hnew x hx).1 c hc
        · rw [List.mem_singleton.mp hc]
          exact hne x hx
      · rcases List.mem_append.mp hc with hc | hc
        · exact hacc c hc
        · rw [List.mem_singleton.mp hc]
          exact hoh
    rw [List.foldl_cons]
    unfold restoreRow
    split_ifs
    · exact ih _ hnodup (hclosed _).1 (hclosed _).2
    · exact ih _ hnodup (hclosed _).1 (hclosed _).2
    · have hins : ∀ yt h, (acc.1.insert o.ytno ⟨o.contno, o.sentMs, o.msgId, o.kind⟩).lookup yt = some h →
          acc.1.lookup yt = some h ∨ h.msgId = o.msgId := by
        intro yt h hl
        by_cases he : yt = o.ytno
        · subst he
          rw [AList.lookup_insert] at hl
          exact Or.inr (Option.some.inj hl ▸ rfl)
        · rw [AList.lookup_insert_ne he] at hl
          exact Or.inl hl
      refine ih _ hnodup (fun x hx => ⟨(hnew x hx).1, fun yt h hl => ?_⟩) fun c hc yt h hl => ?_
      · rcases hins yt h hl with hl | he
        · exact (hnew x hx).2 yt h hl
        · rw [he]
          exact (hne x hx).symm
      · rcases hins yt h hl with hl | he
        · exact hacc c hc yt h hl
        · rw [he]
          exact hoc c hc

theorem map_msgId_loadOpenSent (table : List SentRecord) :
    (loadOpenSent table).map OpenSent.msgId = (table.filter fun r => r.released.isNone).map SentRecord.msgId := by
  unfold loadOpenSent
  rw [List.map_map]
  rfl

theorem nodup_loadOpenSent {table : List SentRecord} (h : (table.map SentRecord.msgId).Nodup) :
    ((loadOpenSent table).map OpenSent.msgId).Nodup := by
  rw [map_msgId_loadOpenSent]
  exact h.sublist (List.filter_sublist.map _)

theorem eq_of_msgId {table : List SentRecord} (h : (table.map SentRecord.msgId).Nodup) {r r' : SentRecord}
    (hr : r ∈ table) (hr' : r' ∈ table) (he : r.msgId = r'.msgId) : r = r' :=
  List.inj_on_of_nodup_map h hr hr' he

theorem restored_backs {table : List SentRecord} {nowMs : ℤ} {yt : String} {h : Hold}
    (hl : (((loadOpenSent table).insertionSort restoreOrder).foldl (restoreRow nowMs) (∅, [])).1.lookup yt = some h) :
    ∃ r ∈ table, Backs yt h r ∧ h.sentMs = roundMs r.writtenUs := by
  obtain ⟨o, ⟨front, back, hrows, -⟩, rfl, rfl⟩ := (lookup_restoreRows nowMs _ yt h).mp hl
  have ho : o ∈ loadOpenSent table := by
    rw [← List.mem_insertionSort restoreOrder, hrows]
    simp
  obtain ⟨r, hr, hopen, rfl⟩ := mem_loadOpenSent.mp ho
  exact ⟨r, hr, ⟨hopen, rfl, rfl, rfl, rfl, Or.inr rfl⟩, rfl⟩

theorem tableInv_restored (hinv : TableInv uuid st) (hrest : st.restored = false) {nowMs : ℤ} {held : Held}
    {closes : List (String × String)}
    (h : restoreHolds (some (loadOpenSent st.table)) nowMs = some (held, closes)) (ok : Bool) :
    TableInv uuid (st.close ok closes) ∧
      TableInv uuid { st.close ok closes with held := held, restored := true } := by
  obtain ⟨hheld, hcloses⟩ := Prod.mk.inj (Option.some.inj h)
  have hsorted : (((loadOpenSent st.table).insertionSort restoreOrder).map OpenSent.msgId).Nodup :=
    (((List.perm_insertionSort restoreOrder _).map _).nodup_iff).mpr (nodup_loadOpenSent hinv.nodup)
  have hno : ∀ c ∈ closes, ∀ yt h, held.lookup yt = some h → h.msgId ≠ c.1 := by
    intro c hc
    rw [← hcloses, List.mem_insertionSort] at hc
    rw [← hheld]
    exact restoreRows_dropped nowMs _ (∅, []) hsorted (fun o _ => ⟨by simp, by simp⟩) (by simp) c hc
  have hempty : TableInv uuid (st.close ok closes) :=
    tableInv_close hinv ok fun c _ yt h hl => by simp [hinv.fresh hrest] at hl
  -- with the holds over the table as it was, and then the close
  have hbacked : TableInv uuid { st with held := held, restored := true } := by
    refine ⟨⟨fun yt h hl => ?_, fun yt yt' h h' hl hl' he => ?_⟩, hinv.drawn, hinv.nodup,
      fun hno => by simp at hno, fun yt h hl => ?_⟩ <;> rw [← hheld] at hl
    · obtain ⟨r, hr, hb, -⟩ := restored_backs hl
      rw [← hb.msgId]
      exact hinv.drawn r hr
    · rw [← hheld] at hl'
      obtain ⟨r, hr, hb, -⟩ := restored_backs hl
      obtain ⟨r', hr', hb', -⟩ := restored_backs hl'
      obtain rfl := eq_of_msgId hinv.nodup hr hr' (hb.msgId.trans (he.trans hb'.msgId.symm))
      exact hb.ytno.symm.trans hb'.ytno
    · obtain ⟨r, hr, hb, -⟩ := restored_backs hl
      exact Or.inl ⟨r, hr, hb⟩
  refine ⟨hempty, ?_⟩
  have hclosed := tableInv_close hbacked ok hno
  unfold Loop.close at hclosed ⊢
  split_ifs at hclosed ⊢ <;> exact hclosed

/-- Without the switch the open rows are cancelled before the first tick, when there are no holds, and all holds are
dropped. -/
theorem cancelled_tableInv (hinv : TableInv uuid st) (inp : TickIn) :
    ∀ x ∈ (restoreStage false inp st).1, TableInv uuid x.2 := by
  have hmap : (st.table.map cancel).map SentRecord.msgId = st.table.map SentRecord.msgId := by
    rw [List.map_map]
    refine List.map_congr_left fun r _ => ?_
    simp only [Function.comp, cancel]
    split_ifs <;> rfl
  have hcancelled : TableInv uuid (if !st.restored && inp.openOk then
      { st with table := st.table.map cancel, restored := true } else st) := by
    split_ifs with hcancel
    · have hempty : st.held = ∅ := hinv.fresh (by simpa using (Bool.and_eq_true_iff.mp hcancel).1)
      refine ⟨hinv.own, fun r hr => ?_, by rw [hmap]; exact hinv.nodup, fun _ => hempty, fun yt h hl => ?_⟩
      · have hid : r.msgId ∈ st.table.map SentRecord.msgId := hmap ▸ List.mem_map_of_mem hr
        obtain ⟨r', hr', he⟩ := List.mem_map.mp hid
        exact he ▸ hinv.drawn r' hr'
      · rw [hempty] at hl
        simp at hl
    · exact hinv
  simp only [restoreStage, Bool.false_eq_true, if_false, List.mem_cons, List.not_mem_nil, or_false, forall_eq_or_imp,
    forall_eq]
  exact ⟨hcancelled, hcancelled.clear _⟩

/-- What holds behind the restore stage: the holds are restored, where they are used. -/
def RestoredInv (uuid : ℕ → String) (holdSent : Bool) (st : Loop) : Prop :=
  TableInv uuid st ∧ (holdSent = true → st.restored = true)

theorem restoredInv_send (huuid : Function.Injective uuid) {holdSent : Bool} (hst : RestoredInv uuid holdSent st)
    (writtenAt : Option ℤ) (closeOk : Bool) (rows : List SentRow) :
    ∀ x ∈ if holdSent then sendRows uuid writtenAt closeOk rows st else [], RestoredInv uuid holdSent x.2 := by
  cases holdSent with
  | true =>
    intro x hx
    obtain ⟨h1, h2⟩ := tableInv_sendRows huuid hst.1 (hst.2 rfl) writtenAt closeOk rows x hx
    exact ⟨h1, fun _ => h2⟩
  | false => exact fun x hx => absurd hx List.not_mem_nil

theorem restoredInv_prune {holdSent : Bool} (inp : TickIn) (hst : RestoredInv uuid holdSent st) :
    ∀ x ∈ (pruneStage inp st).1, RestoredInv uuid holdSent x.2 := by
  rcases pruneStage_cases inp st with h | ⟨us, hus, h⟩ <;> rw [h]
  · exact fun x hx => absurd hx List.not_mem_nil
  · simp only [List.mem_singleton, forall_eq]
    exact ⟨tableInv_pruned hst.1 hus, hst.2⟩

theorem restoredInv_release {holdSent : Bool} (inp : TickIn) (hst : RestoredInv uuid holdSent st) :
    ∀ x ∈ (releaseStage holdSent inp st).1, RestoredInv uuid holdSent x.2 := by
  unfold releaseStage
  cases holdSent with
  | true =>
    obtain ⟨hreleased, hno⟩ := tableInv_released hst.1 (hst.2 rfl) (listAsOfMs inp)
      (fun yt c => (inp.redir.lookup yt).join == some c) fun yt h => truckBusyAfter (sigOf inp yt) h.kind h.sentMs
    simp only [if_true, List.mem_cons, List.not_mem_nil, or_false, forall_eq_or_imp, forall_eq]
    refine ⟨⟨hreleased, fun _ => hst.2 rfl⟩, tableInv_close hreleased inp.releaseClose hno, fun _ => ?_⟩
    rw [close_restored]
    exact hst.2 rfl
  | false => exact fun x hx => absurd hx List.not_mem_nil

/-- **Every effect of a tick keeps the invariant**, whether sent instructions are held or not. -/
theorem tick_tableInv (huuid : Function.Injective uuid) (holdSent : Bool) (inp : TickIn) (hinv : TableInv uuid st) :
    ∀ x ∈ tick uuid holdSent inp st, TableInv uuid x.2 := by
  have htail : ∀ st, RestoredInv uuid holdSent st →
      ∀ x ∈ runStages [readStage inp, swapStage uuid holdSent inp, pruneStage inp, poolStage inp,
        releaseStage holdSent inp, assignStage uuid holdSent inp] st, TableInv uuid x.2 := by
    intro st hst x hx
    refine (runStages_inv (P := RestoredInv uuid holdSent) ?_ hst x hx).1
    simp only [List.mem_cons, List.not_mem_nil, or_false, forall_eq_or_imp, forall_eq]
    exact ⟨fun _ _ x hx => absurd hx List.not_mem_nil, fun st hst => restoredInv_send huuid hst _ _ _,
      fun st hst => restoredInv_prune inp hst, fun _ _ x hx => absurd hx List.not_mem_nil,
      fun st hst => restoredInv_release inp hst, fun st hst => restoredInv_send huuid hst _ _ _⟩
  refine runStages_inv_cons (f := gateStage inp) (Q := TableInv uuid) (R := TableInv uuid)
    (fun _ _ x hx => absurd hx List.not_mem_nil) (fun _ hst _ => hst) (fun st hst => ?_) hinv
  refine runStages_inv_cons (f := restoreStage holdSent inp) (Q := TableInv uuid) (fun st hst => ?_)
    (fun st hst hgo => ?_) htail hst
  · cases holdSent with
    | true =>
      rcases restoreStage_cases inp st with ⟨-, h⟩ | ⟨-, h⟩ | ⟨held, closes, hrest, hrestore, h⟩ <;> rw [h]
      · exact fun x hx => absurd hx List.not_mem_nil
      · exact fun x hx => absurd hx List.not_mem_nil
      · simpa using tableInv_restored hst hrest hrestore inp.restoreClose
    | false => exact cancelled_tableInv hst inp
  · cases holdSent with
    | true =>
      rcases restoreStage_cases inp st with ⟨hrest, h⟩ | ⟨-, h⟩ | ⟨held, closes, hrest, hrestore, h⟩
      · rw [h]
        exact ⟨hst, fun _ => hrest⟩
      · rw [h] at hgo
        exact absurd hgo (by decide)
      · rw [h]
        exact ⟨(tableInv_restored hst hrest hrestore inp.restoreClose).2, fun _ => rfl⟩
    | false =>
      exact ⟨lastState_of_forall hst (cancelled_tableInv hst inp), fun h => absurd h (by decide)⟩

/-! ## What a restart restores -/

instance : Std.Total restoreOrder := ⟨fun a b => by
  unfold restoreOrder
  rcases lt_trichotomy a.sentMs b.sentMs with h | h | h
  · exact Or.inr (Or.inl h)
  · rcases le_total a.msgId b.msgId with h' | h'
    · exact Or.inl (Or.inr ⟨h, h'⟩)
    · exact Or.inr (Or.inr ⟨h.symm, h'⟩)
  · exact Or.inl (Or.inl h)⟩

instance : IsTrans OpenSent restoreOrder := ⟨fun a b c hab hbc => by
  unfold restoreOrder at *
  rcases hab with hab | ⟨hab, hab'⟩ <;> rcases hbc with hbc | ⟨hbc, hbc'⟩
  · exact Or.inl (lt_trans hbc hab)
  · exact Or.inl (hbc ▸ hab)
  · exact Or.inl (hab ▸ hbc)
  · exact Or.inr ⟨hab.trans hbc, hab'.trans hbc'⟩⟩

/-- An open row within the window is itself restored, or one of its truck that is dated no earlier. -/
theorem exists_wins (nowMs : ℤ) {rows : List OpenSent} {o : OpenSent} (ho : o ∈ rows)
    (hage : nowMs - o.sentMs ≤ RESTORE_MAX_AGE_MS) :
    ∃ w, Wins nowMs (rows.insertionSort restoreOrder) w ∧ w.ytno = o.ytno ∧ (w = o ∨ o.sentMs ≤ w.sentMs) := by
  obtain ⟨w, hw, hyt⟩ := exists_wins_of_mem ((List.mem_insertionSort restoreOrder).mpr ho) hage
  refine ⟨w, hw, hyt, ?_⟩
  obtain ⟨front, back, hrows, -, hfront⟩ := hw
  have hmem : o ∈ front ++ w :: back := by
    rw [← hrows, List.mem_insertionSort]
    exact ho
  rcases List.mem_append.mp hmem with hin | hin
  · exact absurd (hfront o hin hyt.symm) (not_lt.mpr hage)
  · rcases List.mem_cons.mp hin with rfl | hin
    · exact Or.inl rfl
    · right
      have hsorted := List.pairwise_insertionSort restoreOrder rows
      rw [hrows, List.pairwise_append] at hsorted
      rcases (List.pairwise_cons.mp hsorted.2.1).1 o hin with hlt | ⟨heq, -⟩
      · exact hlt.le
      · exact heq.ge

/-- The hold is restored by its own row, or by a row of the truck that the table dates no earlier. -/
def RestoredBy (table : List SentRecord) (yt : String) (h h' : Hold) : Prop :=
  h'.msgId = h.msgId ∨ ∃ r ∈ table, ∃ r' ∈ table, Backs yt h r ∧ Backs yt h' r' ∧
    roundMs r.writtenUs ≤ roundMs r'.writtenUs

/-- **A hold with an open row within the window is restored.** -/
theorem restore_keeps {table : List SentRecord} {yt : String} {h : Hold} {r : SentRecord} (hr : r ∈ table)
    (hb : Backs yt h r) {nowMs : ℤ} (hage : nowMs - h.sentMs ≤ RESTORE_MAX_AGE_MS) {held' : Held}
    {closes : List (String × String)} (hrestore : restoreHolds (some (loadOpenSent table)) nowMs = some (held', closes)) :
    ∃ h', held'.lookup yt = some h' ∧ RestoredBy table yt h h' := by
  have ho : (⟨r.msgId, r.kind, r.ytno, r.contno, roundMs r.writtenUs⟩ : OpenSent) ∈ loadOpenSent table :=
    mem_loadOpenSent.mpr ⟨r, hr, hb.isOpen, rfl⟩
  have hround : h.sentMs ≤ roundMs r.writtenUs := by
    have hsent := hb.sentMs
    unfold millis roundMs at *
    omega
  obtain ⟨w, hw, hyt, hor⟩ := exists_wins nowMs ho (by simp only; omega)
  have hheld := (Prod.mk.inj (Option.some.inj hrestore)).1
  have hlook := (lookup_restoreRows nowMs ((loadOpenSent table).insertionSort restoreOrder) yt w.hold).mpr
    ⟨w, hw, hyt.trans hb.ytno, rfl⟩
  obtain ⟨r', hr', hb', hsent'⟩ := restored_backs hlook
  refine ⟨w.hold, hheld ▸ hlook, ?_⟩
  rcases hor with rfl | hle
  · exact Or.inl hb.msgId
  · exact Or.inr ⟨r, hr, r', hr', hb, hb', hle.trans_eq hsent'⟩

/-- The young holds have open rows, and a restart restores those that are young then. -/
def Consistent (st : Loop) : Prop :=
  ∀ yt h, st.held.lookup yt = some h → Young st.clock h →
    (∃ r ∈ st.table, Backs yt h r) ∧
      ∀ nowMs held' closes, nowMs - h.sentMs ≤ RESTORE_MAX_AGE_MS →
        restoreHolds (some (loadOpenSent st.restart.table)) nowMs = some (held', closes) →
        ∃ h', held'.lookup yt = some h' ∧ RestoredBy st.table yt h h'

theorem TableInv.consistent (hinv : TableInv uuid st) : Consistent st := by
  intro yt h hl hyoung
  obtain ⟨r, hr, hb⟩ := (hinv.backed yt h hl).resolve_right hyoung.not_old
  exact ⟨⟨r, hr, hb⟩, fun nowMs held' closes hage hrestore => restore_keeps hr hb hage hrestore⟩

/-- **Crash consistency of the holds.** In every state that ticks, failed writes, failed closes, crashes and restarts
lead to, and after every effect of the next tick, the young holds have open rows and a restart restores them; a failed
write changes nothing. -/
theorem crash_consistent (huuid : Function.Injective uuid)
    (h : Reached (fun i : Bool × TickIn => tick uuid i.1 i.2) (fun _ _ => True) Loop.restart freshLoop st) :
    Consistent st ∧ (∀ holdSent inp, ∀ x ∈ tick uuid holdSent inp st, Consistent x.2) ∧
      ∀ closeOk rows, ∀ x ∈ sendRows uuid none closeOk rows st, x.2 = st := by
  have hinv : TableInv uuid st := by
    refine h.inv (P := TableInv uuid) ?_ (fun i st hst _ => tick_tableInv huuid i.1 i.2 hst)
      fun st hst => hst.clear false
    exact ⟨ownIds_empty uuid 0, by simp [freshLoop], by simp [freshLoop], fun _ => rfl, fun _ _ hl => by simp [freshLoop] at hl⟩
  refine ⟨hinv.consistent, fun holdSent inp x hx => (tick_tableInv huuid holdSent inp hinv x hx).consistent, ?_⟩
  intro closeOk rows x hx
  unfold sendRows at hx
  split_ifs at hx
  · exact absurd hx List.not_mem_nil
  · rw [List.mem_singleton.mp hx]
    rfl

end Steps

theorem letters_injective : Function.Injective letters := by
  intro n m h
  have hlen := congrArg (fun s : String => s.toList.length) h
  simp only [letters, String.toList_ofList, List.length_replicate] at hlen
  omega

/-- The loop after an assignment of box `A` to `TT1`. -/
def sentLoop : Loop := lastState freshLoop (tick letters true (assignTick "TT1" "A" 0 1000000) freshLoop)

theorem crash_consistent_one :
    sentLoop.held.lookup "TT1" = some ⟨"A", 1000, "a", .assign⟩ ∧ Consistent sentLoop :=
  ⟨by decide, (crash_consistent letters_injective
    (Reached.step (true, assignTick "TT1" "A" 0 1000000) Reached.init trivial)).1⟩

/-- The loop after a second assignment 0.8 ms after a first one, whose row was not closed when its hold was released. -/
def resentLoop : Loop :=
  lastState freshLoop (runTicks letters true [assignTick "TT1" "A" 0 1000600,
    { assignTick "TT1" "B" 10000 1001400 with releaseClose := false }] freshLoop)

/-- A hold that is older than an hour at the restart is not restored, and of two open rows within a millisecond the
message id decides: the truck is restored with the older row. -/
theorem restart_forgets :
    (sentLoop.held.lookup "TT1").isSome = true ∧
      (restoreHolds (some (loadOpenSent sentLoop.restart.table)) 3601001).map (fun r => r.1.lookup "TT1") = some none ∧
      (resentLoop.held.lookup "TT1").map Hold.msgId = some "aa" ∧
      (restoreHolds (some (loadOpenSent resentLoop.restart.table)) 1002).map
        (fun r => (r.1.lookup "TT1").map Hold.msgId) = some (some "a") ∧
      resentLoop.table.map (fun r => (r.msgId, r.writtenUs)) = [("a", 1000600), ("aa", 1001400)] := by
  decide

end TtAiops.Dispatch
