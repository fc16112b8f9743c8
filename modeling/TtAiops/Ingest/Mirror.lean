import TtAiops.Ingest.Run
import TtAiops.Ingest.Stowplan

/-!
# The mirror of the stowage plan

* `PlanRow.stored`, `PlanRow.entry` : what the two modes store for a row, the same for trimmed names;
* `mem_deltaRows` : what merging rows does to the mirror;
* `PlanHistory` : what holds of the changes of the plan;
* `Marked`, `Mirrors` : every watermark is behind a change that was visible, and the mirror of a voyage is its part of the
  plan that is pending;
* `mirrors_start`, `mirrors_step` : how a voyage gets into the mirror, and stays there;
* `Tracked`, `mirror_eq_snapshot` : **in the delta mode the mirror of a voyage that has been in the list since the first tick
  or since its seeding is what the snapshot mode stores**.
-/

namespace TtAiops.Ingest.Stowplan
open TtAiops.Lib

/-! ## Merging rows -/

/-- The row of the mirror that a row of the plan leads to. -/
def PlanRow.stored (r : PlanRow) : Option PlanEntry :=
  if r.completed then none else r.box.bind fun c => r.queue.map fun q => entryOf r q c

/-- The key that a row of the plan writes or deletes. -/
def PlanRow.touched (r : PlanRow) : Option PlanKey :=
  if r.completed || r.queue.isSome then r.box.map fun c => ⟨r.voyage, c, r.disload⟩ else none

theorem touched_of_stored {r : PlanRow} {e : PlanEntry} (h : r.stored = some e) : r.touched = some e.key := by
  unfold PlanRow.stored at h
  split_ifs at h with hdone
  obtain ⟨c, hc, hmap⟩ := Option.bind_eq_some_iff.mp h
  obtain ⟨q, hq, rfl⟩ := Option.map_eq_some_iff.mp hmap
  unfold PlanRow.touched
  rw [hc, hq, if_pos (by simp)]
  rfl

/-- The container name is trimmed. -/
def PlanRow.Plain (r : PlanRow) : Prop := ∀ c ∈ r.contno, Texts.trimmed c = c

theorem PlanRow.Plain.box {r : PlanRow} (h : r.Plain) : r.box = r.contno.filter fun c => c ≠ "" := by
  unfold PlanRow.box
  cases hcont : r.contno with
  | none => rfl
  | some c => rw [Option.map_some, h c hcont]

/-- The row that the snapshot mode stores for a row of its query. -/
def PlanRow.entry (r : PlanRow) : Option PlanEntry :=
  (r.contno.filter fun c => c ≠ "").bind fun c => r.queue.map fun q => entryOf r q c

theorem voyage_of_entry {r : PlanRow} {e : PlanEntry} (h : r.entry = some e) : r.voyage = e.key.voyage := by
  obtain ⟨c, -, hmap⟩ := Option.bind_eq_some_iff.mp h
  obtain ⟨q, -, rfl⟩ := Option.map_eq_some_iff.mp hmap
  rfl

theorem PlanRow.Plain.entry {r : PlanRow} (h : r.Plain) (hdone : ¬ r.completed = true) : r.entry = r.stored := by
  unfold PlanRow.entry PlanRow.stored
  rw [if_neg hdone, h.box]

theorem not_completed {r : PlanRow} (h : r.pending = true) : ¬ r.completed = true := by
  unfold PlanRow.completed
  rw [Option.isNone_iff_eq_none.mp h]
  exact Bool.false_ne_true

theorem voyage_of_touched {r : PlanRow} {k : PlanKey} (h : r.touched = some k) : r.voyage = k.voyage := by
  unfold PlanRow.touched at h
  split_ifs at h
  obtain ⟨c, -, rfl⟩ := Option.map_eq_some_iff.mp h
  rfl

theorem id_of_touched {r : PlanRow} {k : PlanKey} (hplain : r.Plain) (h : r.touched = some k) :
    r.id = (k.voyage, some k.contno, k.disload) := by
  unfold PlanRow.touched at h
  split_ifs at h
  rw [hplain.box] at h
  obtain ⟨c, hc, rfl⟩ := Option.map_eq_some_iff.mp h
  have hcont : r.contno = some c := (Option.filter_eq_some_iff.mp hc).1
  unfold PlanRow.id
  rw [hcont]

theorem mem_deltaRow {mirror : List PlanEntry} {r : PlanRow} {e : PlanEntry} :
    e ∈ deltaRow mirror r ↔ r.stored = some e ∨ (e ∈ mirror ∧ r.touched ≠ some e.key) := by
  cases hc : r.box with
  | none =>
    have hrow : deltaRow mirror r = mirror := by
      unfold deltaRow
      rw [hc]
    have hstored : r.stored = none := by
      unfold PlanRow.stored
      rw [hc]
      exact ite_self none
    have htouched : r.touched = none := by
      unfold PlanRow.touched
      rw [hc]
      exact ite_self none
    rw [hrow, hstored, htouched]
    simp
  | some c =>
    unfold deltaRow PlanRow.stored PlanRow.touched
    rw [hc]
    dsimp only
    by_cases hdone : r.completed = true
    · rw [if_pos hdone, if_pos hdone, if_pos (by rw [hdone]; rfl), List.mem_filter, decide_eq_true_iff]
      simp [eq_comm]
    · rw [if_neg hdone, if_neg hdone]
      cases hq : r.queue with
      | none => simp [hdone]
      | some q =>
        rw [if_pos (by simp)]
        show e ∈ upsert PlanEntry.key mirror (entryOf r q c) ↔ some (entryOf r q c) = some e ∨
          (e ∈ mirror ∧ some (entryOf r q c).key ≠ some e.key)
        rw [mem_upsert, Option.some_inj, eq_comm, ne_comm, Ne, Ne, Option.some_inj]

/-- **What merging rows does to the mirror**, if no two of them are of one box. -/
theorem mem_deltaRows {rows : List PlanRow}
    (huniq : ∀ r ∈ rows, ∀ r' ∈ rows, ∀ k, r.touched = some k → r'.touched = some k → r = r') {mirror : List PlanEntry} {e : PlanEntry} : e ∈ rows.foldl deltaRow mirror ↔
      (∃ r ∈ rows, r.stored = some e) ∨ (e ∈ mirror ∧ ∀ r ∈ rows, r.touched ≠ some e.key) := by
  induction rows generalizing mirror with
  | nil => simp
  | cons r rows ih =>
    have huniq' : ∀ r' ∈ rows, ∀ r'' ∈ rows, ∀ k, r'.touched = some k → r''.touched = some k → r' = r'' :=
      fun r' hr' r'' hr'' => huniq r' (List.mem_cons_of_mem _ hr') r'' (List.mem_cons_of_mem _ hr'')
    rw [List.foldl_cons, ih huniq', mem_deltaRow]
    constructor
    · rintro (⟨r', hr', hstored⟩ | ⟨hstored | ⟨hmem, htouch⟩, hno⟩)
      · exact Or.inl ⟨r', List.mem_cons_of_mem _ hr', hstored⟩
      · exact Or.inl ⟨r, List.mem_cons_self, hstored⟩
      · exact Or.inr ⟨hmem, List.forall_mem_cons.mpr ⟨htouch, hno⟩⟩
    · rintro (⟨r', hr', hstored⟩ | ⟨hmem, hno⟩)
      · rcases List.mem_cons.mp hr' with rfl | hr'
        · -- a later row of the same box is the same row
          by_cases hlater : ∃ r'' ∈ rows, r''.touched = some e.key
          · obtain ⟨r'', hr'', htouch⟩ := hlater
            have hsame := huniq r' List.mem_cons_self r'' (List.mem_cons_of_mem _ hr'') _ (touched_of_stored hstored) htouch
            rw [hsame] at hstored
            exact Or.inl ⟨r'', hr'', hstored⟩
          · exact Or.inr ⟨Or.inl hstored, fun r'' hr'' htouch => hlater ⟨r'', hr'', htouch⟩⟩
        · exact Or.inl ⟨r', hr', hstored⟩
      · obtain ⟨htouch, hno⟩ := List.forall_mem_cons.mp hno
        exact Or.inr ⟨Or.inr ⟨hmem, htouch⟩, hno⟩

theorem nodup_deltaRows {rows : List PlanRow} {mirror : List PlanEntry} (h : (mirror.map PlanEntry.key).Nodup) :
    ((rows.foldl deltaRow mirror).map PlanEntry.key).Nodup := by
  induction rows generalizing mirror with
  | nil => exact h
  | cons r rows ih =>
    apply ih
    unfold deltaRow
    split
    · exact h
    · split_ifs
      · exact h.sublist (List.filter_sublist.map _)
      · split
        · exact h
        · exact nodup_upsert h _

theorem snapshotRow_eq {r : PlanRow} (hplain : r.Plain) (hpending : r.pending = true) (mirror : List PlanEntry) :
    snapshotRow mirror r = deltaRow mirror r := by
  unfold snapshotRow deltaRow PlanRow.queue
  rw [hplain.box, Bool.eq_false_iff.mpr (not_completed hpending)]
  cases r.queuename with
  | none => cases r.contno with
    | none => rfl
    | some c => by_cases hc : c = "" <;> simp [Option.filter, hc]
  | some q => cases r.contno with
    | none => rfl
    | some c => by_cases hq : q = "" <;> by_cases hc : c = "" <;> simp [Option.filter, hq, hc]

/-! ## The history of the plan -/

variable {history : List PlanRow} {n n' : ℕ} {db : PlanDb} {t : Tick} {v : Voyage} {e : PlanEntry} {r : PlanRow}

/-- What holds of the changes of the plan, in the order in which they become visible: one with `UPD_DT` more than 120 s later
comes after, a pending row has a queue name, and a row that is not pending is completed. Container names are trimmed: the
delta mode trims them and the snapshot mode does not. -/
structure PlanHistory (history : List PlanRow) : Prop where
  order : history.Pairwise fun r r' => r.upd ≤ r'.upd + 120
  queued : ∀ r ∈ history, r.pending = true → ∃ q, r.queue = some q
  settled : ∀ r ∈ history, r.pending = true ∨ r.completed = true
  plain : ∀ r ∈ history, r.Plain

theorem mem_of_mem_planAt (h : r ∈ planAt history n) : r ∈ history.take n := mem_of_mem_current h

theorem planAt_unique {r' : PlanRow} (h : r ∈ planAt history n) (h' : r' ∈ planAt history n) (hid : r.id = r'.id) : r = r' :=
  List.inj_on_of_nodup_map (nodup_current _) h h' hid

theorem PlanHistory.plain_of_mem_planAt (h : PlanHistory history) (hr : r ∈ planAt history n) : r.Plain :=
  h.plain r (List.mem_of_mem_take (mem_of_mem_planAt hr))

theorem PlanHistory.eq_of_touched (h : PlanHistory history) {r' : PlanRow} (hr : r ∈ planAt history n)
    (hr' : r' ∈ planAt history n) {k : PlanKey} (htouch : r.touched = some k) (htouch' : r'.touched = some k) : r = r' := by
  have hid := id_of_touched (h.plain_of_mem_planAt hr) htouch
  have hid' := id_of_touched (h.plain_of_mem_planAt hr') htouch'
  exact planAt_unique hr hr' (hid.trans hid'.symm)

theorem take_later (hle : n ≤ n') : history.take n' = history.take n ++ (history.take n').drop n := by
  calc history.take n' = (history.take n').take n ++ (history.take n').drop n := (List.take_append_drop _ _).symm
    _ = history.take n ++ (history.take n').drop n := by rw [List.take_take, min_eq_left hle]

theorem PlanHistory.pending_of_stored (h : PlanHistory history) (hr : r ∈ history) (hstored : r.stored = some e) :
    r.pending = true := by
  rcases h.settled r hr with hpending | hdone
  · exact hpending
  · unfold PlanRow.stored at hstored
    rw [if_pos hdone] at hstored
    exact absurd hstored (by simp)

theorem PlanHistory.touched (h : PlanHistory history) (hr : r ∈ history) {k : PlanKey}
    (hid : r.id = (k.voyage, some k.contno, k.disload)) (hbox : k.contno ≠ "") : r.touched = some k := by
  obtain ⟨hvoyage, hcont, hdis⟩ : r.voyage = k.voyage ∧ r.contno = some k.contno ∧ r.disload = k.disload := by
    simpa [PlanRow.id] using hid
  have hwrites : (r.completed || r.queue.isSome) = true := by
    rcases h.settled r hr with hpending | hdone
    · obtain ⟨q, hq⟩ := h.queued r hr hpending
      rw [hq]
      exact Bool.or_true _
    · rw [hdone]
      exact Bool.true_or _
  have hsome : r.box = some k.contno := by
    rw [(h.plain r hr).box, hcont, Option.filter_some, if_pos (by simpa using hbox)]
  unfold PlanRow.touched
  rw [if_pos hwrites, hsome, Option.map_some, hvoyage, hdis]

theorem contno_ne_of_stored (h : r.stored = some e) : e.key.contno ≠ "" := by
  unfold PlanRow.stored at h
  split_ifs at h
  obtain ⟨c, hc, hmap⟩ := Option.bind_eq_some_iff.mp h
  obtain ⟨q, -, rfl⟩ := Option.map_eq_some_iff.mp hmap
  exact of_decide_eq_true (Option.filter_eq_some_iff.mp hc).2

theorem voyage_of_stored (h : r.stored = some e) : r.voyage = e.key.voyage := voyage_of_touched (touched_of_stored h)

/-! ## A tick -/

/-- The row is one of those that the query of a tick returns. -/
def Fetched (t : Tick) (db : PlanDb) (r : PlanRow) : Prop :=
  ((readPlanMark db.marks).getD WM_FLOOR ≤ (r.upd : ℤ) ∧ r.voyage ∈ t.used) ∨
    (r.pending = true ∧ r.voyage ∈ seedVoyages t db)

theorem mem_deltaQuery {plan : List PlanRow} : r ∈ t.order (deltaQuery plan t db) ↔ r ∈ plan ∧ Fetched t db r := by
  unfold deltaQuery Fetched
  rw [(t.order_perm _).mem_iff, List.mem_append, List.mem_filter, List.mem_filter, decide_eq_true_iff, decide_eq_true_iff,
    and_or_left]

/-- The mirror into which a tick merges. -/
def wiped (t : Tick) (db : PlanDb) : List PlanEntry :=
  if readPlanMark db.marks = none then db.mirror.filter fun e => e.key.voyage ∉ t.used else db.mirror

/-- **What a tick does to the mirror.** -/
theorem mem_mirror (h : PlanHistory history) (hvoyages : t.voyages ≠ []) : e ∈ (srcStowplanDelta (planAt history n) t db).mirror ↔
    (∃ r ∈ planAt history n, Fetched t db r ∧ r.stored = some e) ∨
      (e ∈ wiped t db ∧ ∀ r ∈ planAt history n, Fetched t db r → r.touched ≠ some e.key) := by
  have huniq : ∀ r ∈ t.order (deltaQuery (planAt history n) t db), ∀ r' ∈ t.order (deltaQuery (planAt history n) t db),
      ∀ k, r.touched = some k → r'.touched = some k → r = r' :=
    fun r hr r' hr' _ => h.eq_of_touched (mem_deltaQuery.mp hr).1 (mem_deltaQuery.mp hr').1
  unfold srcStowplanDelta
  rw [if_neg hvoyages]
  show e ∈ (t.order (deltaQuery (planAt history n) t db)).foldl deltaRow (wiped t db) ↔ _
  rw [mem_deltaRows huniq]
  constructor
  · rintro (⟨r, hr, hstored⟩ | ⟨hmem, hno⟩)
    · obtain ⟨hplan, hfetched⟩ := mem_deltaQuery.mp hr
      exact Or.inl ⟨r, hplan, hfetched, hstored⟩
    · exact Or.inr ⟨hmem, fun r hplan hfetched => hno r (mem_deltaQuery.mpr ⟨hplan, hfetched⟩)⟩
  · rintro (⟨r, hplan, hfetched, hstored⟩ | ⟨hmem, hno⟩)
    · exact Or.inl ⟨r, mem_deltaQuery.mpr ⟨hplan, hfetched⟩, hstored⟩
    · refine Or.inr ⟨hmem, fun r hr => ?_⟩
      obtain ⟨hplan, hfetched⟩ := mem_deltaQuery.mp hr
      exact hno r hplan hfetched

/-- The mirror of a voyage is its part of the plan that is pending. -/
def Mirrors (history : List PlanRow) (v : Voyage) (n : ℕ) (db : PlanDb) : Prop :=
  ∀ e, e.key.voyage = v → (e ∈ db.mirror ↔ ∃ r ∈ planAt history n, r.pending = true ∧ r.stored = some e)

/-- Every watermark is 120 s behind a change that was visible. -/
def Marked (history : List PlanRow) (n : ℕ) (db : PlanDb) : Prop :=
  ∀ m ∈ db.marks, ∃ r ∈ history.take n, m.last ≤ r.upd - SAFETY_LAG_S

theorem voyages_ne_nil (hv : v ∈ t.used) : t.voyages ≠ [] := fun hnil => by
  unfold Tick.used at hv
  rw [hnil] at hv
  exact absurd hv List.not_mem_nil

/-- A voyage that a tick seeds, or the first tick, has nothing in the mirror into which the tick merges. -/
theorem wiped_of_start (hv : v ∈ t.used) (hstart : readPlanMark db.marks = none ∨ v ∈ seedVoyages t db) :
    ∀ e ∈ wiped t db, e.key.voyage ≠ v := by
  intro e he hvoyage
  unfold wiped at he
  rcases hstart with hnone | hseed
  · rw [if_pos hnone, List.mem_filter, hvoyage] at he
    exact of_decide_eq_true he.2 hv
  · unfold seedVoyages at hseed
    split_ifs at hseed with hnone
    · exact absurd hseed List.not_mem_nil
    · rw [if_neg hnone] at he
      obtain ⟨-, hno⟩ := List.mem_filter.mp hseed
      rw [Bool.not_eq_true'] at hno
      exact absurd (List.any_eq_true.mpr ⟨e, he, decide_eq_true hvoyage⟩) (by rw [hno]; exact Bool.false_ne_true)

theorem fetched_of_start (hv : v ∈ t.used) (hstart : readPlanMark db.marks = none ∨ v ∈ seedVoyages t db)
    (hpending : r.pending = true) (hvoyage : r.voyage = v) : Fetched t db r := by
  rcases hstart with hnone | hseed
  · refine Or.inl ⟨?_, hvoyage ▸ hv⟩
    rw [hnone]
    exact Int.natCast_nonneg _
  · exact Or.inr ⟨hpending, hvoyage ▸ hseed⟩

/-- **A voyage gets into the mirror** when it has nothing there and all its pending rows are fetched. -/
theorem mirrors_start (h : PlanHistory history) (hv : v ∈ t.used)
    (hstart : readPlanMark db.marks = none ∨ v ∈ seedVoyages t db) :
    Mirrors history v t.seen (srcStowplanDelta (planAt history t.seen) t db) := by
  intro e he
  rw [mem_mirror h (voyages_ne_nil hv)]
  constructor
  · rintro (⟨r, hplan, -, hstored⟩ | ⟨hmem, -⟩)
    · exact ⟨r, hplan, h.pending_of_stored (List.mem_of_mem_take (mem_of_mem_planAt hplan)) hstored, hstored⟩
    · exact absurd he (wiped_of_start hv hstart e hmem)
  · rintro ⟨r, hplan, hpending, hstored⟩
    exact Or.inl ⟨r, hplan, fetched_of_start hv hstart hpending ((voyage_of_stored hstored).trans he), hstored⟩

/-- What becomes visible after a tick is not behind the watermark of the tick. -/
theorem Marked.le_upd (h : PlanHistory history) (hmarked : Marked history n db) (hle : n ≤ n') {wm : ℤ}
    (hwm : readPlanMark db.marks = some wm) (hr : r ∈ (history.take n').drop n) : wm ≤ r.upd := by
  obtain ⟨m, hm, rfl⟩ := List.mem_map.mp (List.max?_eq_some_iff.mp hwm).1
  obtain ⟨r₀, hr₀, hmark⟩ := hmarked m hm
  have horder : (history.take n').Pairwise fun r r' => r.upd ≤ r'.upd + 120 := h.order.sublist (List.take_sublist _ _)
  rw [take_later hle] at horder
  have hbound := (List.pairwise_append.mp horder).2.2 r₀ hr₀ r hr
  have hlag : SAFETY_LAG_S = 120 := rfl
  omega

theorem wiped_of_mark {wm : ℤ} (hwm : readPlanMark db.marks = some wm) : wiped t db = db.mirror := by
  unfold wiped
  rw [if_neg (by rw [hwm]; simp)]

theorem Marked.fetched_later (h : PlanHistory history) (hmarked : Marked history n db) (hle : n ≤ t.seen) {wm : ℤ}
    (hwm : readPlanMark db.marks = some wm) (hr : r ∈ (history.take t.seen).drop n) (hv : r.voyage ∈ t.used) :
    Fetched t db r := by
  refine Or.inl ⟨?_, hv⟩
  rw [hwm]
  exact hmarked.le_upd h hle hwm hr

theorem mem_planAt_later (hle : n ≤ n') : r ∈ planAt history n' ↔ r ∈ current PlanRow.id ((history.take n').drop n) ∨
    (r ∈ planAt history n ∧ ∀ r' ∈ (history.take n').drop n, r'.id ≠ r.id) := by
  unfold planAt
  rw [take_later hle, mem_current_append, ← take_later hle]

/-- A row that has changed is in the plan with its last change, which touches the entry that it had. -/
theorem exists_touched_later (h : PlanHistory history) {e : PlanEntry} (hr : r ∈ history) (hstored : r.stored = some e)
    (hchanged : ∃ r' ∈ (history.take n').drop n, r'.id = r.id) :
    ∃ r' ∈ current PlanRow.id ((history.take n').drop n), r'.voyage = e.key.voyage ∧ r'.touched = some e.key := by
  obtain ⟨r', hr', hid⟩ := hchanged
  obtain ⟨r'', hr'', hid'⟩ : ∃ r'' ∈ current PlanRow.id ((history.take n').drop n), r''.id = r'.id := exists_current hr'
  have hkey := (hid'.trans hid).trans (id_of_touched (h.plain r hr) (touched_of_stored hstored))
  have hhistory := List.mem_of_mem_take (List.mem_of_mem_drop (mem_of_mem_current hr''))
  exact ⟨r'', hr'', congrArg Prod.fst hkey, h.touched hhistory hkey (contno_ne_of_stored hstored)⟩

/-- **A voyage stays in the mirror** as long as it is in the list: what has changed since the last tick is fetched. -/
theorem mirrors_step (h : PlanHistory history) (hv : v ∈ t.used) (hle : n ≤ t.seen) (hmarked : Marked history n db)
    (hmirrors : Mirrors history v n db) : Mirrors history v t.seen (srcStowplanDelta (planAt history t.seen) t db) := by
  cases hwm : readPlanMark db.marks with
  | none => exact mirrors_start h hv (Or.inl hwm)
  | some wm =>
    have hfetch : ∀ r ∈ current PlanRow.id ((history.take t.seen).drop n), r.voyage = v → Fetched t db r :=
      fun r hr hvoyage => hmarked.fetched_later h hle hwm (mem_of_mem_current hr) (hvoyage ▸ hv)
    intro e he
    rw [mem_mirror h (voyages_ne_nil hv), wiped_of_mark hwm]
    constructor
    · rintro (⟨r, hr, -, hstored⟩ | ⟨hmem, hno⟩)
      · exact ⟨r, hr, h.pending_of_stored (List.mem_of_mem_take (mem_of_mem_planAt hr)) hstored, hstored⟩
      · obtain ⟨r, hr, hpending, hstored⟩ := (hmirrors e he).mp hmem
        by_cases hchanged : ∃ r' ∈ (history.take t.seen).drop n, r'.id = r.id
        · -- the change has been fetched, and touches the key
          obtain ⟨r', hr', hvoyage, htouch⟩ := exists_touched_later h (List.mem_of_mem_take (mem_of_mem_planAt hr)) hstored hchanged
          exact absurd htouch (hno r' ((mem_planAt_later hle).mpr (Or.inl hr')) (hfetch r' hr' (hvoyage.trans he)))
        · have hplan := (mem_planAt_later hle).mpr (Or.inr ⟨hr, fun r' hr' hid => hchanged ⟨r', hr', hid⟩⟩)
          exact ⟨r, hplan, hpending, hstored⟩
    · rintro ⟨r, hr, hpending, hstored⟩
      by_cases hfetched : Fetched t db r
      · exact Or.inl ⟨r, hr, hfetched, hstored⟩
      · right
        rcases (mem_planAt_later hle).mp hr with hlate | ⟨hold, -⟩
        · exact absurd (hfetch r hlate ((voyage_of_stored hstored).trans he)) hfetched
        · refine ⟨(hmirrors e he).mpr ⟨r, hold, hpending, hstored⟩, fun r' hr' hfetched' htouch => ?_⟩
          exact hfetched (h.eq_of_touched hr' hr htouch (touched_of_stored hstored) ▸ hfetched')

theorem marked_step (hle : n ≤ t.seen) (hmarked : Marked history n db) :
    Marked history t.seen (srcStowplanDelta (planAt history t.seen) t db) := by
  have hlater : ∀ r ∈ history.take n, r ∈ history.take t.seen := by
    intro r hr
    rw [take_later hle]
    exact List.mem_append_left _ hr
  have hold : ∀ m ∈ db.marks, ∃ r ∈ history.take t.seen, m.last ≤ r.upd - SAFETY_LAG_S := by
    intro m hm
    obtain ⟨r, hr, hmark⟩ := hmarked m hm
    exact ⟨r, hlater r hr, hmark⟩
  unfold srcStowplanDelta
  by_cases hnone : t.voyages = []
  · rw [if_pos hnone]
    exact hold
  · rw [if_neg hnone]
    dsimp only
    cases hmax : ((t.order (deltaQuery (planAt history t.seen) t db)).map PlanRow.upd).max? with
    | none => exact hold
    | some mx =>
      obtain ⟨r, hr, rfl⟩ := List.mem_map.mp (List.max?_eq_some_iff.mp hmax).1
      have hvisible := mem_of_mem_planAt (mem_deltaQuery.mp hr).1
      intro m hm
      rcases mem_writeMark.mp hm with ⟨hm, -⟩ | ⟨m', hm', -, rfl⟩ | ⟨rfl, -⟩
      · exact hold m hm
      · rcases max_choice m'.last (r.upd - SAFETY_LAG_S) with hmax | hmax
        · dsimp only
          rw [hmax]
          exact hold m' hm'
        · dsimp only
          rw [hmax]
          exact ⟨r, hvisible, le_rfl⟩
      · exact ⟨r, hvisible, le_rfl⟩

theorem nodup_step (plan : List PlanRow) (t : Tick) (h : (db.mirror.map PlanEntry.key).Nodup) :
    ((srcStowplanDelta plan t db).mirror.map PlanEntry.key).Nodup := by
  unfold srcStowplanDelta
  split_ifs
  · exact h
  · exact nodup_deltaRows (h.sublist (List.filter_sublist.map _))
  · exact nodup_deltaRows h

/-! ## A run -/

/-- The voyage is in the list at every tick since the first, or since one that seeds it. -/
def Tracked (history : List PlanRow) (db : PlanDb) (ticks : List Tick) (v : Voyage) : Prop :=
  ∃ pre t post, ticks = pre ++ t :: post ∧ (∀ t' ∈ t :: post, v ∈ t'.used) ∧
    (readPlanMark (deltaTicks history pre db).marks = none ∨ v ∈ seedVoyages t (deltaTicks history pre db))

theorem deltaTicks_append {ticks ticks' : List Tick} :
    deltaTicks history (ticks ++ ticks') db = deltaTicks history ticks' (deltaTicks history ticks db) := List.foldl_append

def lastSeen (n : ℕ) (ticks : List Tick) : ℕ := ticks.foldl (fun _ t => t.seen) n

theorem lastSeen_le {k : ℕ} {ticks : List Tick} (hn : n ≤ k) (h : ∀ t ∈ ticks, t.seen ≤ k) : lastSeen n ticks ≤ k := by
  induction ticks generalizing n with
  | nil => exact hn
  | cons t ticks ih => exact ih (h t List.mem_cons_self) fun t' ht' => h t' (List.mem_cons_of_mem _ ht')

/-- What every tick keeps: the watermarks, and that no key is in the mirror twice. -/
theorem kept_ticks {ticks : List Tick} (hseen : (n :: ticks.map Tick.seen).Pairwise (· ≤ ·)) (hmarked : Marked history n db)
    (hkeys : (db.mirror.map PlanEntry.key).Nodup) :
    Marked history (lastSeen n ticks) (deltaTicks history ticks db) ∧
      ((deltaTicks history ticks db).mirror.map PlanEntry.key).Nodup := by
  induction ticks generalizing n db with
  | nil => exact ⟨hmarked, hkeys⟩
  | cons t ticks ih =>
    obtain ⟨hfirst, hrest⟩ := List.pairwise_cons.mp hseen
    exact ih hrest (marked_step (hfirst t.seen List.mem_cons_self) hmarked) (nodup_step _ t hkeys)

theorem mirrors_ticks (h : PlanHistory history) {ticks : List Tick} (hseen : (n :: ticks.map Tick.seen).Pairwise (· ≤ ·))
    (hv : ∀ t ∈ ticks, v ∈ t.used) (hmarked : Marked history n db) (hmirrors : Mirrors history v n db) :
    Mirrors history v (lastSeen n ticks) (deltaTicks history ticks db) := by
  induction ticks generalizing n db with
  | nil => exact hmirrors
  | cons t ticks ih =>
    obtain ⟨hfirst, hrest⟩ := List.pairwise_cons.mp hseen
    have hle : n ≤ t.seen := hfirst t.seen List.mem_cons_self
    exact ih hrest (fun t' ht' => hv t' (List.mem_cons_of_mem _ ht')) (marked_step hle hmarked)
      (mirrors_step h (hv t List.mem_cons_self) hle hmarked hmirrors)

/-- The snapshot mode does what the delta mode does, on pending rows and from an empty mirror on. -/
theorem snapshot_eq {plan : List PlanRow} (hplain : ∀ r ∈ plan, r.Plain) (hvoyages : t.voyages ≠ []) (mirror : List PlanEntry) :
    srcStowplanSnapshot plan t mirror = (t.order (snapshotQuery plan t.used)).foldl deltaRow [] := by
  unfold srcStowplanSnapshot
  rw [if_neg hvoyages]
  apply List.foldl_ext
  intro mirror r hr
  have hquery := List.mem_filter.mp ((t.order_perm _).mem_iff.mp hr)
  exact snapshotRow_eq (hplain r hquery.1) (of_decide_eq_true hquery.2).1 mirror

theorem mem_snapshot (h : PlanHistory history) (hv : v ∈ t.used) (he : e.key.voyage = v) {mirror : List PlanEntry} :
    e ∈ srcStowplanSnapshot (planAt history t.seen) t mirror ↔
      ∃ r ∈ planAt history t.seen, r.pending = true ∧ r.stored = some e := by
  have hmem : ∀ r, r ∈ t.order (snapshotQuery (planAt history t.seen) t.used) ↔
      r ∈ planAt history t.seen ∧ r.pending = true ∧ r.voyage ∈ t.used := by
    intro r
    unfold snapshotQuery
    rw [(t.order_perm _).mem_iff, List.mem_filter, decide_eq_true_iff]
  have huniq : ∀ r ∈ t.order (snapshotQuery (planAt history t.seen) t.used),
      ∀ r' ∈ t.order (snapshotQuery (planAt history t.seen) t.used),
        ∀ k, r.touched = some k → r'.touched = some k → r = r' :=
    fun r hr r' hr' _ => h.eq_of_touched ((hmem r).mp hr).1 ((hmem r').mp hr').1
  rw [snapshot_eq (fun _ => h.plain_of_mem_planAt) (voyages_ne_nil hv), mem_deltaRows huniq]
  constructor
  · rintro (⟨r, hr, hstored⟩ | ⟨hmem', -⟩)
    · obtain ⟨hplan, hpending, -⟩ := (hmem r).mp hr
      exact ⟨r, hplan, hpending, hstored⟩
    · exact absurd hmem' List.not_mem_nil
  · rintro ⟨r, hplan, hpending, hstored⟩
    have hvoyage := (voyage_of_stored hstored).trans he
    exact Or.inl ⟨r, (hmem r).mpr ⟨hplan, hpending, hvoyage ▸ hv⟩, hstored⟩

/-- **The mirror equals the snapshot.** After every tick of the delta mode, the rows of a tracked voyage are those that the
snapshot mode stores at that tick. -/
theorem mirror_eq_snapshot (h : PlanHistory history) (hfirst : db.marks = [])
    (hkeys : (db.mirror.map PlanEntry.key).Nodup) {ticks : List Tick}
    (hseen : ((ticks ++ [t]).map Tick.seen).Pairwise (· ≤ ·)) (htracked : Tracked history db (ticks ++ [t]) v) :
    ((deltaTicks history (ticks ++ [t]) db).mirror.filter fun e => e.key.voyage = v).Perm
      ((srcStowplanSnapshot (planAt history t.seen) t []).filter fun e => e.key.voyage = v) := by
  obtain ⟨pre, t₀, post, hsplit, hv, hstart⟩ := htracked
  have hlast : lastSeen 0 (ticks ++ [t]) = t.seen := by
    unfold lastSeen
    rw [List.foldl_append]
    rfl
  have htv : v ∈ t.used := by
    have hmem : t ∈ t₀ :: post := by
      have hget := congrArg List.getLast? hsplit
      rw [List.getLast?_append, List.getLast?_append, List.getLast?_cons, List.getLast?_cons] at hget
      apply List.mem_of_getLast?
      rw [List.getLast?_cons]
      exact hget.symm
    exact hv t hmem
  rw [hsplit] at hseen hlast ⊢
  rw [List.map_append, List.map_cons] at hseen
  obtain ⟨hpre, hpost, hbefore⟩ := List.pairwise_append.mp hseen
  have hmarked₀ : Marked history 0 db := by
    intro m hm
    rw [hfirst] at hm
    exact absurd hm List.not_mem_nil
  obtain ⟨hmarked, hkeys'⟩ := kept_ticks (List.pairwise_cons.mpr ⟨fun _ _ => Nat.zero_le _, hpre⟩) hmarked₀ hkeys
  have hle : lastSeen 0 pre ≤ t₀.seen :=
    lastSeen_le (Nat.zero_le _) fun t' ht' => hbefore _ (List.mem_map_of_mem ht') _ List.mem_cons_self
  -- the voyage gets into the mirror at `t₀` and stays there
  have hmirrors := mirrors_ticks h hpost (fun t' ht' => hv t' (List.mem_cons_of_mem _ ht')) (marked_step hle hmarked)
    (mirrors_start h (hv t₀ List.mem_cons_self) hstart)
  have hnodup := (kept_ticks hpost (marked_step hle hmarked) (nodup_step (planAt history t₀.seen) t₀ hkeys')).2
  have hrun : deltaTicks history (pre ++ t₀ :: post) db =
      deltaTicks history post (srcStowplanDelta (planAt history t₀.seen) t₀ (deltaTicks history pre db)) := deltaTicks_append
  have hlast' : lastSeen t₀.seen post = t.seen := by
    rw [← hlast]
    unfold lastSeen
    rw [List.foldl_append]
    rfl
  rw [hlast'] at hmirrors
  rw [hrun]
  apply (List.perm_ext_iff_of_nodup (hnodup.of_map.filter _) (List.Nodup.filter _ _)).mpr
  · intro e
    rw [List.mem_filter, List.mem_filter, decide_eq_true_iff]
    constructor
    · rintro ⟨hmem, he⟩
      exact ⟨(mem_snapshot h htv he).mpr ((hmirrors e he).mp hmem), he⟩
    · rintro ⟨hmem, he⟩
      exact ⟨(hmirrors e he).mpr ((mem_snapshot h htv he).mp hmem), he⟩
  · rw [snapshot_eq (fun _ => h.plain_of_mem_planAt) (voyages_ne_nil htv)]
    exact (nodup_deltaRows (show (([] : List PlanEntry).map PlanEntry.key).Nodup from List.nodup_nil)).of_map

/-- A box is planned, another queue is chosen for it, a second box is planned a little earlier and seen later, and the first
is done. -/
def planRows : List PlanRow :=
  [⟨("V1", "1W"), some "18H-L", .load, some "ABCU1234567", some 1, none, 1000⟩,
    ⟨("V1", "1W"), some "20H-L", .load, some "ABCU1234567", some 4, none, 1100⟩,
    ⟨("V1", "1W"), some "18H-L", .load, some "ABCU7654321", some 2, none, 1050⟩,
    ⟨("V1", "1W"), some "20H-L", .load, some "ABCU1234567", some 4, some "20260801", 1200⟩]

/-- A tick that has seen `n` changes. -/
def planTick (n : ℕ) : Tick := ⟨[("V1", "1W")], 0, n, id, List.Perm.refl⟩

/-- After the fourth change the mirror is the snapshot again. -/
theorem mirror_eq_snapshot_four :
    ((deltaTicks planRows [planTick 1, planTick 2, planTick 4] ⟨[], []⟩).mirror.filter fun e =>
      e.key.voyage = ("V1", "1W")).Perm
      ((srcStowplanSnapshot (planAt planRows 4) (planTick 4) []).filter fun e => e.key.voyage = ("V1", "1W")) := by
  have hplan : PlanHistory planRows := by
    refine ⟨by decide, ?_, by decide +kernel, ?_⟩
    · intro r hr _
      fin_cases hr
      · exact ⟨"18H-L", by decide⟩
      · exact ⟨"20H-L", by decide⟩
      · exact ⟨"18H-L", by decide⟩
      · exact ⟨"20H-L", by decide⟩
    · unfold PlanRow.Plain
      decide +kernel
  exact @mirror_eq_snapshot planRows ⟨[], []⟩ (planTick 4) _ hplan rfl List.nodup_nil [planTick 1, planTick 2] (by decide)
    ⟨[], planTick 1, [planTick 2, planTick 4], rfl, by decide, Or.inl rfl⟩

end TtAiops.Ingest.Stowplan
