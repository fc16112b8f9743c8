import Mathlib

/-!
# Holds of what was sent, and the table they are restored from

A pair or a swap that was sent is held (truck → box) until evidence releases it. The holds live in memory and in the
open rows of `dispatch_sent`.

* `TosSig`, `isFreeTos`, `truckBusyAfter` : what the TOS signals say about a truck;
* `Hold`, `Held`, `edgeAllowedByHold`, `applyWritten`, `releaseHeld` : the holds in memory;
* `SentRecord`, `writeSent`, `closeSent`, `loadOpenSent`, `restoreHolds` : the table, and the restore from it;
* `lookup_applyRows`, `lookup_releaseHeld`, `lookup_restoreRows` : what each of them does to the hold of a truck.

Points in time of the signals and of the table are microseconds, those of the holds milliseconds.
-/

namespace TtAiops.Dispatch

/-- `timestamp_millis`. -/
def millis (us : ℤ) : ℤ := us / 1000

/-! ## The TOS signals of a truck -/

/-- `TosSig`, without the job types and the destination. -/
structure TosSig where
  free : Option ℤ
  dis : Option ℤ
  listedAt : Option ℤ
  picked : Option ℤ
  availSince : Option ℤ

def dispatchedSinceFree (sig : TosSig) (f : ℤ) : Bool :=
  sig.dis.any (f < ·) || sig.listedAt.any fun a => f ≤ a && !sig.availSince.any (a < ·)

def isFreeTos (sig : TosSig) : Bool :=
  match sig.free with
  | none => false
  | some f => !sig.picked.any (f < ·) && !dispatchedSinceFree sig f

/-- `loaded`: the last pickup is later than the last free event. -/
def loaded (sig : TosSig) : Bool :=
  match sig.picked, sig.free with
  | some p, some f => f < p
  | some _, none => true
  | none, _ => false

inductive HoldKind
  | assign
  | swap
  deriving DecidableEq

def truckBusyAfter (sig : Option TosSig) (kind : HoldKind) (sentMs : ℤ) : Bool :=
  match sig with
  | none => false
  | some sig =>
    let after := fun (t : Option ℤ) => t.any fun t => sentMs < millis t
    match kind with
    | .assign => loaded sig || sig.free.any (dispatchedSinceFree sig) || after sig.picked || after sig.dis ||
        after sig.listedAt
    | .swap => loaded sig || after sig.picked

/-! ## The holds in memory -/

structure Hold where
  contno : String
  sentMs : ℤ
  msgId : String
  kind : HoldKind
  deriving DecidableEq

/-- `held`: the hold of a truck. -/
abbrev Held := AList (fun _ : String => Hold)

def heldBoxes (held : Held) : List String := held.entries.map fun e => e.2.contno

def edgeAllowedByHold (truckHold : Option String) (wContno : Option String) (boxHeld : Bool) : Bool :=
  match truckHold with
  | some c => wContno == some c
  | none => !boxHeld

/-- `SentRow`, without the columns that are only recorded. -/
structure SentRow where
  kind : HoldKind
  ytno : String
  contno : String
  deriving DecidableEq

/-- The body of the loop of `apply_written`. -/
def applyRow (sentMs : ℤ) (acc : Held × List (String × String)) (x : SentRow × String) :
    Held × List (String × String) :=
  (acc.1.insert x.1.ytno ⟨x.1.contno, sentMs, x.2, x.1.kind⟩,
    acc.2 ++ ((acc.1.lookup x.1.ytno).map fun old => (old.msgId, "superseded")).toList)

/-- `apply_written`: the holds after it, and the rows to close. A failed write changes nothing. -/
def applyWritten (held : Held) (rows : List SentRow) (written : Option (List String × ℤ)) :
    Held × Option (List (String × String)) :=
  match written with
  | none => (held, none)
  | some (ids, sentMs) =>
    let r := (rows.zip ids).foldl (applyRow sentMs) (held, [])
    (r.1, some r.2)

def HOLD_RELEASE_MARGIN_MS : ℤ := 2000

/-- A work list taken after the hold was sent, by the margin. -/
def listedAfter (listAsOfMs : Option ℤ) (sentMs : ℤ) : Bool := listAsOfMs.any (sentMs + HOLD_RELEASE_MARGIN_MS < ·)

/-- The reason to release a hold, if there is one. -/
def releaseWhy (listAsOfMs : Option ℤ) (listed : String → String → Bool) (busy : String → Hold → Bool) (yt : String)
    (h : Hold) : Option String :=
  if listedAfter listAsOfMs h.sentMs then some (if listed yt h.contno then "listed" else "not_listed")
  else if busy yt h then some "truck_busy"
  else none

def retain (p : String → Hold → Bool) (held : Held) : Held :=
  ⟨held.entries.filter fun e => p e.1 e.2, List.NodupKeys.sublist List.filter_sublist held.nodupKeys⟩

def closeOrder (a b : String × String) : Prop := a.1 < b.1 ∨ a.1 = b.1 ∧ a.2 ≤ b.2

instance : DecidableRel closeOrder := fun _ _ => inferInstanceAs (Decidable (_ ∨ _))

/-- `release_held`: the holds that stay, and the rows to close. -/
def releaseHeld (held : Held) (listAsOfMs : Option ℤ) (listed : String → String → Bool) (busy : String → Hold → Bool) :
    Held × List (String × String) :=
  (retain (fun yt h => (releaseWhy listAsOfMs listed busy yt h).isNone) held,
    (held.entries.filterMap fun e => (releaseWhy listAsOfMs listed busy e.1 e.2).map fun w => (e.2.msgId, w)).insertionSort
      closeOrder)

/-! ## The table -/

/-- A row of `dispatch_sent`, without the columns that are only recorded. -/
structure SentRecord where
  msgId : String
  kind : HoldKind
  ytno : String
  contno : String
  writtenUs : ℤ
  released : Option String
  deriving DecidableEq

/-- The rows that `write_sent` inserts. -/
def writeSent (rows : List SentRow) (ids : List String) (writtenUs : ℤ) : List SentRecord :=
  (rows.zip ids).map fun x => ⟨x.2, x.1.kind, x.1.ytno, x.1.contno, writtenUs, none⟩

/-- `close_sent`: an open row that is named is closed. -/
def closeRecord (closes : List (String × String)) (r : SentRecord) : SentRecord :=
  match r.released with
  | some _ => r
  | none => { r with released := (closes.find? fun c => c.1 = r.msgId).map Prod.snd }

def closeSent (closes : List (String × String)) (table : List SentRecord) : List SentRecord :=
  table.map (closeRecord closes)

structure OpenSent where
  msgId : String
  kind : HoldKind
  ytno : String
  contno : String
  sentMs : ℤ
  deriving DecidableEq

/-- `(extract(epoch …) * 1000)::int8`: rounded to the nearest millisecond. -/
def roundMs (us : ℤ) : ℤ := (us + 500) / 1000

def loadOpenSent (table : List SentRecord) : List OpenSent :=
  (table.filter fun r => r.released.isNone).map fun r => ⟨r.msgId, r.kind, r.ytno, r.contno, roundMs r.writtenUs⟩

def RESTORE_MAX_AGE_MS : ℤ := 3600000

/-- The order of `restore_holds`: the latest first, by message id among equals. -/
def restoreOrder (a b : OpenSent) : Prop := b.sentMs < a.sentMs ∨ a.sentMs = b.sentMs ∧ a.msgId ≤ b.msgId

instance : DecidableRel restoreOrder := fun _ _ => inferInstanceAs (Decidable (_ ∨ _))

/-- The body of the loop of `restore_holds`. -/
def restoreRow (nowMs : ℤ) (acc : Held × List (String × String)) (r : OpenSent) : Held × List (String × String) :=
  if RESTORE_MAX_AGE_MS < nowMs - r.sentMs then (acc.1, acc.2 ++ [(r.msgId, "expired_on_restore")])
  else if (acc.1.lookup r.ytno).isSome then (acc.1, acc.2 ++ [(r.msgId, "superseded")])
  else (acc.1.insert r.ytno ⟨r.contno, r.sentMs, r.msgId, r.kind⟩, acc.2)

/-- `restore_holds`: the holds and the rows to close; `none` where the read failed. -/
def restoreHolds (rows : Option (List OpenSent)) (nowMs : ℤ) : Option (Held × List (String × String)) :=
  rows.map fun rows =>
    let r := (rows.insertionSort restoreOrder).foldl (restoreRow nowMs) (∅, [])
    (r.1, r.2.insertionSort closeOrder)

/-! ## What a hold becomes -/

theorem exists_first {α : Type*} {p : α → Prop} {l : List α} {x : α} (hx : x ∈ l) (hp : p x) :
    ∃ front y back, l = front ++ y :: back ∧ p y ∧ ∀ z ∈ front, ¬ p z := by
  induction l with
  | nil => exact absurd hx List.not_mem_nil
  | cons a l ih =>
    by_cases ha : p a
    · exact ⟨[], a, l, rfl, ha, fun z hz => absurd hz List.not_mem_nil⟩
    · have hx' : x ∈ l := (List.mem_cons.mp hx).resolve_left fun he => ha (he ▸ hp)
      obtain ⟨front, y, back, rfl, hy, hfront⟩ := ih hx'
      exact ⟨a :: front, y, back, rfl, hy, List.forall_mem_cons.mpr ⟨ha, hfront⟩⟩

theorem mem_heldBoxes {held : Held} {c : String} : c ∈ heldBoxes held ↔ ∃ yt h, held.lookup yt = some h ∧ h.contno = c := by
  unfold heldBoxes
  rw [List.mem_map]
  constructor
  · rintro ⟨⟨yt, h⟩, hmem, rfl⟩
    exact ⟨yt, h, AList.mem_lookup_iff.mpr hmem, rfl⟩
  · rintro ⟨yt, h, hl, rfl⟩
    exact ⟨⟨yt, h⟩, AList.mem_lookup_iff.mp hl, rfl⟩

theorem lookup_retain (p : String → Hold → Bool) (held : Held) (yt : String) (h : Hold) :
    (retain p held).lookup yt = some h ↔ held.lookup yt = some h ∧ p yt h = true := by
  have h1 : (retain p held).lookup yt = some h ↔ (⟨yt, h⟩ : Sigma fun _ : String => Hold) ∈ (retain p held).entries :=
    AList.mem_lookup_iff
  have h2 : held.lookup yt = some h ↔ (⟨yt, h⟩ : Sigma fun _ : String => Hold) ∈ held.entries := AList.mem_lookup_iff
  rw [h1, h2]
  exact List.mem_filter

theorem lookup_releaseHeld {held : Held} {asOf : Option ℤ} {listed : String → String → Bool}
    {busy : String → Hold → Bool} {yt : String} {h : Hold} :
    (releaseHeld held asOf listed busy).1.lookup yt = some h ↔
      held.lookup yt = some h ∧ releaseWhy asOf listed busy yt h = none := by
  rw [releaseHeld, lookup_retain, Option.isNone_iff_eq_none]

theorem releaseWhy_eq_none {asOf : Option ℤ} {listed : String → String → Bool} {busy : String → Hold → Bool}
    {yt : String} {h : Hold} :
    releaseWhy asOf listed busy yt h = none ↔ listedAfter asOf h.sentMs = false ∧ busy yt h = false := by
  unfold releaseWhy
  cases listedAfter asOf h.sentMs <;> cases busy yt h <;> simp

/-- The rows that `release_held` closes are those of holds it releases. -/
theorem mem_releaseHeld {held : Held} {asOf : Option ℤ} {listed : String → String → Bool} {busy : String → Hold → Bool}
    {id why : String} (hmem : (id, why) ∈ (releaseHeld held asOf listed busy).2) :
    ∃ yt h, held.lookup yt = some h ∧ h.msgId = id ∧ releaseWhy asOf listed busy yt h = some why := by
  rw [releaseHeld, List.mem_insertionSort, List.mem_filterMap] at hmem
  obtain ⟨⟨yt, h⟩, hin, heq⟩ := hmem
  obtain ⟨w, hw, hpair⟩ := Option.map_eq_some_iff.mp heq
  obtain ⟨rfl, rfl⟩ := Prod.mk.inj hpair
  exact ⟨yt, h, AList.mem_lookup_iff.mpr hin, rfl, hw⟩

def holdOf (sentMs : ℤ) (x : SentRow × String) : Hold := ⟨x.1.contno, sentMs, x.2, x.1.kind⟩

theorem lookup_applyRow (sentMs : ℤ) (acc : Held × List (String × String)) (x : SentRow × String) (yt : String) :
    (applyRow sentMs acc x).1.lookup yt = if yt = x.1.ytno then some (holdOf sentMs x) else acc.1.lookup yt := by
  unfold applyRow
  split_ifs with h
  · subst h
    exact AList.lookup_insert _
  · exact AList.lookup_insert_ne h

/-- A hold after a write is that of a row of the write, or it was there before and the truck got no row. -/
theorem lookup_applyRows {sentMs : ℤ} (l : List (SentRow × String)) (acc : Held × List (String × String)) {yt : String}
    {h : Hold} (hl : (l.foldl (applyRow sentMs) acc).1.lookup yt = some h) :
    (acc.1.lookup yt = some h ∧ ∀ x ∈ l, x.1.ytno ≠ yt) ∨ ∃ x ∈ l, x.1.ytno = yt ∧ h = holdOf sentMs x := by
  induction l generalizing acc with
  | nil => exact Or.inl ⟨hl, fun x hx => absurd hx List.not_mem_nil⟩
  | cons x l ih =>
    rcases ih _ hl with ⟨h1, h2⟩ | ⟨y, hy, hyt, hh⟩
    · rw [lookup_applyRow] at h1
      split_ifs at h1 with heq
      · exact Or.inr ⟨x, List.mem_cons_self, heq.symm, (Option.some.inj h1).symm⟩
      · exact Or.inl ⟨h1, List.forall_mem_cons.mpr ⟨fun he => heq he.symm, h2⟩⟩
    · exact Or.inr ⟨y, List.mem_cons_of_mem _ hy, hyt, hh⟩

theorem lookup_applyRows_of_notMem {sentMs : ℤ} (l : List (SentRow × String)) (acc : Held × List (String × String))
    {yt : String} (hno : ∀ x ∈ l, x.1.ytno ≠ yt) : (l.foldl (applyRow sentMs) acc).1.lookup yt = acc.1.lookup yt := by
  induction l generalizing acc with
  | nil => rfl
  | cons x l ih =>
    rw [List.foldl_cons, ih _ fun y hy => hno y (List.mem_cons_of_mem _ hy), lookup_applyRow,
      if_neg fun he => hno x List.mem_cons_self he.symm]

theorem lookup_applyRows_last {sentMs : ℤ} (l l' : List (SentRow × String)) (x : SentRow × String)
    (acc : Held × List (String × String)) (hlast : ∀ y ∈ l', y.1.ytno ≠ x.1.ytno) :
    ((l ++ x :: l').foldl (applyRow sentMs) acc).1.lookup x.1.ytno = some (holdOf sentMs x) := by
  rw [List.foldl_append, List.foldl_cons, lookup_applyRows_of_notMem l' _ hlast, lookup_applyRow, if_pos rfl]

/-! ## Message ids

`gen_random_uuid` never returns an id again; the loop counts the ids it has drawn, and `uuid` names them. -/

section Ids

variable {uuid : ℕ → String}

/-- The ids of the next `n` rows, when `next` ids have been drawn. -/
def newIds (uuid : ℕ → String) (next n : ℕ) : List String := (List.range' next n).map uuid

/-- One of the first `n` ids. -/
def Drawn (uuid : ℕ → String) (n : ℕ) (id : String) : Prop := ∃ k < n, id = uuid k

theorem Drawn.mono {n n' : ℕ} {id : String} (h : Drawn uuid n id) (hle : n ≤ n') : Drawn uuid n' id := by
  obtain ⟨k, hk, he⟩ := h
  exact ⟨k, lt_of_lt_of_le hk hle, he⟩

theorem not_drawn_self (huuid : Function.Injective uuid) (n : ℕ) : ¬ Drawn uuid n (uuid n) := by
  rintro ⟨k, hk, he⟩
  exact absurd (huuid he) (by omega)

structure OwnIds (uuid : ℕ → String) (n : ℕ) (held : Held) : Prop where
  drawn : ∀ yt h, held.lookup yt = some h → Drawn uuid n h.msgId
  inj : ∀ yt yt' h h', held.lookup yt = some h → held.lookup yt' = some h' → h.msgId = h'.msgId → yt = yt'

theorem OwnIds.mono {n n' : ℕ} {held : Held} (h : OwnIds uuid n held) (hle : n ≤ n') : OwnIds uuid n' held :=
  ⟨fun yt x hx => (h.drawn yt x hx).mono hle, h.inj⟩

theorem OwnIds.retain {n : ℕ} {held : Held} (h : OwnIds uuid n held) (p : String → Hold → Bool) :
    OwnIds uuid n (retain p held) :=
  ⟨fun yt x hx => h.drawn yt x ((lookup_retain p held yt x).mp hx).1, fun yt yt' x x' hx hx' =>
    h.inj yt yt' x x' ((lookup_retain p held yt x).mp hx).1 ((lookup_retain p held yt' x').mp hx').1⟩

/-- The ids to close are drawn, and no hold has one of them. -/
def Dropped (uuid : ℕ → String) (n : ℕ) (acc : Held × List (String × String)) : Prop :=
  ∀ c ∈ acc.2, Drawn uuid n c.1 ∧ ∀ yt h, acc.1.lookup yt = some h → h.msgId ≠ c.1

theorem applyRow_ids (huuid : Function.Injective uuid) {n : ℕ} (sentMs : ℤ) {acc : Held × List (String × String)}
    (hown : OwnIds uuid n acc.1) (hdrop : Dropped uuid n acc) (row : SentRow) :
    OwnIds uuid (n + 1) (applyRow sentMs acc (row, uuid n)).1 ∧ Dropped uuid (n + 1) (applyRow sentMs acc (row, uuid n)) := by
  have hlook := lookup_applyRow sentMs acc (row, uuid n)
  have hnew : ∀ yt h, acc.1.lookup yt = some h → h.msgId ≠ uuid n := fun yt h hl he =>
    not_drawn_self huuid n (he ▸ hown.drawn yt h hl)
  refine ⟨⟨fun yt h hl => ?_, fun yt yt' h h' hl hl' he => ?_⟩, fun c hc => ?_⟩
  · rw [hlook] at hl
    split_ifs at hl
    · rw [← Option.some.inj hl]
      exact ⟨n, Nat.lt_succ_self n, rfl⟩
    · exact (hown.drawn yt h hl).mono (Nat.le_succ n)
  · rw [hlook] at hl hl'
    split_ifs at hl with h1 <;> split_ifs at hl' with h2
    · exact h1.trans h2.symm
    · exact absurd (he ▸ (Option.some.inj hl ▸ rfl : uuid n = h.msgId)).symm (hnew yt' h' hl')
    · exact absurd (he.trans (Option.some.inj hl' ▸ rfl)) (hnew yt h hl)
    · exact hown.inj yt yt' h h' hl hl' he
  · have hkeep : ∀ id, Drawn uuid n id → (∀ yt h, yt ≠ row.ytno → acc.1.lookup yt = some h → h.msgId ≠ id) →
        Drawn uuid (n + 1) id ∧
          ∀ yt h, (applyRow sentMs acc (row, uuid n)).1.lookup yt = some h → h.msgId ≠ id := by
      intro id hid hno
      refine ⟨hid.mono (Nat.le_succ n), fun yt h hl => ?_⟩
      rw [hlook] at hl
      split_ifs at hl with h1
      · rw [← Option.some.inj hl]
        rintro rfl
        exact not_drawn_self huuid n hid
      · exact hno yt h h1 hl
    rcases List.mem_append.mp hc with hc | hc
    · obtain ⟨hd, hne⟩ := hdrop c hc
      exact hkeep c.1 hd fun yt h _ hl => hne yt h hl
    · cases hold : acc.1.lookup row.ytno with
      | none => simp [hold] at hc
      | some old =>
        simp only [hold, Option.map_some, Option.toList_some, List.mem_singleton] at hc
        subst hc
        exact hkeep old.msgId (hown.drawn _ _ hold) fun yt h hne hl he => hne (hown.inj yt _ h old hl hold he)

theorem applyRows_ids (huuid : Function.Injective uuid) (sentMs : ℤ) (rows : List SentRow) :
    ∀ (n : ℕ) (acc : Held × List (String × String)), OwnIds uuid n acc.1 → Dropped uuid n acc →
      OwnIds uuid (n + rows.length) ((rows.zip (newIds uuid n rows.length)).foldl (applyRow sentMs) acc).1 ∧
        Dropped uuid (n + rows.length) ((rows.zip (newIds uuid n rows.length)).foldl (applyRow sentMs) acc) := by
  induction rows with
  | nil => exact fun n acc hown hdrop => ⟨hown, hdrop⟩
  | cons row rows ih =>
    intro n acc hown hdrop
    obtain ⟨hown', hdrop'⟩ := applyRow_ids huuid sentMs hown hdrop row
    have hids : newIds uuid n (row :: rows).length = uuid n :: newIds uuid (n + 1) rows.length := rfl
    rw [hids, List.zip_cons_cons, List.foldl_cons, List.length_cons, show n + (rows.length + 1) = n + 1 + rows.length by omega]
    exact ih (n + 1) _ hown' hdrop'

end Ids

/-! ## The restore -/

theorem mem_loadOpenSent {table : List SentRecord} {o : OpenSent} :
    o ∈ loadOpenSent table ↔
      ∃ r ∈ table, r.released = none ∧ o = ⟨r.msgId, r.kind, r.ytno, r.contno, roundMs r.writtenUs⟩ := by
  unfold loadOpenSent
  rw [List.mem_map]
  constructor
  · rintro ⟨r, hr, rfl⟩
    obtain ⟨hmem, hopen⟩ := List.mem_filter.mp hr
    exact ⟨r, hmem, by simpa using hopen, rfl⟩
  · rintro ⟨r, hr, hopen, rfl⟩
    exact ⟨r, List.mem_filter.mpr ⟨hr, by simp [hopen]⟩, rfl⟩

/-- A row within the window, the first of its truck in the order of the restore. -/
def Wins (nowMs : ℤ) (rows : List OpenSent) (o : OpenSent) : Prop :=
  ∃ front back, rows = front ++ o :: back ∧ nowMs - o.sentMs ≤ RESTORE_MAX_AGE_MS ∧
    ∀ x ∈ front, x.ytno = o.ytno → RESTORE_MAX_AGE_MS < nowMs - x.sentMs

def OpenSent.hold (o : OpenSent) : Hold := ⟨o.contno, o.sentMs, o.msgId, o.kind⟩

theorem wins_concat {nowMs : ℤ} {rows : List OpenSent} {o x : OpenSent} :
    Wins nowMs (rows ++ [o]) x ↔ Wins nowMs rows x ∨ x = o ∧ nowMs - o.sentMs ≤ RESTORE_MAX_AGE_MS ∧
      ∀ y ∈ rows, y.ytno = o.ytno → RESTORE_MAX_AGE_MS < nowMs - y.sentMs := by
  constructor
  · rintro ⟨front, back, heq, hage, hfront⟩
    rcases List.eq_nil_or_concat back with rfl | ⟨back, y, rfl⟩
    · obtain ⟨rfl, he⟩ := List.append_inj' heq rfl
      obtain rfl : o = x := by simpa using he
      exact Or.inr ⟨rfl, hage, hfront⟩
    · have heq' : rows ++ [o] = (front ++ x :: back) ++ [y] := by rw [heq]; simp
      obtain ⟨hrows, -⟩ := List.append_inj' heq' rfl
      exact Or.inl ⟨front, back, hrows, hage, hfront⟩
  · rintro (⟨front, back, rfl, hage, hfront⟩ | ⟨rfl, hage, hfront⟩)
    · exact ⟨front, back ++ [o], by simp, hage, hfront⟩
    · exact ⟨rows, [], rfl, hage, hfront⟩

theorem exists_wins_of_mem {nowMs : ℤ} {rows : List OpenSent} {x : OpenSent} (hx : x ∈ rows)
    (hage : nowMs - x.sentMs ≤ RESTORE_MAX_AGE_MS) : ∃ w, Wins nowMs rows w ∧ w.ytno = x.ytno := by
  obtain ⟨front, w, back, hrows, ⟨hyt, hwage⟩, hfront⟩ :=
    exists_first (p := fun w => w.ytno = x.ytno ∧ nowMs - w.sentMs ≤ RESTORE_MAX_AGE_MS) hx ⟨rfl, hage⟩
  refine ⟨w, ⟨front, back, hrows, hwage, fun y hy hyw => ?_⟩, hyt⟩
  by_contra hno
  exact hfront y hy ⟨hyw.trans hyt, not_lt.mp hno⟩

theorem lookup_restoreRow (nowMs : ℤ) (acc : Held × List (String × String)) (o : OpenSent) (yt : String) :
    (restoreRow nowMs acc o).1.lookup yt =
      if yt = o.ytno ∧ nowMs - o.sentMs ≤ RESTORE_MAX_AGE_MS ∧ acc.1.lookup o.ytno = none then some o.hold
      else acc.1.lookup yt := by
  unfold restoreRow
  by_cases hold : RESTORE_MAX_AGE_MS < nowMs - o.sentMs
  · rw [if_pos hold, if_neg fun h => absurd hold (not_lt.mpr h.2.1)]
  · by_cases hhas : (acc.1.lookup o.ytno).isSome = true
    · rw [if_neg hold, if_pos hhas, if_neg fun h => absurd hhas (by simp [h.2.2])]
    · rw [if_neg hold, if_neg hhas]
      by_cases he : yt = o.ytno
      · rw [if_pos ⟨he, not_lt.mp hold, by simpa using hhas⟩, he]
        exact AList.lookup_insert _
      · rw [if_neg fun h => he h.1]
        exact AList.lookup_insert_ne he

theorem lookup_restoreRows (nowMs : ℤ) (rows : List OpenSent) (yt : String) (h : Hold) :
    (rows.foldl (restoreRow nowMs) (∅, [])).1.lookup yt = some h ↔
      ∃ o, Wins nowMs rows o ∧ o.ytno = yt ∧ h = o.hold := by
  induction rows using List.reverseRecOn generalizing yt h with
  | nil =>
    constructor
    · intro hl
      simp at hl
    · rintro ⟨o, ⟨front, back, heq, -⟩, -⟩
      simp at heq
  | append_singleton rows o ih =>
    rw [List.foldl_append]
    set acc := rows.foldl (restoreRow nowMs) (∅, []) with hacc
    change (restoreRow nowMs acc o).1.lookup yt = some h ↔ _
    have hnone : acc.1.lookup o.ytno = none ↔ ∀ y ∈ rows, y.ytno = o.ytno → RESTORE_MAX_AGE_MS < nowMs - y.sentMs := by
      constructor
      · intro hno y hy hyt
        by_contra hage
        obtain ⟨w, hw, hwt⟩ := exists_wins_of_mem hy (not_lt.mp hage)
        rw [(ih _ _).mpr ⟨w, hw, hwt.trans hyt, rfl⟩] at hno
        exact absurd hno (by simp)
      · intro hall
        by_contra hsome
        obtain ⟨x, hx⟩ := Option.ne_none_iff_exists'.mp hsome
        obtain ⟨w, ⟨front, back, hrows, hwage, -⟩, hwt, -⟩ := (ih _ _).mp hx
        have := hall w (by rw [hrows]; simp) hwt
        omega
    rw [lookup_restoreRow]
    split_ifs with hyes
    · obtain ⟨rfl, hage, hno⟩ := hyes
      have hall := hnone.mp hno
      constructor
      · intro hh
        exact ⟨o, wins_concat.mpr (Or.inr ⟨rfl, hage, hall⟩), rfl, (Option.some.inj hh).symm⟩
      · rintro ⟨x, hx, hxt, rfl⟩
        rcases wins_concat.mp hx with ⟨front, back, hrows, hxage, -⟩ | ⟨rfl, -⟩
        · have := hall x (by rw [hrows]; simp) hxt
          omega
        · rfl
    · rw [ih]
      constructor
      · rintro ⟨x, hx, hxt, hh⟩
        exact ⟨x, wins_concat.mpr (Or.inl hx), hxt, hh⟩
      · rintro ⟨x, hx, hxt, hh⟩
        rcases wins_concat.mp hx with hx | ⟨rfl, hage, hall⟩
        · exact ⟨x, hx, hxt, hh⟩
        · exact absurd ⟨hxt.symm, hage, hnone.mpr hall⟩ hyes

end TtAiops.Dispatch
