import TtAiops.Lib.Codecs
import TtAiops.TosAvail.Fetch
import TtAiops.TosAvail.Tick

/-!
# The text of an anchor, and the ticks that go by it (`anchor_to_json`, `anchor_from_json`)

An anchor is kept as a text, in a column that may put the fields of an object in another order. The next tick reads it.

* `TimeText` : how a time is written and read, with what was written read again;
* `AnchorJson`, `anchorToJson`, `anchorFromJson`, `anchorJson` : the text and its writer and reader;
* `readAnchor_of_stored` : **the anchor is read as it was written**;
* `Poll`, `TextDb`, `textTick` : a tick from the rows on, with its errors;
* `textTick_agrees`, `textTick_error` : a tick by the text is a tick by the anchor, or an error that leaves the tables as they are;
* `text_ticks` : **so is every run, and no tick ever fails on the text of an earlier one**.
-/

namespace TtAiops.TosAvail
open TtAiops.Lib

/-- How `serde` writes and reads a time. -/
structure TimeText where
  write : ℤ → String
  read : String → Option ℤ
  read_write : ∀ t, read (write t) = some t

def TimeText.codec (T : TimeText) : Codec ℤ := Codec.str.map T.write T.read T.read_write

/-! ## The text -/

structure AnchorJson where
  rows : List (String × String × String × Option String × String)
  machines : HashMap String (String × Option String)
  stopped : List String
  scn : ℕ
  lastTs : ℤ
  lastOn : Option (HashMap String ℤ)
  lastOff : Option (HashMap String ℤ)

def optStr : Codec (Option String) := Codec.str.opt fun _ => Value.noConfusion

def rowElems : Elems (String × String × String × Option String × String) :=
  .cons .str (.cons .str (.cons .str (.cons optStr (.last .str))))

def machineElems : Elems (String × Option String) := .cons .str (.last optStr)

def TimeText.logs (T : TimeText) : Codec (Option (HashMap String ℤ)) := T.codec.keyed.opt fun _ => Value.noConfusion

/-- The fields, in the order in which they are written. -/
def TimeText.anchorFields (T : TimeText) :=
  (Fields.one "rows" (Codec.tuple rowElems).list).and <| (Fields.one "machines" (Codec.tuple machineElems).keyed).and <|
    (Fields.one "stopped" Codec.str.list).and <| (Fields.one "scn" Codec.nat).and <| (Fields.one "last_ts" T.codec).and <|
      (Fields.default "last_on" T.logs).and (Fields.default "last_off" T.logs)

theorem TimeText.nodup_anchorFields (T : TimeText) : T.anchorFields.names.Nodup := by
  show ["rows", "machines", "stopped", "scn", "last_ts", "last_on", "last_off"].Nodup
  decide

/-- How an `AnchorJson` is written and read. -/
def TimeText.anchorJson (T : TimeText) : Codec AnchorJson :=
  (Codec.record T.anchorFields T.nodup_anchorFields).map
    (fun j => (j.rows, j.machines, j.stopped, j.scn, j.lastTs, j.lastOn, j.lastOff))
    (fun (rows, machines, stopped, scn, lastTs, lastOn, lastOff) =>
      some ⟨rows, machines, stopped, scn, lastTs, lastOn, lastOff⟩)
    fun _ => rfl

def rowRank : RowKey ≃ String ×ₗ String ×ₗ String := (Equiv.prodCongrRight fun _ => toLex).trans toLex

def anchorToJson (a : Anchor) : AnchorJson where
  rows := (entriesBy rowRank a.state.rows).map fun ((c, p, q), r) => (c, p, q, r.ytno, r.ys)
  machines := mapValues (Equiv.refl String) (fun m => (m.onoff, m.pool)) a.state.machines
  stopped := inOrder a.state.stopped
  scn := a.scn
  lastTs := a.lastTs
  lastOn := a.logons.map Logons.lastOn
  lastOff := a.logons.map Logons.lastOff

def anchorFromJson (asOf : ℤ) (j : AnchorJson) : Anchor where
  asOf := asOf
  state := {
    rows := insertAll (j.rows.map fun (c, p, q, ytno, ys) => ((c, p, q), ⟨ytno, ys⟩))
    machines := mapValues (Equiv.refl String) (fun m => ⟨m.1, m.2⟩) j.machines
    stopped := j.stopped.toFinset }
  scn := j.scn
  lastTs := j.lastTs
  logons :=
    match j.lastOn, j.lastOff with
    | some on, some off => some ⟨on, off⟩
    | _, _ => none

theorem anchorFromJson_toJson (a : Anchor) : anchorFromJson a.asOf (anchorToJson a) = a := by
  obtain ⟨asOf, ⟨rows, machines, stopped⟩, scn, lastTs, logons⟩ := a
  have hrows : insertAll (((entriesBy rowRank rows).map fun ((c, p, q), r) => (c, p, q, r.ytno, r.ys)).map
      fun (c, p, q, ytno, ys) => ((c, p, q), (⟨ytno, ys⟩ : JobRow))) = rows := by
    rw [List.map_map]
    exact (congrArg insertAll (List.map_id _)).trans (insertAll_entriesBy rowRank rows)
  have hmachines : mapValues (Equiv.refl String) (fun m => (⟨m.1, m.2⟩ : Machine))
      (mapValues (Equiv.refl String) (fun m => (m.onoff, m.pool)) machines) = machines :=
    mapValues_id_of_comp _ (fun _ => rfl) machines
  have hstopped : (inOrder stopped).toFinset = stopped := by
    ext c
    rw [List.mem_toFinset, mem_inOrder]
  unfold anchorFromJson anchorToJson
  rw [hrows, hmachines, hstopped]
  cases logons <;> rfl

def TimeText.anchorText (T : TimeText) (a : Anchor) : Value := T.anchorJson.write (anchorToJson a)

def TimeText.readAnchor (T : TimeText) (asOf : ℤ) (text : Value) : Option Anchor :=
  (T.anchorJson.read text).map (anchorFromJson asOf)

/-- **The anchor is read as it was written**, whatever the order of the fields. -/
theorem TimeText.readAnchor_of_stored (T : TimeText) {a : Anchor} {text : Value} (h : Stored (T.anchorText a) text) :
    T.readAnchor a.asOf text = some a := by
  unfold TimeText.readAnchor
  rw [T.anchorJson.read_write h, Option.map_some, anchorFromJson_toJson]

/-! ## The ticks -/

/-- What a tick has: its clock, and the rows of the answer. -/
structure Poll where
  now : ℤ
  rows : List RawRow

/-- The tables, with the anchor as the time and the text of its row. -/
structure TextDb where
  intervals : List Interval
  anchor : Option (ℤ × Value)
  checks : List ℤ

inductive TickError
  | fetch (r : Refusal)
  | unreadable
  | unstorable

section Ticks

variable (T : TimeText) (jsonb : Value → Option Value)

/-- The anchor is written and the tick committed, unless the column refuses the text. -/
def commit (out : TickOut) (intervals : List Interval) (anchor : Anchor) (db : TextDb) : Except TickError TickOut × TextDb :=
  match jsonb (T.anchorText anchor) with
  | some text => (.ok out, ⟨intervals, some (anchor.asOf, text), insertCheck anchor.asOf db.checks⟩)
  | none => (.error .unstorable, db)

/-- `tick_tos_avail`, with the reading of the rows and of the text. -/
def textTick (p : Poll) (db : TextDb) : Except TickError TickOut × TextDb :=
  match parseFetch p.rows with
  | .error r => (.error (.fetch r), db)
  | .ok (snap, changes) =>
    if db.anchor.any fun a => snap.asOf ≤ a.1 then
      (.ok ⟨.back, 0, 0⟩, ⟨db.intervals.map (cutInterval snap.asOf), none, insertCheck snap.asOf db.checks⟩)
    else
      match db.anchor.filter fun a => (p.now - a.1).tdiv 1000000 ≤ MAX_REPLAY_S with
      | some (asOf, text) =>
        match T.readAnchor asOf text with
        | none => (.error .unreadable, db)
        | some anchor =>
          let r := replay anchor changes snap
          let w := writeAll snap r.transitions db.intervals
          commit T jsonb ⟨.replay, w.1, r.transitions.length⟩ w.2 (nextAnchor snap r.scn r.lastTs) db
      | none =>
        let known := (db.anchor.map Prod.fst).or db.checks.max?
        let ts := initTransitions snap
        let w := writeAll snap ts (db.intervals.map (gapInterval known))
        commit T jsonb ⟨if db.anchor.isSome then .gap else .init, w.1, ts.length⟩ w.2
          (nextAnchor snap (fetchedScn changes) snap.asOf) db

def emptyTextDb : TextDb := ⟨[], none, []⟩

/-! ## The ticks go by the anchor -/

/-- The row of the anchor is the anchor, as it was written. -/
def HoldsText (e : ℤ × Value) (a : Anchor) : Prop := e.1 = a.asOf ∧ Stored (T.anchorText a) e.2

/-- The tables say the same. -/
structure Same (tdb : TextDb) (db : Db) : Prop where
  intervals : tdb.intervals = db.intervals
  anchor : Option.Rel (HoldsText T) tdb.anchor db.anchor
  checks : tdb.checks = db.checks

/-- The input that a tick goes by: its clock and what was fetched. -/
def Poll.input (p : Poll) : Option TickIn :=
  match parseFetch p.rows with
  | .error _ => none
  | .ok (snap, changes) => some ⟨p.now, snap, changes⟩

/-- A tick that reports has done what the tick by the anchor does; another has left the tables as they are, and not for the
text that it found. -/
def Agrees (p : Poll) (x : Except TickError TickOut × TextDb) (tdb : TextDb) (db : Db) : Prop :=
  match x.1 with
  | .ok out => ∃ inp, p.input = some inp ∧ out = (tick inp db).1 ∧ Same T x.2 (tick inp db).2
  | .error e => e ≠ .unreadable ∧ x.2 = tdb

variable {T jsonb}

theorem commit_agrees (hjsonb : ∀ a v, jsonb (T.anchorText a) = some v → Stored (T.anchorText a) v) {p : Poll} {inp : TickIn}
    (hinp : p.input = some inp) {out : TickOut} {intervals : List Interval} {a : Anchor} {tdb : TextDb} {db : Db}
    (htick : tick inp db = (out, ⟨intervals, some a, insertCheck a.asOf tdb.checks⟩)) :
    Agrees T p (commit T jsonb out intervals a tdb) tdb db := by
  unfold commit
  cases htext : jsonb (T.anchorText a) with
  | none => exact ⟨TickError.noConfusion, rfl⟩
  | some text =>
    refine ⟨inp, hinp, ?_, ?_⟩
    · rw [htick]
    · rw [htick]
      exact ⟨rfl, .some ⟨rfl, hjsonb a text htext⟩, rfl⟩

/-- **A tick by the text is a tick by the anchor, or an error that leaves the tables as they are.** -/
theorem textTick_agrees (hjsonb : ∀ a v, jsonb (T.anchorText a) = some v → Stored (T.anchorText a) v) (p : Poll)
    {tdb : TextDb} {db : Db} (h : Same T tdb db) : Agrees T p (textTick T jsonb p tdb) tdb db := by
  unfold textTick
  cases hfetch : parseFetch p.rows with
  | error r => exact ⟨TickError.noConfusion, rfl⟩
  | ok x =>
    obtain ⟨snap, changes⟩ := x
    have hinp : p.input = some ⟨p.now, snap, changes⟩ := by
      unfold Poll.input
      rw [hfetch]
    obtain ⟨intervals, tanchor, checks⟩ := tdb
    obtain ⟨_, anchor, _⟩ := db
    obtain ⟨rfl, hanchor, rfl⟩ := h
    dsimp only at hanchor ⊢
    cases hanchor with
    | none => exact commit_agrees hjsonb hinp rfl
    | @some e a hholds =>
      obtain ⟨asOf, text⟩ := e
      obtain ⟨rfl, hstored⟩ := hholds
      by_cases hback : snap.asOf ≤ a.asOf
      · rw [if_pos (by simpa using hback)]
        refine ⟨_, hinp, ?_, ?_⟩ <;> unfold tick <;> rw [if_pos (by simpa using hback)]
        · rfl
        · exact ⟨rfl, .none, rfl⟩
      · rw [if_neg (by simpa using hback)]
        by_cases hold : (p.now - a.asOf).tdiv 1000000 ≤ MAX_REPLAY_S
        · have hreplay : tick ⟨p.now, snap, changes⟩ ⟨intervals, some a, checks⟩ =
              replayTick a ⟨p.now, snap, changes⟩ ⟨intervals, some a, checks⟩ := by
            unfold tick usable
            rw [if_neg (by simpa using hback), Option.filter_some_pos (by simpa using hold)]
          rw [Option.filter_some_pos (by simpa using hold)]
          dsimp only
          rw [T.readAnchor_of_stored hstored]
          exact commit_agrees hjsonb hinp hreplay
        · have hfresh : tick ⟨p.now, snap, changes⟩ ⟨intervals, some a, checks⟩ =
              freshTick ⟨p.now, snap, changes⟩ ⟨intervals, some a, checks⟩ := by
            unfold tick usable
            rw [if_neg (by simpa using hback), Option.filter_some_neg (by simpa using hold)]
          rw [Option.filter_some_neg (by simpa using hold)]
          exact commit_agrees hjsonb hinp hfresh

variable (T jsonb) in
/-- What a tick comes to: an answer that is refused, a time that went back, a text that cannot be read, or a commit. -/
theorem textTick_cases (p : Poll) (tdb : TextDb) :
    (p.input = none ∧ ∃ r, textTick T jsonb p tdb = (.error (.fetch r), tdb)) ∨
      (∃ out db, textTick T jsonb p tdb = (.ok out, db)) ∨ textTick T jsonb p tdb = (.error .unreadable, tdb) ∨
      ∃ out intervals a, textTick T jsonb p tdb = commit T jsonb out intervals a tdb := by
  unfold textTick Poll.input
  cases hfetch : parseFetch p.rows with
  | error r => exact Or.inl ⟨rfl, r, rfl⟩
  | ok x =>
    refine Or.inr ?_
    dsimp only
    by_cases hback : (tdb.anchor.any fun a => decide (x.1.asOf ≤ a.1)) = true
    · rw [if_pos hback]
      exact Or.inl ⟨_, _, rfl⟩
    rw [if_neg hback]
    refine Or.inr ?_
    cases tdb.anchor.filter fun a => (p.now - a.1).tdiv 1000000 ≤ MAX_REPLAY_S with
    | none => exact Or.inr ⟨_, _, _, rfl⟩
    | some a =>
      dsimp only
      cases T.readAnchor a.1 a.2 with
      | none => exact Or.inl rfl
      | some anchor => exact Or.inr ⟨_, _, _, rfl⟩

variable (T jsonb) in
theorem commit_cases (out : TickOut) (intervals : List Interval) (a : Anchor) (tdb : TextDb) :
    (jsonb (T.anchorText a) = none ∧ commit T jsonb out intervals a tdb = (.error .unstorable, tdb)) ∨
      ∃ db, commit T jsonb out intervals a tdb = (.ok out, db) := by
  unfold commit
  cases jsonb (T.anchorText a) with
  | none => exact Or.inl ⟨rfl, rfl⟩
  | some text => exact Or.inr ⟨_, rfl⟩

/-- A tick that fails leaves the tables as they are, whatever they are. -/
theorem textTick_error {p : Poll} {tdb : TextDb} {e : TickError} (h : (textTick T jsonb p tdb).1 = .error e) :
    (textTick T jsonb p tdb).2 = tdb := by
  rcases textTick_cases T jsonb p tdb with
    ⟨-, r, hx⟩ | ⟨out, db, hx⟩ | hx | ⟨out, intervals, a, hx⟩ <;> rw [hx] at h ⊢
  · cases h
  · rcases commit_cases T jsonb out intervals a tdb with ⟨-, hc⟩ | ⟨db, hc⟩ <;> rw [hc] at h ⊢
    cases h

/-- A tick over an answer that can be taken reports, where the column takes every text, or cannot read the text it finds. -/
theorem textTick_reports (hjsonb : ∀ v, (jsonb v).isSome) {p : Poll} (hinput : p.input.isSome) {tdb : TextDb}
    (hread : (textTick T jsonb p tdb).1 ≠ .error .unreadable) : ∃ out, (textTick T jsonb p tdb).1 = .ok out := by
  rcases textTick_cases T jsonb p tdb with
    ⟨hnone, -⟩ | ⟨out, db, hx⟩ | hx | ⟨out, intervals, a, hx⟩
  · rw [hnone] at hinput
    cases hinput
  · exact ⟨out, by rw [hx]⟩
  · exact absurd (by rw [hx]) hread
  · rcases commit_cases T jsonb out intervals a tdb with ⟨hnone, -⟩ | ⟨db, hc⟩
    · have := hjsonb (T.anchorText a)
      rw [hnone] at this
      cases this
    · exact ⟨out, by rw [hx, hc]⟩

/-! ## Runs -/

def reports (run : List (Except TickError TickOut × TextDb)) : List TickOut := run.filterMap fun x => x.1.toOption

/-- What was fetched by the ticks that reported. -/
def reported (polls : List Poll) (run : List (Except TickError TickOut × TextDb)) : List TickIn :=
  (polls.zip run).filterMap fun q => q.2.1.toOption.bind fun _ => q.1.input

theorem reports_cons_ok {x : Except TickError TickOut × TextDb} {out : TickOut} (hx : x.1 = .ok out)
    (run : List (Except TickError TickOut × TextDb)) : reports (x :: run) = out :: reports run :=
  List.filterMap_cons_some (by rw [hx]; rfl)

theorem reports_cons_error {x : Except TickError TickOut × TextDb} {e : TickError} (hx : x.1 = .error e)
    (run : List (Except TickError TickOut × TextDb)) : reports (x :: run) = reports run :=
  List.filterMap_cons_none (by rw [hx]; rfl)

theorem reported_cons_ok {x : Except TickError TickOut × TextDb} {out : TickOut} (hx : x.1 = .ok out) {p : Poll}
    {inp : TickIn} (hinp : p.input = some inp) (polls : List Poll) (run : List (Except TickError TickOut × TextDb)) :
    reported (p :: polls) (x :: run) = inp :: reported polls run := by
  unfold reported
  rw [List.zip_cons_cons]
  exact List.filterMap_cons_some (by rw [hx]; exact hinp)

theorem reported_cons_error {x : Except TickError TickOut × TextDb} {e : TickError} (hx : x.1 = .error e) (p : Poll)
    (polls : List Poll) (run : List (Except TickError TickOut × TextDb)) :
    reported (p :: polls) (x :: run) = reported polls run := by
  unfold reported
  rw [List.zip_cons_cons]
  exact List.filterMap_cons_none (by rw [hx]; rfl)

theorem runInputs_agrees (hjsonb : ∀ a v, jsonb (T.anchorText a) = some v → Stored (T.anchorText a) v) (polls : List Poll)
    {tdb : TextDb} {db : Db} (h : Same T tdb db) {run : List (Except TickError TickOut × TextDb)}
    (hrun : run = runInputs (textTick T jsonb) polls tdb) :
    (∀ x ∈ run, x.1 ≠ .error .unreadable) ∧
      reports run = (runInputs tick (reported polls run) db).map Prod.fst ∧
      Same T (lastOf (textTick T jsonb) polls tdb) (lastOf tick (reported polls run) db) := by
  induction polls generalizing tdb db run with
  | nil =>
    subst hrun
    exact ⟨fun x hx => absurd hx List.not_mem_nil, rfl, h⟩
  | cons p polls ih =>
    have hagrees : Agrees T p (textTick T jsonb p tdb) tdb db := textTick_agrees hjsonb p h
    rw [runInputs] at hrun
    subst hrun
    have hlast : lastOf (textTick T jsonb) (p :: polls) tdb =
        lastOf (textTick T jsonb) polls (textTick T jsonb p tdb).2 := rfl
    rw [hlast, List.forall_mem_cons]
    cases hx : (textTick T jsonb p tdb).1 with
    | ok out =>
      rw [Agrees, hx] at hagrees
      obtain ⟨inp, hinp, rfl, hsame⟩ := hagrees
      obtain ⟨hread, hreports, hrest⟩ := ih hsame rfl
      rw [reported_cons_ok hx hinp, reports_cons_ok hx]
      refine ⟨⟨nofun, hread⟩, ?_, hrest⟩
      rw [runInputs, List.map_cons, ← hreports]
    | error e =>
      rw [Agrees, hx] at hagrees
      obtain ⟨he, hsame⟩ := hagrees
      obtain ⟨hread, hreports, hrest⟩ := ih (hsame.symm ▸ h) rfl
      rw [reported_cons_error hx, reports_cons_error hx]
      exact ⟨⟨fun heq => he (Except.error.inj heq), hread⟩, hreports, hrest⟩

end Ticks

/-- **The text changes nothing.** In every run no tick fails on the text of an earlier one, a tick that fails leaves the tables
as they are, and the ticks that report are, one after the other, what the ticks by the anchor itself report, with the same
tables at the end. -/
theorem text_ticks (T : TimeText) (jsonb : Value → Option Value)
    (hjsonb : ∀ a v, jsonb (T.anchorText a) = some v → Stored (T.anchorText a) v) (polls : List Poll) :
    let run := runInputs (textTick T jsonb) polls emptyTextDb
    (∀ x ∈ run, x.1 ≠ .error .unreadable) ∧
      (∀ p tdb e, (textTick T jsonb p tdb).1 = .error e → (textTick T jsonb p tdb).2 = tdb) ∧
      reports run = (runInputs tick (reported polls run) emptyDb).map Prod.fst ∧
      Same T (lastOf (textTick T jsonb) polls emptyTextDb) (lastOf tick (reported polls run) emptyDb) := by
  have hstart : Same T emptyTextDb emptyDb := ⟨rfl, .none, rfl⟩
  obtain ⟨hread, hreports, hsame⟩ := runInputs_agrees hjsonb polls hstart rfl
  exact ⟨hread, fun p tdb e => textTick_error, hreports, hsame⟩

/-! ## Two ticks -/

/-- The epoch and the minute after it are written as they are. -/
def minuteText : TimeText where
  write t :=
    if t = 0 then "1970-01-01T00:00:00Z"
    else if t = 60000000 then "1970-01-01T00:01:00Z"
    else String.ofList (List.replicate (Equiv.intEquivNat t) '0')
  read s :=
    if s = "1970-01-01T00:00:00Z" then some 0
    else if s = "1970-01-01T00:01:00Z" then some 60000000
    else some (Equiv.intEquivNat.symm s.length)
  read_write t := by
    have hzeros : ∀ s : String, '1' ∈ s.toList → String.ofList (List.replicate (Equiv.intEquivNat t) '0') ≠ s := by
      rintro _ hs rfl
      rw [String.toList_ofList] at hs
      exact absurd (List.eq_of_mem_replicate hs) (by decide)
    by_cases h0 : t = 0
    · rw [if_pos h0, if_pos rfl, h0]
    by_cases h1 : t = 60000000
    · rw [if_neg h0, if_pos h1, if_neg (by decide), if_pos rfl, h1]
    · rw [if_neg h0, if_neg h1, if_neg (hzeros _ (by decide)), if_neg (hzeros _ (by decide)), String.length_ofList,
        List.length_replicate, Equiv.symm_apply_apply]

/-- `jsonb` keeps the fields of an object by the length of their names, and then by the names. -/
def byName (es : List (String × Value)) : List (String × Value) :=
  es.insertionSort fun e f => toLex (e.1.utf8ByteSize, e.1) ≤ toLex (f.1.utf8ByteSize, f.1)

def keptFlat : Value → Value
  | .obj es => .obj (byName es)
  | v => v

/-- An object of these, as the text of an anchor is one. -/
def kept : Value → Value
  | .obj es => .obj ((byName es).map fun e => (e.1, keptFlat e.2))
  | v => v

theorem stored_byName (es : List (String × Value)) : es.Perm (byName es) := (List.perm_insertionSort _ es).symm

theorem stored_keptFlat (v : Value) : Stored v (keptFlat v) := by
  cases v with
  | obj es =>
    have hsame : ∀ fs : List (String × Value), List.Forall₂ Stored (fs.map Prod.snd) (fs.map Prod.snd) := fun fs =>
      List.forall₂_same.mpr fun v _ => stored_refl v
    exact .obj (stored_byName es) rfl (hsame _)
  | _ => exact stored_refl _

theorem stored_kept (v : Value) : Stored v (kept v) := by
  cases v with
  | obj es =>
    refine .obj (stored_byName es) (by rw [List.map_map]; rfl) ?_
    rw [List.map_map, List.forall₂_map_left_iff, List.forall₂_map_right_iff, List.forall₂_same]
    exact fun e _ => stored_keptFlat e.2
  | _ => exact stored_refl _

/-- An answer at the epoch, and one a minute later. -/
def twoPolls : List Poll := [⟨0, hundred "19700101080000000"⟩, ⟨60000000, hundred "19700101080100000"⟩]

/-- The second tick goes by the text of the first. -/
theorem text_ticks_two :
    let run := runInputs (textTick minuteText fun v => some (kept v)) twoPolls emptyTextDb
    (reports run).map TickOut.mode = [.init, .replay] ∧
      Same minuteText (lastOf (textTick minuteText fun v => some (kept v)) twoPolls emptyTextDb)
        (lastOf tick (reported twoPolls run) emptyDb) := by
  have hjsonb : ∀ a v, some (kept (minuteText.anchorText a)) = some v → Stored (minuteText.anchorText a) v := by
    intro a v hv
    rw [← Option.some_inj.mp hv]
    exact stored_kept _
  obtain ⟨hread, -, hreports, hsame⟩ := text_ticks minuteText (fun v => some (kept v)) hjsonb twoPolls
  refine ⟨?_, hsame⟩
  have hinputs : ∀ p ∈ twoPolls, p.input.isSome := by decide +kernel
  obtain ⟨i, hi⟩ := Option.isSome_iff_exists.mp (hinputs _ List.mem_cons_self)
  obtain ⟨j, hj⟩ := Option.isSome_iff_exists.mp (hinputs _ (List.mem_cons_of_mem _ List.mem_cons_self))
  obtain ⟨out, hout⟩ := textTick_reports (fun _ => rfl) (hinputs _ List.mem_cons_self) (hread _ List.mem_cons_self)
  obtain ⟨out', hout'⟩ := textTick_reports (fun _ => rfl) (hinputs _ (List.mem_cons_of_mem _ List.mem_cons_self))
    (hread _ (List.mem_cons_of_mem _ List.mem_cons_self))
  have hreported : reported twoPolls (runInputs (textTick minuteText fun v => some (kept v)) twoPolls emptyTextDb) =
      twoPolls.filterMap Poll.input := by
    rw [twoPolls, runInputs, runInputs, runInputs, reported_cons_ok hout hi, reported_cons_ok hout' hj,
      List.filterMap_cons_some hi, List.filterMap_cons_some hj]
    rfl
  rw [hreports, hreported]
  decide +kernel

end TtAiops.TosAvail
