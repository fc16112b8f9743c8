import TtAiops.Ingest.TerminalTime
import TtAiops.Lib.Maps
import TtAiops.TosAvail.Replay

/-!
# What a tick fetches (`parse_fetch`)

One statement returns the time of the snapshot, the machines, the busy work orders, the stopped machines and the change
records as rows of texts, in no particular order; a letter says what a row is.

* `RawRow`, `clean`, `myt`, `parseU64` : a row, and the readers of its texts;
* `fetchRow`, `parseFetch` : one row put into what has been read, and all rows, with the refusals;
* `machineOf`, `logOf`, `busyOf`, `stopOf`, `changeOf`, `timeOf` : what a single row says;
* `fetched_eq` : what is read of all rows is what the single rows say;
* `Reads` : a snapshot says what the rows say, without regard to their order;
* `fetch_reads` : **exactly such a snapshot is read, in whatever order the rows come, unless it is refused**.
-/

namespace TtAiops.TosAvail
open TtAiops.Lib TtAiops.Ingest

def MIN_MACHINES : ℕ := 100

def MIN_ON_FOR_BUSY_GUARD : ℕ := 50

structure RawRow where
  k : String
  a : Option String
  b : Option String
  c : Option String
  d : Option String
  e : Option String
  f : Option String
  g : Option String
  h : Option String
  i : Option String
  j : Option String

def clean (s : Option String) : Option String := (s.map Texts.trimmed).filter (· ≠ "")

/-- `parse_myt`, in microseconds. -/
def myt (s : Option String) : Option ℤ :=
  s.bind fun s => (TerminalTime.parseMyt s.toList).join.map fun t => t.sec * 1000000 + t.nano / 1000

/-- `parse::<u64>`: digits, perhaps behind a plus sign. -/
def parseU64 (s : List Char) : Option ℕ :=
  let ds := if s.head? = some '+' then s.tail else s
  if ds ≠ [] ∧ ds.all Decimals.isDigit ∧ Decimals.value ds < 2 ^ 64 then some (Decimals.value ds) else none

/-! ## The loop -/

structure Fetched where
  asOf : Option ℤ
  state : State
  lastOn : HashMap String ℤ
  lastOff : HashMap String ℤ
  changes : List Change
  badScn : ℕ
  badHist : ℕ

def Fetched.start : Fetched := ⟨none, ⟨∅, ∅, ∅⟩, ∅, ∅, [], 0, 0⟩

def putMachine (x : Fetched) (r : RawRow) : Fetched :=
  match clean r.a with
  | none => x
  | some code =>
    { x with
      lastOn := match myt r.e with
        | some t => x.lastOn.insert code t
        | none => x.lastOn
      lastOff := match myt r.f with
        | some t => x.lastOff.insert code t
        | none => x.lastOff
      state := { x.state with machines := x.state.machines.insert code ⟨(clean r.c).getD "", clean r.d⟩ } }

def putBusy (x : Fetched) (r : RawRow) : Fetched :=
  match clean r.a, clean r.b with
  | some contno, some point =>
    { x with state := { x.state with
        rows := x.state.rows.insert (contno, point, (clean r.c).getD "") ⟨clean r.d, (clean r.e).getD "X"⟩ } }
  | _, _ => x

def putStop (x : Fetched) (r : RawRow) : Fetched :=
  match clean r.a with
  | none => x
  | some code => { x with state := { x.state with stopped := insert code x.state.stopped } }

def putHist (x : Fetched) (r : RawRow) : Fetched :=
  match myt r.a, r.b.bind fun s => (Texts.trimmed s).toList.head?, clean r.c, clean r.d with
  | some ts, some ty, some contno, some point =>
    match r.j.bind fun s => parseU64 (Texts.trimmed s).toList with
    | none => { x with badScn := x.badScn + 1 }
    | some scn =>
      { x with changes := x.changes ++ [{
          scn := scn
          ts := ts
          ty := ty
          key := (contno, point, (clean r.e).getD "")
          ytno := clean r.f
          ys := (clean r.g).getD "X"
          jobtype := clean r.h
          program := clean r.i }] }
  | _, _, _, _ => { x with badHist := x.badHist + 1 }

def fetchRow (x : Fetched) (r : RawRow) : Fetched :=
  if r.k = "T" then { x with asOf := myt r.a }
  else if r.k = "M" then putMachine x r
  else if r.k = "B" then putBusy x r
  else if r.k = "W" then putStop x r
  else if r.k = "H" then putHist x r
  else x

inductive Refusal
  | noTime
  | fewMachines (n : ℕ)
  | noneBusy (nOn : ℕ)

/-- How many machines are on. -/
def nOn (s : State) : ℕ := (s.machines.keys.filter fun c => s.isOn c).card

def fetched (rows : List RawRow) : Fetched := rows.foldl fetchRow Fetched.start

def parseFetch (rows : List RawRow) : Except Refusal (Snapshot × List Change) :=
  let x := fetched rows
  match x.asOf with
  | none => .error .noTime
  | some asOf =>
    if x.state.machines.keys.card < MIN_MACHINES then .error (.fewMachines x.state.machines.keys.card)
    else if x.state.rows = ∅ ∧ MIN_ON_FOR_BUSY_GUARD ≤ nOn x.state then .error (.noneBusy (nOn x.state))
    else .ok (⟨asOf, x.state, x.lastOn, x.lastOff⟩, x.changes)

/-! ## What a row says -/

/-- The time of the snapshot, if the row has it. -/
def timeOf (r : RawRow) : Option (Option ℤ) := if r.k = "T" then some (myt r.a) else none

def machineOf (r : RawRow) : Option (String × Machine) :=
  if r.k = "M" then (clean r.a).map fun code => (code, ⟨(clean r.c).getD "", clean r.d⟩) else none

/-- The last login of a machine, or with the column `f` its last logout. -/
def logOf (column : RawRow → Option String) (r : RawRow) : Option (String × ℤ) :=
  if r.k = "M" then (clean r.a).bind fun code => (myt (column r)).map fun t => (code, t) else none

def busyOf (r : RawRow) : Option (RowKey × JobRow) :=
  if r.k = "B" then do
    let contno ← clean r.a
    let point ← clean r.b
    return ((contno, point, (clean r.c).getD ""), ⟨clean r.d, (clean r.e).getD "X"⟩)
  else none

def stopOf (r : RawRow) : Option String := if r.k = "W" then clean r.a else none

def changeOf (r : RawRow) : Option Change :=
  if r.k = "H" then do
    let ts ← myt r.a
    let ty ← r.b.bind fun s => (Texts.trimmed s).toList.head?
    let contno ← clean r.c
    let point ← clean r.d
    let scn ← r.j.bind fun s => parseU64 (Texts.trimmed s).toList
    return {
      scn := scn
      ts := ts
      ty := ty
      key := (contno, point, (clean r.e).getD "")
      ytno := clean r.f
      ys := (clean r.g).getD "X"
      jobtype := clean r.h
      program := clean r.i }
  else none

def putEntry {K V : Type} [DecidableEq K] (m : HashMap K V) (e : Option (K × V)) : HashMap K V :=
  (e.map fun e => m.insert e.1 e.2).getD m

/-- What is read of one row more. -/
structure Grows (x : Fetched) (r : RawRow) (y : Fetched) : Prop where
  asOf : y.asOf = (timeOf r).getD x.asOf
  rows : y.state.rows = putEntry x.state.rows (busyOf r)
  machines : y.state.machines = putEntry x.state.machines (machineOf r)
  stopped : y.state.stopped = ((stopOf r).map fun c => insert c x.state.stopped).getD x.state.stopped
  lastOn : y.lastOn = putEntry x.lastOn (logOf RawRow.e r)
  lastOff : y.lastOff = putEntry x.lastOff (logOf RawRow.f r)
  changes : y.changes = x.changes ++ (changeOf r).toList

theorem putMachine_grows (x : Fetched) {r : RawRow} (hk : r.k = "M") : Grows x r (putMachine x r) := by
  unfold putMachine
  cases ha : clean r.a with
  | none => constructor <;> simp [timeOf, busyOf, machineOf, stopOf, logOf, changeOf, putEntry, hk, ha]
  | some code =>
    constructor <;> simp [timeOf, busyOf, machineOf, stopOf, logOf, changeOf, putEntry, hk, ha]
    · cases myt r.e <;> rfl
    · cases myt r.f <;> rfl

theorem putBusy_grows (x : Fetched) {r : RawRow} (hk : r.k = "B") : Grows x r (putBusy x r) := by
  unfold putBusy
  cases ha : clean r.a with
  | none => constructor <;> simp [timeOf, busyOf, machineOf, stopOf, logOf, changeOf, putEntry, hk, ha]
  | some contno =>
    cases hb : clean r.b with
    | none => constructor <;> simp [timeOf, busyOf, machineOf, stopOf, logOf, changeOf, putEntry, hk, ha, hb]
    | some point => constructor <;> simp [timeOf, busyOf, machineOf, stopOf, logOf, changeOf, putEntry, hk, ha, hb]

theorem putStop_grows (x : Fetched) {r : RawRow} (hk : r.k = "W") : Grows x r (putStop x r) := by
  unfold putStop
  cases ha : clean r.a with
  | none => constructor <;> simp [timeOf, busyOf, machineOf, stopOf, logOf, changeOf, putEntry, hk, ha]
  | some code => constructor <;> simp [timeOf, busyOf, machineOf, stopOf, logOf, changeOf, putEntry, hk, ha]

theorem putHist_grows (x : Fetched) {r : RawRow} (hk : r.k = "H") : Grows x r (putHist x r) := by
  unfold putHist
  split
  · rename_i ts ty contno point hts hty hcontno hpoint
    split
    · rename_i hscn
      constructor <;> simp [timeOf, busyOf, machineOf, stopOf, logOf, changeOf, putEntry, hk, hts, hty, hcontno, hpoint, hscn]
    · rename_i scn hscn
      constructor <;> simp [timeOf, busyOf, machineOf, stopOf, logOf, changeOf, putEntry, hk, hts, hty, hcontno, hpoint, hscn]
  · rename_i hbad
    have hnone : changeOf r = none := by
      unfold changeOf
      rw [if_pos hk]
      simp only [Option.bind_eq_bind, Option.bind_eq_none_iff]
      exact fun ts hts ty hty contno hcontno point hpoint => absurd hpoint (hbad ts ty contno point hts hty hcontno)
    constructor <;> simp [timeOf, busyOf, machineOf, stopOf, logOf, hnone, putEntry, hk]

theorem fetchRow_grows (x : Fetched) (r : RawRow) : Grows x r (fetchRow x r) := by
  unfold fetchRow
  split_ifs with ht hm hb hw hh
  · constructor <;> simp [timeOf, busyOf, machineOf, stopOf, logOf, changeOf, putEntry, ht]
  · exact putMachine_grows x hm
  · exact putBusy_grows x hb
  · exact putStop_grows x hw
  · exact putHist_grows x hh
  · constructor <;> simp [timeOf, busyOf, machineOf, stopOf, logOf, changeOf, putEntry, ht, hm, hb, hw, hh]

theorem insertAll_filterMap_append {K V : Type} [DecidableEq K] (f : RawRow → Option (K × V)) (rows : List RawRow)
    (r : RawRow) : insertAll ((rows ++ [r]).filterMap f) = putEntry (insertAll (rows.filterMap f)) (f r) := by
  rw [List.filterMap_append]
  cases hf : f r with
  | none =>
    rw [List.filterMap_cons_none hf, List.filterMap_nil, List.append_nil]
    rfl
  | some e =>
    rw [List.filterMap_cons_some hf, List.filterMap_nil, insertAll_append]
    rfl

/-- **What is read of all rows is what the single rows say.** -/
theorem fetched_eq (rows : List RawRow) :
    (fetched rows).asOf = (rows.filterMap timeOf).getLast?.join ∧
      (fetched rows).state = ⟨insertAll (rows.filterMap busyOf), insertAll (rows.filterMap machineOf),
        (rows.filterMap stopOf).toFinset⟩ ∧
      (fetched rows).lastOn = insertAll (rows.filterMap (logOf RawRow.e)) ∧
      (fetched rows).lastOff = insertAll (rows.filterMap (logOf RawRow.f)) ∧
      (fetched rows).changes = rows.filterMap changeOf := by
  induction rows using List.reverseRecOn with
  | nil => exact ⟨rfl, rfl, rfl, rfl, rfl⟩
  | append_singleton rows r ih =>
    obtain ⟨hasOf, hstate, hon, hoff, hchanges⟩ := ih
    have hgrows : Grows (fetched rows) r (fetched (rows ++ [r])) := by
      have hstep : fetched (rows ++ [r]) = fetchRow (fetched rows) r := List.foldl_concat ..
      rw [hstep]
      exact fetchRow_grows _ r
    have hrows : (fetched rows).state.rows = insertAll (rows.filterMap busyOf) := by rw [hstate]
    have hmachines : (fetched rows).state.machines = insertAll (rows.filterMap machineOf) := by rw [hstate]
    have hstopped : (fetched rows).state.stopped = (rows.filterMap stopOf).toFinset := by rw [hstate]
    refine ⟨?_, ?_, ?_, ?_, ?_⟩
    · rw [hgrows.asOf, hasOf, List.filterMap_append]
      cases ht : timeOf r with
      | none => simp [ht]
      | some t => simp [ht]
    · have hstopped' : (fetched (rows ++ [r])).state.stopped = ((rows ++ [r]).filterMap stopOf).toFinset := by
        rw [hgrows.stopped, hstopped, List.filterMap_append]
        cases hc : stopOf r with
        | none => simp [hc]
        | some c =>
          ext c'
          simp [hc]
      rw [insertAll_filterMap_append, insertAll_filterMap_append, ← hrows, ← hmachines, ← hgrows.rows, ← hgrows.machines,
        ← hstopped']
    · rw [hgrows.lastOn, hon, insertAll_filterMap_append]
    · rw [hgrows.lastOff, hoff, insertAll_filterMap_append]
    · rw [hgrows.changes, hchanges, List.filterMap_append]
      cases hc : changeOf r with
      | none => simp [hc]
      | some c => simp [hc]

/-! ## In any order -/

/-- No two rows are about one thing: one time, and the machines and the work orders with keys of their own. -/
structure RowsApart (rows : List RawRow) : Prop where
  times : (rows.filterMap timeOf).length ≤ 1
  machines : ((rows.filterMap machineOf).map Prod.fst).Nodup
  busy : ((rows.filterMap busyOf).map Prod.fst).Nodup

/-- The snapshot says what the rows say. -/
structure Reads (rows : List RawRow) (snap : Snapshot) : Prop where
  asOf : ∃ r ∈ rows, timeOf r = some (some snap.asOf)
  busy : ∀ k v, snap.state.rows.lookup k = some v ↔ ∃ r ∈ rows, busyOf r = some (k, v)
  machines : ∀ c m, snap.state.machines.lookup c = some m ↔ ∃ r ∈ rows, machineOf r = some (c, m)
  stopped : ∀ c, c ∈ snap.state.stopped ↔ ∃ r ∈ rows, stopOf r = some c
  lastOn : ∀ c t, snap.lastOn.lookup c = some t ↔ ∃ r ∈ rows, logOf RawRow.e r = some (c, t)
  lastOff : ∀ c t, snap.lastOff.lookup c = some t ↔ ∃ r ∈ rows, logOf RawRow.f r = some (c, t)

/-- What a tick takes: machines enough, and work orders unless few machines are on. -/
def Plausible (s : State) : Prop := MIN_MACHINES ≤ s.machines.keys.card ∧ (s.rows = ∅ → nOn s < MIN_ON_FOR_BUSY_GUARD)

theorem nodup_logOf {rows : List RawRow} (h : RowsApart rows) (column : RawRow → Option String) :
    ((rows.filterMap (logOf column)).map Prod.fst).Nodup := by
  have hsub : ((rows.filterMap (logOf column)).map Prod.fst).Sublist ((rows.filterMap machineOf).map Prod.fst) := by
    clear h
    induction rows with
    | nil => exact List.Sublist.slnil
    | cons r rows ih =>
      by_cases hk : r.k = "M"
      · cases ha : clean r.a with
        | none =>
          rw [List.filterMap_cons_none (by simp [logOf, ha]), List.filterMap_cons_none (by simp [machineOf, ha])]
          exact ih
        | some code =>
          rw [List.filterMap_cons_some (f := machineOf) (show machineOf r = some (code, _) by simp [machineOf, hk, ha]; rfl)]
          cases ht : myt (column r) with
          | none =>
            rw [List.filterMap_cons_none (by simp [logOf, ht])]
            exact ih.cons _
          | some t =>
            rw [List.filterMap_cons_some (show logOf column r = some (code, t) by simp [logOf, hk, ha, ht])]
            exact ih.cons_cons _
      · rw [List.filterMap_cons_none (by simp [logOf, hk]), List.filterMap_cons_none (by simp [machineOf, hk])]
        exact ih
  exact h.machines.sublist hsub

theorem mem_filterMap_lookup {K V : Type} [DecidableEq K] {f : RawRow → Option (K × V)} {rows : List RawRow}
    (h : ((rows.filterMap f).map Prod.fst).Nodup) {m : HashMap K V} :
    (∀ k v, m.lookup k = some v ↔ ∃ r ∈ rows, f r = some (k, v)) ↔ m = insertAll (rows.filterMap f) := by
  have hall : ∀ k v, (insertAll (rows.filterMap f)).lookup k = some v ↔ ∃ r ∈ rows, f r = some (k, v) := by
    intro k v
    rw [lookup_insertAll_iff h, List.mem_filterMap]
  constructor
  · intro hm
    exact Finmap.ext_lookup fun k => Option.ext fun v => (hm k v).trans (hall k v).symm
  · rintro rfl
    exact hall

theorem reads_iff {rows : List RawRow} (h : RowsApart rows) {snap : Snapshot} :
    Reads rows snap ↔ (fetched rows).asOf = some snap.asOf ∧ snap.state = (fetched rows).state ∧
      snap.lastOn = (fetched rows).lastOn ∧ snap.lastOff = (fetched rows).lastOff := by
  obtain ⟨hasOf, hstate, hon, hoff, -⟩ := fetched_eq rows
  have htime : (∃ r ∈ rows, timeOf r = some (some snap.asOf)) ↔ (fetched rows).asOf = some snap.asOf := by
    rw [hasOf, ← List.mem_filterMap]
    have hone := h.times
    match hts : rows.filterMap timeOf with
    | [] => simp
    | [t] => simp [eq_comm]
    | _ :: _ :: _ =>
      rw [hts, List.length_cons, List.length_cons] at hone
      omega
  have hstopped : (∀ c, c ∈ snap.state.stopped ↔ ∃ r ∈ rows, stopOf r = some c) ↔
      snap.state.stopped = (rows.filterMap stopOf).toFinset := by
    rw [Finset.ext_iff]
    exact forall_congr' fun c => by rw [List.mem_toFinset, List.mem_filterMap]
  have hparts : snap.state = (fetched rows).state ↔ snap.state.rows = insertAll (rows.filterMap busyOf) ∧
      snap.state.machines = insertAll (rows.filterMap machineOf) ∧ snap.state.stopped = (rows.filterMap stopOf).toFinset := by
    rw [hstate]
    obtain ⟨asOf, ⟨jobs, machines, stopped⟩, on, off⟩ := snap
    exact State.mk.injEq _ _ _ _ _ _ ▸ Iff.rfl
  rw [hparts, hon, hoff, ← htime, ← hstopped, ← mem_filterMap_lookup h.busy, ← mem_filterMap_lookup h.machines,
    ← mem_filterMap_lookup (nodup_logOf h RawRow.e), ← mem_filterMap_lookup (nodup_logOf h RawRow.f)]
  exact ⟨fun ⟨h1, h2, h3, h4, h5, h6⟩ => ⟨h1, ⟨h2, h3, h4⟩, h5, h6⟩, fun ⟨h1, ⟨h2, h3, h4⟩, h5, h6⟩ => ⟨h1, h2, h3, h4, h5, h6⟩⟩

theorem parseFetch_eq_ok {rows : List RawRow} {snap : Snapshot} {changes : List Change} :
    parseFetch rows = .ok (snap, changes) ↔ ((fetched rows).asOf = some snap.asOf ∧ snap.state = (fetched rows).state ∧
      snap.lastOn = (fetched rows).lastOn ∧ snap.lastOff = (fetched rows).lastOff) ∧ Plausible snap.state ∧
      changes = (fetched rows).changes := by
  unfold parseFetch Plausible
  dsimp only
  cases hasOf : (fetched rows).asOf with
  | none => simp
  | some asOf =>
    obtain ⟨asOf', state, on, off⟩ := snap
    dsimp only
    split_ifs with hfew hbusy
    · refine iff_of_false (by simp) ?_
      rintro ⟨⟨-, rfl, -⟩, ⟨hmany, -⟩, -⟩
      omega
    · refine iff_of_false (by simp) ?_
      rintro ⟨⟨-, rfl, -⟩, ⟨-, hnone⟩, -⟩
      have := hnone hbusy.1
      omega
    · constructor
      · intro heq
        simp only [Except.ok.injEq, Prod.mk.injEq, Snapshot.mk.injEq] at heq
        obtain ⟨⟨rfl, rfl, rfl, rfl⟩, rfl⟩ := heq
        exact ⟨⟨rfl, rfl, rfl, rfl⟩, ⟨not_lt.mp hfew, fun hnone => not_le.mp fun hon => hbusy ⟨hnone, hon⟩⟩, rfl⟩
      · rintro ⟨⟨hasOf', rfl, rfl, rfl⟩, -, rfl⟩
        rw [Option.some_inj.mp hasOf']

theorem RowsApart.perm {rows rows' : List RawRow} (h : RowsApart rows) (hperm : rows.Perm rows') : RowsApart rows' where
  times := (hperm.filterMap timeOf).length_eq ▸ h.times
  machines := ((hperm.filterMap machineOf).map _).nodup_iff.mp h.machines
  busy := ((hperm.filterMap busyOf).map _).nodup_iff.mp h.busy

theorem Reads.perm {rows rows' : List RawRow} {snap : Snapshot} (h : Reads rows snap) (hperm : rows.Perm rows') :
    Reads rows' snap := by
  have hmem : ∀ p : RawRow → Prop, (∃ r ∈ rows', p r) ↔ ∃ r ∈ rows, p r := fun p =>
    exists_congr fun r => and_congr_left fun _ => hperm.mem_iff.symm
  constructor
  · exact (hmem _).mpr h.asOf
  · exact fun k v => (h.busy k v).trans (hmem _).symm
  · exact fun c m => (h.machines c m).trans (hmem _).symm
  · exact fun c => (h.stopped c).trans (hmem _).symm
  · exact fun c t => (h.lastOn c t).trans (hmem _).symm
  · exact fun c t => (h.lastOff c t).trans (hmem _).symm

theorem parseFetch_iff {rows : List RawRow} (h : RowsApart rows) {snap : Snapshot} {changes : List Change} :
    parseFetch rows = .ok (snap, changes) ↔
      Reads rows snap ∧ Plausible snap.state ∧ changes = rows.filterMap changeOf := by
  rw [parseFetch_eq_ok, reads_iff h, (fetched_eq rows).2.2.2.2]

/-- **What is read.** A snapshot is taken exactly if it says what the rows say and is plausible, with all records that can be
read; in another order the rows give the same snapshot and the same records. -/
theorem fetch_reads {rows : List RawRow} (h : RowsApart rows) (snap : Snapshot) (changes : List Change) :
    (parseFetch rows = .ok (snap, changes) ↔
      Reads rows snap ∧ Plausible snap.state ∧ changes = rows.filterMap changeOf) ∧
      ∀ rows', rows.Perm rows' → parseFetch rows = .ok (snap, changes) →
        ∃ changes', parseFetch rows' = .ok (snap, changes') ∧ changes.Perm changes' := by
  refine ⟨parseFetch_iff h, fun rows' hperm hok => ?_⟩
  obtain ⟨hreads, hplausible, rfl⟩ := (parseFetch_iff h).mp hok
  exact ⟨rows'.filterMap changeOf, (parseFetch_iff (h.perm hperm)).mpr ⟨hreads.perm hperm, hplausible, rfl⟩,
    hperm.filterMap changeOf⟩

/-- A row with its letter and its first three texts. -/
def rawRow (k : String) (a b c : Option String) : RawRow := ⟨k, a, b, c, none, none, none, none, none, none, none⟩

/-- An answer with a time, a hundred machines that are on, a stop, and a truck at work. -/
def hundred (ts : String) : List RawRow :=
  rawRow "T" (some ts) none none :: rawRow "W" (some " 8 ") (some "BD") none ::
    { rawRow "B" (some "ABCU1234567") (some "1") none with d := some "7", e := some "A" } ::
    (List.range 100).map fun n => rawRow "M" (some (toString n)) (some "YT") (some "O")

/-- It is taken, and the other way round it gives the same snapshot. -/
theorem fetch_reads_hundred : ∃ snap, parseFetch (hundred "20261001000000000") = .ok (snap, []) ∧
    Reads (hundred "20261001000000000") snap ∧ Plausible snap.state ∧
    ∃ changes, parseFetch (hundred "20261001000000000").reverse = .ok (snap, changes) := by
  have hapart : RowsApart (hundred "20261001000000000") := ⟨by decide +kernel, by decide +kernel, by decide +kernel⟩
  have hnone : (hundred "20261001000000000").filterMap changeOf = [] := by decide +kernel
  have htaken : (parseFetch (hundred "20261001000000000")).toOption.isSome = true := by decide +kernel
  cases hfetch : parseFetch (hundred "20261001000000000") with
  | error r =>
    rw [hfetch] at htaken
    cases htaken
  | ok x =>
    obtain ⟨snap, changes⟩ := x
    obtain ⟨hiff, horder⟩ := fetch_reads hapart snap changes
    obtain ⟨hreads, hplausible, hchanges⟩ := hiff.mp hfetch
    obtain ⟨changes', hreverse, -⟩ := horder _ (List.reverse_perm _).symm hfetch
    exact ⟨snap, by rw [hchanges, hnone], hreads, hplausible, changes', hreverse⟩

end TtAiops.TosAvail
