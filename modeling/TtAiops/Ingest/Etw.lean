import TtAiops.Lib.Codecs
import TtAiops.Lib.Tables
import TtAiops.Lib.Texts

/-!
# The cache of crane times (`src_etw`)

A gateway answers with a snapshot of a voyage and says until when it is current. A tick asks for the voyages of the work pool,
but for those with a row that is current, puts the containers of what comes back into the table, and drops what is older than
two hours.

* `classifyEtwFetch`, `etwCntrs`, `land` : what comes of one request;
* `visit`, `tick`, `run` : one voyage, a tick, the rows that a run lands and the table after it;
* `visits_eq` : a tick as what it asks for and what lands;
* `etw_table` : **the table has the last row that landed of every container, unless that was two hours ago**;
* `etw_cached` : **while a row of a voyage is current, the voyage is not asked for and its rows stay as they are**;
* `verdict_error_iff`, `etw_run` : when a tick counts as failed, and all of it together.

The program and the database read one clock. Readers of JSON and of times are given functions; what is not null, a number, a
text, an array or an object is null. Output is text.
-/

namespace TtAiops.Ingest.Etw
open TtAiops.Lib

/-! ## One request -/

abbrev Voyage := String × String

/-- A row of `tos_etw_cntr`. -/
structure EtwRow where
  vessel : String
  voyage : String
  cntrNo : String
  disLd : Option String
  qcEtwUtc : Option ℤ
  vesselEtwUtc : Option ℤ
  fetchedAtUtc : Option ℤ
  expiresAtUtc : Option ℤ
  updatedAt : ℤ

def EtwRow.key (x : EtwRow) : String × String × String := (x.vessel, x.voyage, x.cntrNo)

def EtwRow.of (x : EtwRow) : Voyage := (x.vessel, x.voyage)

structure Readers where
  json : List Char → Except String Value
  rfc3339 : String → Option ℤ

/-- What a finished `curl` leaves. -/
structure CurlOut where
  exitOk : Bool
  stdout : List Char
  stderr : List Char

inductive EtwFetch
  | ok (body : List Char)
  | notFound
  | failed (why : String)

/-- `classify_etw_fetch`: the status is what follows the last newline. -/
def classifyEtwFetch (exitOk : Bool) (stdout : List Char) : EtwFetch :=
  if exitOk then
    let code := String.ofList (Texts.trim (stdout.rtakeWhile (· ≠ '\n')))
    let body := (stdout.rdropWhile (· ≠ '\n')).dropLast
    if code = "200" then .ok body else if code = "404" then .notFound else .failed ("HTTP " ++ code)
  else .failed "gateway unreachable"

/-- `get`; of two fields with one name the last counts. -/
def get (k : String) : Value → Option Value
  | .obj es => (es.reverse.find? fun e => e.1 = k).map Prod.snd
  | _ => none

def asStr : Value → Option String
  | .str s => some s
  | _ => none

def asArray : Value → Option (List Value)
  | .arr vs => some vs
  | _ => none

def textOf (k : String) (v : Value) : Option String := (get k v).bind asStr

def etwCntrs (snap : Value) : Except String (List (String × Value)) :=
  match (get "cntr_list" snap).bind asArray with
  | none => .error "snapshot has no cntr_list array"
  | some list =>
    let rows := list.filterMap fun c => ((textOf "cntr_no" c).filter (· ≠ "")).map fun n => (n, c)
    if rows.isEmpty ∧ ¬ list.isEmpty then
      .error ("cntr_list has " ++ toString list.length ++ " entries, none with cntr_no")
    else .ok rows

structure TickIn where
  now : ℤ
  honorExpiry : Bool
  voyages : List Voyage
  curl : Voyage → Except String CurlOut

inductive Landing
  | landed (rows : List EtwRow)
  | notFound
  | failed (why : String)

section

variable (rd : Readers)

def parseTs (s : Option String) : Option ℤ := s.bind rd.rfc3339

def rowOf (now : ℤ) (v : Voyage) (snap : Value) (c : String × Value) : EtwRow where
  vessel := v.1
  voyage := v.2
  cntrNo := c.1
  disLd := textOf "dis_ld" c.2
  qcEtwUtc := parseTs rd (textOf "qc_etw_utc" c.2)
  vesselEtwUtc := parseTs rd (textOf "vessel_etw_utc" c.2)
  fetchedAtUtc := parseTs rd (textOf "fetched_at_utc" snap)
  expiresAtUtc := parseTs rd (textOf "expires_at_utc" snap)
  updatedAt := now

/-- What comes of the request for a voyage. -/
def land (inp : TickIn) (v : Voyage) : Landing :=
  match inp.curl v with
  | .error e => .failed ("spawn curl: " ++ e)
  | .ok out =>
    match classifyEtwFetch out.exitOk out.stdout with
    | .notFound => .notFound
    | .failed why =>
      .failed (if out.stderr.isEmpty then why else why ++ ": " ++ String.ofList (Texts.trim out.stderr))
    | .ok body =>
      match rd.json body with
      | .error e => .failed ("snapshot is not JSON: " ++ e)
      | .ok snap =>
        match etwCntrs snap with
        | .error why => .failed why
        | .ok cntrs => .landed (cntrs.map (rowOf rd inp.now v snap))

/-! ## A tick -/

structure EtwTally where
  fetched : ℕ
  skipped : ℕ
  notFound : ℕ
  failed : ℕ

def etwOutcome (t : EtwTally) (firstErr : Option String) : Except String Unit :=
  if 0 < t.fetched then .ok ()
  else if 0 < t.failed then
    .error ("ETW gateway: all " ++ toString t.failed ++ " snapshot fetches failed, none succeeded (first: " ++
      firstErr.getD "?" ++ ")")
  else if 0 < t.notFound ∧ t.skipped = 0 then
    .error ("ETW gateway: all " ++ toString t.notFound ++ " voyages answered 404 and none has a current snapshot")
  else .ok ()

/-- Until when the rows of a voyage are current. -/
def validUntil (table : List EtwRow) (v : Voyage) : Option ℤ :=
  ((table.filter fun x => x.of = v).filterMap EtwRow.expiresAtUtc).max?

def unexpired (inp : TickIn) (table : List EtwRow) (v : Voyage) : Bool :=
  inp.honorExpiry ∧ (validUntil table v).any fun e => inp.now < e

/-- The variables of the loop; `upserts` and `asked` are what it has written and asked for. -/
structure Loop where
  table : List EtwRow
  upserts : List EtwRow
  asked : List Voyage
  tally : EtwTally
  firstErr : Option String

/-- A turn of the loop; `stored` is the table before it. -/
def visit (inp : TickIn) (stored : List EtwRow) (a : Loop) (v : Voyage) : Loop :=
  if unexpired inp stored v then { a with tally := { a.tally with skipped := a.tally.skipped + 1 } }
  else
    match land rd inp v with
    | .landed rows =>
      { a with
        table := rows.foldl (upsert EtwRow.key) a.table
        upserts := a.upserts ++ rows
        asked := a.asked ++ [v]
        tally := { a.tally with fetched := a.tally.fetched + 1 } }
    | .notFound => { a with asked := a.asked ++ [v], tally := { a.tally with notFound := a.tally.notFound + 1 } }
    | .failed why =>
      { a with
        asked := a.asked ++ [v]
        tally := { a.tally with failed := a.tally.failed + 1 }
        firstErr := a.firstErr.or (some (v.1 ++ "/" ++ v.2 ++ ": " ++ why)) }

def KEEP : ℤ := 2 * 3600 * 1000000

structure TickOut where
  table : List EtwRow
  upserts : List EtwRow
  asked : List Voyage
  verdict : Except String Unit

/-- `src_etw`; times in microseconds. -/
def tick (inp : TickIn) (table : List EtwRow) : TickOut :=
  let a := inp.voyages.foldl (visit rd inp table) ⟨table, [], [], ⟨0, 0, 0, 0⟩, none⟩
  { table := a.table.filter fun x => ¬ x.updatedAt < inp.now - KEEP
    upserts := a.upserts
    asked := a.asked
    verdict := etwOutcome a.tally a.firstErr }

/-- The rows that have landed, and the table. -/
def step (acc : List EtwRow × List EtwRow) (inp : TickIn) : List EtwRow × List EtwRow :=
  (acc.1 ++ (tick rd inp acc.2).upserts, (tick rd inp acc.2).table)

def run (ss : List TickIn) : List EtwRow × List EtwRow := ss.foldl (step rd) ([], [])

/-! ## What a tick asks for, and what lands -/

def Landing.rows : Landing → List EtwRow
  | .landed rows => rows
  | _ => []

def Landing.isLanded : Landing → Bool
  | .landed _ => true
  | _ => false

def Landing.isNotFound : Landing → Bool
  | .notFound => true
  | _ => false

def Landing.why : Landing → Option String
  | .failed why => some why
  | _ => none

def askedOf (inp : TickIn) (table : List EtwRow) (vs : List Voyage) : List Voyage := vs.filter fun v => ¬ unexpired inp table v

variable {rd}

theorem askedOf_cons {inp : TickIn} {stored : List EtwRow} (v : Voyage) (vs : List Voyage) :
    askedOf inp stored (v :: vs) =
      if unexpired inp stored v then askedOf inp stored vs else v :: askedOf inp stored vs := by
  unfold askedOf
  cases hskip : unexpired inp stored v with
  | true => rw [List.filter_cons_of_neg (by simp [hskip]), if_pos rfl]
  | false => rw [List.filter_cons_of_pos (by simp [hskip]), if_neg Bool.false_ne_true]

theorem visits_eq (inp : TickIn) (stored : List EtwRow) (vs : List Voyage) (a : Loop) :
    vs.foldl (visit rd inp stored) a =
      { table := ((askedOf inp stored vs).flatMap fun v => (land rd inp v).rows).foldl (upsert EtwRow.key) a.table
        upserts := a.upserts ++ (askedOf inp stored vs).flatMap fun v => (land rd inp v).rows
        asked := a.asked ++ askedOf inp stored vs
        tally := {
          fetched := a.tally.fetched + (askedOf inp stored vs).countP fun v => (land rd inp v).isLanded
          skipped := a.tally.skipped + vs.countP fun v => unexpired inp stored v
          notFound := a.tally.notFound + (askedOf inp stored vs).countP fun v => (land rd inp v).isNotFound
          failed := a.tally.failed + (askedOf inp stored vs).countP fun v => (land rd inp v).why.isSome }
        firstErr := a.firstErr.or ((askedOf inp stored vs).findSome? fun v =>
          (land rd inp v).why.map fun why => v.1 ++ "/" ++ v.2 ++ ": " ++ why) } := by
  induction vs generalizing a with
  | nil => simp [askedOf]
  | cons v vs ih =>
    rw [List.foldl_cons, ih]
    rw [askedOf_cons]
    unfold visit
    cases hskip : unexpired inp stored v with
    | true =>
      rw [if_pos rfl, if_pos rfl, List.countP_cons_of_pos hskip]
      simp only [Nat.add_assoc, Nat.add_comm 1]
    | false =>
      have hcount : (v :: vs).countP (fun v => unexpired inp stored v) = vs.countP fun v => unexpired inp stored v :=
        List.countP_cons_of_neg (by simp [hskip])
      rw [if_neg Bool.false_ne_true, if_neg Bool.false_ne_true, hcount, List.flatMap_cons, List.countP_cons, List.countP_cons,
        List.countP_cons, List.findSome?_cons]
      cases hland : land rd inp v with
      | landed rows =>
        simp only [Landing.rows, Landing.isLanded, Landing.isNotFound, Landing.why, List.foldl_append, List.append_assoc]
        simp [Nat.add_assoc, Nat.add_comm]
      | notFound => simp [Landing.rows, Landing.isLanded, Landing.isNotFound, Landing.why, Nat.add_assoc, Nat.add_comm]
      | failed why => simp [Landing.rows, Landing.isLanded, Landing.isNotFound, Landing.why, Nat.add_assoc, Nat.add_comm]

section

variable {inp : TickIn} {T : List EtwRow}

theorem tick_asked : (tick rd inp T).asked = askedOf inp T inp.voyages := by
  unfold tick
  rw [visits_eq]
  exact List.nil_append _

theorem tick_upserts : (tick rd inp T).upserts = (tick rd inp T).asked.flatMap fun v => (land rd inp v).rows := by
  rw [tick_asked]
  unfold tick
  rw [visits_eq]
  exact List.nil_append _

/-- A tick leaves the last row of every container that has landed in it, and else the row that was there, if it is not old. -/
theorem mem_tick_table {x : EtwRow} : x ∈ (tick rd inp T).table ↔
    (x ∈ current EtwRow.key (tick rd inp T).upserts ∨ (x ∈ T ∧ ∀ y ∈ (tick rd inp T).upserts, y.key ≠ x.key)) ∧
      inp.now - KEEP ≤ x.updatedAt := by
  have htable : (tick rd inp T).table =
      ((tick rd inp T).upserts.foldl (upsert EtwRow.key) T).filter fun x => ¬ x.updatedAt < inp.now - KEEP := by
    rw [tick_upserts, tick_asked]
    unfold tick
    rw [visits_eq]
  rw [htable, List.mem_filter, mem_foldl_upsert, decide_eq_true_iff, not_lt]

theorem of_mem_land {v : Voyage} {y : EtwRow} (h : y ∈ (land rd inp v).rows) : y.of = v := by
  unfold land at h
  split at h
  · exact absurd h List.not_mem_nil
  · split at h
    · exact absurd h List.not_mem_nil
    · exact absurd h List.not_mem_nil
    · split at h
      · exact absurd h List.not_mem_nil
      · split at h
        · exact absurd h List.not_mem_nil
        · obtain ⟨c, -, rfl⟩ := List.mem_map.mp h
          rfl

theorem of_mem_upserts {y : EtwRow} (h : y ∈ (tick rd inp T).upserts) : y.of ∈ (tick rd inp T).asked := by
  rw [tick_upserts] at h
  obtain ⟨v, hv, hy⟩ := List.mem_flatMap.mp h
  rw [of_mem_land hy]
  exact hv

theorem le_validUntil {x : EtwRow} {e : ℤ} (hx : x ∈ T) (he : x.expiresAtUtc = some e) :
    ∃ m, validUntil T x.of = some m ∧ e ≤ m := by
  have hmem : e ∈ (T.filter fun y => y.of = x.of).filterMap EtwRow.expiresAtUtc :=
    List.mem_filterMap.mpr ⟨x, List.mem_filter.mpr ⟨hx, decide_eq_true rfl⟩, he⟩
  unfold validUntil
  cases hmax : ((T.filter fun y => y.of = x.of).filterMap EtwRow.expiresAtUtc).max? with
  | none =>
    rw [List.max?_eq_none_iff.mp hmax] at hmem
    exact absurd hmem List.not_mem_nil
  | some m => exact ⟨m, rfl, (List.max?_eq_some_iff.mp hmax).2 e hmem⟩

/-- A voyage with a row that is current is not asked for, and keeps its rows. -/
theorem tick_cached {x : EtwRow} {e : ℤ} (hx : x ∈ T) (he : x.expiresAtUtc = some e) (hhonor : inp.honorExpiry = true)
    (hnow : inp.now < e) : x.of ∉ (tick rd inp T).asked ∧
      ∀ y : EtwRow, y.of = x.of → (y ∈ (tick rd inp T).table ↔ y ∈ T ∧ inp.now - KEEP ≤ y.updatedAt) := by
  have hskip : unexpired inp T x.of = true := by
    obtain ⟨m, hm, hle⟩ := le_validUntil hx he
    unfold unexpired
    rw [hm, hhonor]
    simpa using hnow.trans_le hle
  have hasked : x.of ∉ (tick rd inp T).asked := by
    rw [tick_asked]
    intro hmem
    have hnot := (List.mem_filter.mp hmem).2
    rw [hskip] at hnot
    exact absurd hnot (by decide)
  refine ⟨hasked, fun y hy => ?_⟩
  have hother : ∀ z ∈ (tick rd inp T).upserts, z.key ≠ y.key := by
    intro z hz hkey
    have hvoyage : z.of = y.of := by
      unfold EtwRow.key at hkey
      unfold EtwRow.of
      obtain ⟨hvessel, hkey⟩ := Prod.mk.inj hkey
      rw [hvessel, (Prod.mk.inj hkey).1]
    exact hasked (hy ▸ hvoyage ▸ of_mem_upserts hz)
  rw [mem_tick_table]
  refine and_congr_left fun _ => ⟨?_, fun hT => Or.inr ⟨hT, hother⟩⟩
  rintro (hcur | ⟨hT, -⟩)
  · exact absurd rfl (hother y (mem_of_mem_current hcur))
  · exact hT

theorem etwOutcome_error_iff (t : EtwTally) (firstErr : Option String) :
    (∃ msg, etwOutcome t firstErr = .error msg) ↔ t.fetched = 0 ∧ (0 < t.failed ∨ (0 < t.notFound ∧ t.skipped = 0)) := by
  unfold etwOutcome
  split_ifs with hfetched hfailed hnone
  · exact iff_of_false (by simp) fun h => hfetched.ne' h.1
  · exact iff_of_true ⟨_, rfl⟩ ⟨by omega, Or.inl hfailed⟩
  · exact iff_of_true ⟨_, rfl⟩ ⟨by omega, Or.inr hnone⟩
  · exact iff_of_false (by simp) fun h => h.2.elim hfailed hnone

/-- A tick counts as failed iff nothing landed, and a request failed, or one was not known and none was spared. -/
theorem verdict_error_iff : (∃ msg, (tick rd inp T).verdict = .error msg) ↔
    (∀ v ∈ (tick rd inp T).asked, (land rd inp v).isLanded = false) ∧
      ((∃ v ∈ (tick rd inp T).asked, (land rd inp v).why.isSome = true) ∨
        ((∃ v ∈ (tick rd inp T).asked, (land rd inp v).isNotFound = true) ∧
          ∀ v ∈ inp.voyages, v ∈ (tick rd inp T).asked)) := by
  have hall : (∀ v ∈ inp.voyages, v ∈ askedOf inp T inp.voyages) ↔ ∀ v ∈ inp.voyages, unexpired inp T v = false := by
    unfold askedOf
    refine forall₂_congr fun v hv => ?_
    rw [List.mem_filter, and_iff_right hv, decide_eq_true_iff, Bool.not_eq_true]
  rw [tick_asked, hall]
  unfold tick
  rw [visits_eq]
  dsimp only
  rw [etwOutcome_error_iff, zero_add, zero_add, zero_add, zero_add, List.countP_eq_zero, List.countP_pos_iff, List.countP_pos_iff,
    List.countP_eq_zero]
  simp only [Bool.not_eq_true]

end

/-! ## A run -/

theorem run_append_singleton (ss : List TickIn) (s : TickIn) : run rd (ss ++ [s]) = step rd (run rd ss) s := by
  unfold run
  rw [List.foldl_concat]

/-- Of what is not old the table has the last row of every container. -/
theorem mem_run_iff {ss : List TickIn} {now : ℤ} (hclock : (ss.map TickIn.now ++ [now]).Pairwise (· ≤ ·)) {x : EtwRow}
    (hfresh : now - KEEP ≤ x.updatedAt) : x ∈ (run rd ss).2 ↔ x ∈ current EtwRow.key (run rd ss).1 := by
  induction ss using List.reverseRecOn generalizing now with
  | nil => exact Iff.rfl
  | append_singleton ss s ih =>
    rw [List.map_append] at hclock
    obtain ⟨hbefore, -, hlast⟩ := List.pairwise_append.mp hclock
    have hle : s.now ≤ now := hlast s.now (List.mem_append_right _ List.mem_cons_self) now List.mem_cons_self
    have hfresh' : s.now - KEEP ≤ x.updatedAt := (sub_le_sub_right hle _).trans hfresh
    rw [run_append_singleton]
    unfold step
    rw [mem_tick_table, mem_current_append, ih hbefore hfresh', and_iff_left hfresh']

theorem etw_table {ss : List TickIn} {s : TickIn} (hclock : (ss.map TickIn.now ++ [s.now]).Pairwise (· ≤ ·)) (x : EtwRow) :
    x ∈ (run rd (ss ++ [s])).2 ↔ x ∈ current EtwRow.key (run rd (ss ++ [s])).1 ∧ s.now - KEEP ≤ x.updatedAt := by
  rw [run_append_singleton]
  unfold step
  rw [mem_tick_table, mem_current_append]
  refine and_congr_left fun hfresh => ?_
  rw [mem_run_iff hclock hfresh]

theorem etw_cached {ss ss' : List TickIn} {x : EtwRow} {e : ℤ} (hx : x ∈ (run rd ss).2) (he : x.expiresAtUtc = some e)
    (hkeep : e ≤ x.updatedAt + KEEP) (hlater : ∀ s ∈ ss', s.honorExpiry = true ∧ s.now < e) :
    (∀ pre s, pre ++ [s] <+: ss' → x.of ∉ (tick rd s (run rd (ss ++ pre)).2).asked) ∧
      ∀ y : EtwRow, y.of = x.of →
        (y ∈ (run rd (ss ++ ss')).2 ↔ y ∈ (run rd ss).2 ∧ ∀ s ∈ ss', s.now - KEEP ≤ y.updatedAt) := by
  induction ss' using List.reverseRecOn with
  | nil =>
    refine ⟨fun pre s h => absurd (List.prefix_nil.mp h) (by simp), fun y _ => ?_⟩
    rw [List.append_nil]
    exact (and_iff_left fun s hs => absurd hs List.not_mem_nil).symm
  | append_singleton ss' s ih =>
    have hbefore : ∀ s' ∈ ss', s'.honorExpiry = true ∧ s'.now < e := fun s' hs' => hlater s' (List.mem_append_left _ hs')
    obtain ⟨hhonor, hnow⟩ := hlater s (List.mem_append_right _ List.mem_cons_self)
    obtain ⟨hnot, hrows⟩ := ih hbefore
    -- the row is still there, for it is younger than its expiry
    have hx' : x ∈ (run rd (ss ++ ss')).2 := (hrows x rfl).mpr ⟨hx, fun s' hs' => by linarith [(hbefore s' hs').2]⟩
    obtain ⟨hasked, hstay⟩ := tick_cached hx' he hhonor hnow
    refine ⟨fun pre s' h => ?_, fun y hy => ?_⟩
    · rcases List.prefix_concat_iff.mp h with heq | h
      · obtain ⟨rfl, hs⟩ := List.append_inj' heq rfl
        rw [List.singleton_inj.mp hs]
        exact hasked
      · exact hnot pre s' h
    · rw [← List.append_assoc, run_append_singleton]
      unfold step
      rw [hstay y hy, hrows y hy, and_assoc, List.forall_mem_append, List.forall_mem_singleton]

/-- **The cache.** The table has the last row that landed of every container, unless that was two hours ago. While a row is
current, its voyage is not asked for and keeps its rows as they are. And a tick counts as failed iff nothing landed, and a
request failed, or one was not known and no voyage was spared. -/
theorem etw_run {ss : List TickIn} {s : TickIn} (hclock : (ss.map TickIn.now ++ [s.now]).Pairwise (· ≤ ·)) :
    (∀ x, x ∈ (run rd (ss ++ [s])).2 ↔ x ∈ current EtwRow.key (run rd (ss ++ [s])).1 ∧ s.now - KEEP ≤ x.updatedAt) ∧
      (∀ x ∈ (run rd (ss ++ [s])).2, ∀ e ss', x.expiresAtUtc = some e → e ≤ x.updatedAt + KEEP →
        (∀ s' ∈ ss', s'.honorExpiry = true ∧ s'.now < e) →
          (∀ pre s', pre ++ [s'] <+: ss' → x.of ∉ (tick rd s' (run rd (ss ++ [s] ++ pre)).2).asked) ∧
          ∀ y : EtwRow, y.of = x.of → (y ∈ (run rd (ss ++ [s] ++ ss')).2 ↔
            y ∈ (run rd (ss ++ [s])).2 ∧ ∀ s' ∈ ss', s'.now - KEEP ≤ y.updatedAt)) ∧
      ((∃ msg, (tick rd s (run rd ss).2).verdict = .error msg) ↔
        (∀ v ∈ (tick rd s (run rd ss).2).asked, (land rd s v).isLanded = false) ∧
          ((∃ v ∈ (tick rd s (run rd ss).2).asked, (land rd s v).why.isSome = true) ∨
            ((∃ v ∈ (tick rd s (run rd ss).2).asked, (land rd s v).isNotFound = true) ∧
              ∀ v ∈ s.voyages, v ∈ (tick rd s (run rd ss).2).asked))) :=
  ⟨etw_table hclock, fun _ hx _ _ he hkeep hlater => etw_cached hx he hkeep hlater, verdict_error_iff⟩

def oneContainer : Readers where
  json := fun _ => .ok (.obj [("cntr_list", .arr [.obj [("cntr_no", .str "ABCU1")]]), ("expires_at_utc", .str "soon")])
  rfc3339 := fun _ => some 1800

def askAt (now : ℤ) : TickIn where
  now := now
  honorExpiry := true
  voyages := [("EMZP", "011/2026")]
  curl := fun _ => .ok ⟨true, ['1', '\n', '2', '0', '0'], []⟩

def abcu1 : EtwRow := ⟨"EMZP", "011/2026", "ABCU1", none, none, none, none, some 1800, 0⟩

theorem etw_run_one : abcu1 ∈ (run oneContainer ([] ++ [askAt 0])).2 ∧
    ("EMZP", "011/2026") ∉ (tick oneContainer (askAt 60) (run oneContainer ([] ++ [askAt 0] ++ [])).2).asked := by
  have hlanded : current EtwRow.key (run oneContainer ([] ++ [askAt 0])).1 = [abcu1] := rfl
  have hmem : abcu1 ∈ (run oneContainer ([] ++ [askAt 0])).2 :=
    ((etw_run (by decide)).1 abcu1).mpr ⟨by rw [hlanded]; exact List.mem_singleton_self _, by decide⟩
  have hlater : ∀ s' ∈ [askAt 60], s'.honorExpiry = true ∧ s'.now < 1800 := by
    intro s' hs'
    rw [List.mem_singleton.mp hs']
    decide
  exact ⟨hmem, ((etw_run (by decide)).2.1 abcu1 hmem 1800 [askAt 60] rfl (by decide) hlater).1 [] (askAt 60)
    (List.prefix_refl _)⟩

end

end TtAiops.Ingest.Etw
