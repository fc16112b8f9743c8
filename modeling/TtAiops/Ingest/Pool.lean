import TtAiops.Ingest.Stowplan
import TtAiops.Lib.Groups
import TtAiops.Lib.Texts

/-!
# The work pool (`src_workpool`)

Every tick writes three tables from the rows of the work orders: the trucks that have an order, the orders, and the demand,
which is counted in truck-loads for each queue and source block.

* `MoveRow`, `PoolRow`, `CandidateRow`, `PoolTables` : a row of the work orders, and the tables;
* `MoveRow.route`, `landRow`, `countRow`, `srcWorkpool` : what becomes of a row, and the tick;
* `landRows_eq`, `countRows_buckets` : what the loop leaves;
* `sum_candidates` : the counts of a key are those of its buckets;
* `CountsLoads`, `candidates_count_iff` : **the candidates count truck-loads exactly when every order has a queue and the
  twins that lie in several source blocks are as many as the cast to 32 bits takes away**; short of 2^31 rows, when no twin does.

The timestamps of TOS are parsed by `parseEtw`, whatever it is.
-/

namespace TtAiops.Ingest.Pool
open TtAiops.Lib TtAiops.Lib.Texts TtAiops.Ingest.Stowplan

structure MoveRow where
  queuename : Option String
  vessel : String
  voyage : Option String
  jobtype : Option String
  jobstatus : Option String
  ytStatus : Option String
  ytno : Option String
  armgc : Option String
  etwDt : Option String
  actvDt : Option String
  updDt : Option String
  creDt : Option String
  ytDisDt : Option String
  contno : Option String
  msnseq : Option String
  seqno : Option String
  ytTopos : Option String
  fromPos : Option String
  toPos : Option String
  twintandem : Option String
  twinkey : Option String
  deriving DecidableEq

/-- A row of `live_workpool`. -/
structure PoolRow where
  qc : Option String
  queuename : String
  vessel : String
  voyage : Option String
  jobtype : Option String
  jobstatus : Option String
  ytStatus : Option String
  ytno : Option String
  armgc : Option String
  etwTs : Option ℤ
  etwRaw : Option String
  actvTs : Option ℤ
  actvRaw : Option String
  contno : Option String
  msnseq : Option String
  ytTopos : Option String
  fromPos : Option String
  toPos : Option String
  twintandem : Option String
  asOf : ℤ
  updTs : Option ℤ
  creTs : Option ℤ
  twinkey : Option String
  seqno : Option String
  ytDisTs : Option ℤ
  deriving DecidableEq

structure BucketKey where
  queuename : String
  vessel : String
  jobtype : String
  srcBlock : Option String
  deriving DecidableEq

/-- What the loop keeps of a bucket: the truck-loads, a yard crane, and the twins that are counted. -/
structure Bucket where
  key : BucketKey
  n : ℤ
  rtg : Option String
  seen : Finset String
  deriving DecidableEq

/-- A row of `live_candidate`. -/
structure CandidateRow where
  qc : Option String
  key : BucketKey
  rtg : Option String
  n : ℤ
  asOf : ℤ
  deriving DecidableEq

/-- A row of `live_workqueue`. -/
structure WorkQueue where
  qc : String
  vessel : String
  queuename : String
  deriving DecidableEq

/-- The tables: the trucks with the status of their orders, the orders, and the candidates. -/
structure PoolTables where
  assigned : Finset (String × Option String)
  workpool : List PoolRow
  candidates : List CandidateRow
  deriving DecidableEq

/-! ## What becomes of a row -/

def blockPrefix (s : String) : String := String.ofList (trim (s.toList.takeWhile fun c => c ≠ '-'))

def MoveRow.isDsLd (r : MoveRow) : Bool := r.jobtype = some "DS" ∨ r.jobtype = some "LD"

/-- The truck of the row, if it is not blank. -/
def MoveRow.truck (r : MoveRow) : Option String := (r.ytno.map trimmed).filter fun y => y ≠ ""

def MoveRow.hasTruck (r : MoveRow) : Bool := r.truck.isSome

/-- What the loop makes of a row. -/
inductive Route
  | dispatched
  | unassigned
  | other
  deriving DecidableEq

def MoveRow.route (r : MoveRow) : Route :=
  if r.isDsLd ∧ (r.jobstatus = some "A" ∨ (r.jobstatus = some "Q" ∧ r.hasTruck)) then .dispatched
  else if r.isDsLd ∧ r.jobstatus = some "Q" then .unassigned
  else .other

/-- The source block: for a load, the block of the box; for a discharge there is none. -/
def MoveRow.srcBlock (r : MoveRow) : Option String :=
  if r.jobtype.getD "" = "LD" then (r.ytTopos.map blockPrefix).filter fun s => s ≠ "" else none

def MoveRow.bucketKey (r : MoveRow) : BucketKey := ⟨r.queuename.getD "", r.vessel, r.jobtype.getD "", r.srcBlock⟩

def MoveRow.twin (r : MoveRow) : Option String := r.twinkey.filter fun s => s ≠ ""

def MoveRow.rtg (r : MoveRow) : Option String := r.armgc.filter fun s => s ≠ ""

/-- A row of the demand: its bucket counts it, unless the bucket has counted its twin. -/
def countRow (cand : List Bucket) (r : MoveRow) : List Bucket :=
  let e := (cand.find? fun b => b.key = r.bucketKey).getD ⟨r.bucketKey, 0, none, ∅⟩
  let twinDup := r.twin.any fun t => t ∈ e.seen
  upsert Bucket.key cand
    { e with
      n := if twinDup then e.n else e.n + 1
      rtg := e.rtg.or r.rtg
      seen := r.twin.elim e.seen fun t => insert t e.seen }

section Tick

variable (parseEtw : String → Option ℤ) (asOf : ℤ) (queues : List WorkQueue)

/-- The row that is inserted, with the truck `ytno`; a row without a queue cannot be inserted. -/
def insertRow (ytno : Option String) (r : MoveRow) : Option PoolRow := r.queuename.map fun q =>
  { qc := none
    queuename := q
    vessel := r.vessel
    voyage := r.voyage
    jobtype := r.jobtype
    jobstatus := r.jobstatus
    ytStatus := r.ytStatus
    ytno := ytno
    armgc := r.armgc
    etwTs := r.etwDt.bind parseEtw
    etwRaw := r.etwDt
    actvTs := r.actvDt.bind parseEtw
    actvRaw := r.actvDt
    contno := r.contno
    msnseq := r.msnseq
    ytTopos := r.ytTopos
    fromPos := r.fromPos
    toPos := r.toPos
    twintandem := r.twintandem
    asOf := asOf
    updTs := r.updDt.bind parseEtw
    creTs := r.creDt.bind parseEtw
    twinkey := r.twinkey
    seqno := r.seqno
    ytDisTs := r.ytDisDt.bind parseEtw }

/-- What the loop has: the buckets, and the orders that are inserted. -/
structure Landed where
  cand : List Bucket
  workpool : List PoolRow

def landRow (x : Landed) (r : MoveRow) : Option Landed :=
  match r.route with
  | .dispatched => (insertRow parseEtw asOf r.ytno r).map fun w => { x with workpool := x.workpool ++ [w] }
  | .unassigned => (insertRow parseEtw asOf none r).map fun w => ⟨countRow x.cand r, x.workpool ++ [w]⟩
  | .other => some x

/-- The crane of a queue of the vessel; where there are several, one of them. -/
def qcOf (vessel queuename : String) : Option String :=
  (queues.find? fun q => q.vessel = vessel ∧ q.queuename = queuename).map WorkQueue.qc

def PoolRow.attach (w : PoolRow) : PoolRow := { w with qc := qcOf queues w.vessel w.queuename }

/-- The row of a bucket; the count is stored in 32 bits. -/
def Bucket.row (b : Bucket) : CandidateRow := ⟨qcOf queues b.key.vessel b.key.queuename, b.key, b.rtg, asI32 b.n, asOf⟩

/-- `src_workpool`: the tables after it, or nothing where an insert fails and all is rolled back. -/
def srcWorkpool (rows : List MoveRow) : Option PoolTables :=
  (rows.foldlM (landRow parseEtw asOf) ⟨[], []⟩).map fun x =>
    { assigned := (rows.filterMap fun r => r.truck.map fun y => (y, r.jobstatus.map trimmed)).toFinset
      workpool := x.workpool.map (PoolRow.attach queues)
      candidates := x.cand.map (Bucket.row asOf queues) }

end Tick

/-! ## The loop -/

/-- A `DS` or `LD` order with status `A` or `Q`. -/
def MoveRow.isOpen (r : MoveRow) : Bool := r.isDsLd ∧ (r.jobstatus = some "A" ∨ r.jobstatus = some "Q")

/-- A `DS` or `LD` order with status `Q` and no truck. -/
def MoveRow.isUnassigned (r : MoveRow) : Bool := r.isDsLd ∧ r.jobstatus = some "Q" ∧ ¬ r.hasTruck

theorem route_eq_unassigned {r : MoveRow} : r.route = .unassigned ↔ r.isUnassigned = true := by
  unfold MoveRow.route MoveRow.isUnassigned
  rw [decide_eq_true_iff]
  split_ifs with hdispatched hqueued
  · refine iff_of_false (by decide) fun ⟨_, hq, htruck⟩ => ?_
    rcases hdispatched.2 with ha | ⟨-, htruck'⟩
    · exact absurd (hq.symm.trans ha) (by decide)
    · exact htruck htruck'
  · exact iff_of_true rfl ⟨hqueued.1, hqueued.2, fun htruck => hdispatched ⟨hqueued.1, Or.inr ⟨hqueued.2, htruck⟩⟩⟩
  · exact iff_of_false (by decide) fun h => hqueued ⟨h.1, h.2.1⟩

theorem route_ne_other {r : MoveRow} : r.route ≠ .other ↔ r.isOpen = true := by
  unfold MoveRow.route MoveRow.isOpen
  rw [decide_eq_true_iff]
  split_ifs with hdispatched hqueued
  · exact iff_of_true (by decide) ⟨hdispatched.1, hdispatched.2.imp_right And.left⟩
  · exact iff_of_true (by decide) ⟨hqueued.1, Or.inr hqueued.2⟩
  · refine iff_of_false (not_not.mpr rfl) fun ⟨hdsld, hstatus⟩ => ?_
    rcases hstatus with ha | hq
    · exact hdispatched ⟨hdsld, Or.inl ha⟩
    · exact hqueued ⟨hdsld, hq⟩

section Loop

variable (parseEtw : String → Option ℤ) (asOf : ℤ)

/-- The row that the loop inserts for an order. -/
def rowOf (r : MoveRow) : Option PoolRow :=
  match r.route with
  | .dispatched => insertRow parseEtw asOf r.ytno r
  | .unassigned => insertRow parseEtw asOf none r
  | .other => none

theorem isSome_rowOf {r : MoveRow} (h : r.isOpen = true) : (rowOf parseEtw asOf r).isSome = r.queuename.isSome := by
  unfold rowOf insertRow
  have hroute := route_ne_other.mpr h
  cases hr : r.route with
  | dispatched => simp
  | unassigned => simp
  | other => exact absurd hr hroute

theorem rowOf_eq_none {r : MoveRow} (h : r.isOpen = false) : rowOf parseEtw asOf r = none := by
  have hroute : r.route = .other := by
    by_contra hne
    rw [route_ne_other.mp hne] at h
    cases h
  unfold rowOf
  rw [hroute]

theorem landRow_eq (x : Landed) (r : MoveRow) : landRow parseEtw asOf x r =
    if r.isOpen = true ∧ r.queuename = none then none
    else some ⟨if r.isUnassigned = true then countRow x.cand r else x.cand, x.workpool ++ (rowOf parseEtw asOf r).toList⟩ := by
  have hopen := route_ne_other (r := r)
  have hunassigned := route_eq_unassigned (r := r)
  unfold landRow rowOf insertRow
  cases hr : r.route with
  | dispatched =>
    have hyes : r.isOpen = true := hopen.mp (by simp [hr])
    have hno : ¬ r.isUnassigned = true := fun h => by cases hr.symm.trans (hunassigned.mpr h)
    cases r.queuename <;> simp [hyes, hno]
  | unassigned =>
    have hyes : r.isOpen = true := hopen.mp (by simp [hr])
    have hcount : r.isUnassigned = true := hunassigned.mp hr
    cases r.queuename <;> simp [hyes, hcount]
  | other =>
    have hno : ¬ r.isOpen = true := fun h => hopen.mpr h hr
    have hno' : ¬ r.isUnassigned = true := fun h => by cases hr.symm.trans (hunassigned.mpr h)
    simp [hno, hno']

/-- **What the loop leaves**: nothing, if an order has no queue; else all rows, and the count of the demand. -/
theorem landRows_eq (rows : List MoveRow) (x : Landed) : rows.foldlM (landRow parseEtw asOf) x =
    if ∃ r ∈ rows, r.isOpen = true ∧ r.queuename = none then none
    else some ⟨(rows.filter MoveRow.isUnassigned).foldl countRow x.cand,
      x.workpool ++ rows.filterMap (rowOf parseEtw asOf)⟩ := by
  induction rows generalizing x with
  | nil => simp
  | cons r rows ih =>
    rw [List.foldlM_cons, landRow_eq]
    by_cases hfails : r.isOpen = true ∧ r.queuename = none
    · rw [if_pos hfails, if_pos ⟨r, List.mem_cons_self, hfails⟩]
      rfl
    · rw [if_neg hfails]
      show rows.foldlM (landRow parseEtw asOf) _ = _
      rw [ih]
      have hiff : (∃ r' ∈ r :: rows, r'.isOpen = true ∧ r'.queuename = none) ↔
          ∃ r' ∈ rows, r'.isOpen = true ∧ r'.queuename = none := by
        simp only [List.mem_cons, exists_eq_or_imp]
        exact or_iff_right hfails
      simp only [hiff]
      split_ifs with hrest hunassigned
      · rfl
      · rw [List.filter_cons_of_pos hunassigned, List.filterMap_cons]
        cases rowOf parseEtw asOf r <;> simp
      · rw [List.filter_cons_of_neg hunassigned, List.filterMap_cons]
        cases rowOf parseEtw asOf r <;> simp

end Loop

/-! ## The buckets -/

def bucketOf (k : BucketKey) (rows : List MoveRow) : Bucket :=
  ⟨k, loads MoveRow.twin rows, rows.findSome? MoveRow.rtg, tags MoveRow.twin rows⟩

def inBucket (k : BucketKey) (rows : List MoveRow) : List MoveRow := rows.filter fun r => r.bucketKey = k

/-- There is one bucket for every key of the rows, and it is the bucket of the rows that have it. -/
structure Buckets (cand : List Bucket) (rows : List MoveRow) : Prop where
  nodup : (cand.map Bucket.key).Nodup
  mem : ∀ b, b ∈ cand ↔ b.key ∈ groups MoveRow.bucketKey rows ∧ b = bucketOf b.key (inBucket b.key rows)

section Buckets

variable {cand : List Bucket} {rows : List MoveRow} {r : MoveRow} {k : BucketKey}

theorem inBucket_self : inBucket r.bucketKey (rows ++ [r]) = inBucket r.bucketKey rows ++ [r] := by
  simp [inBucket]

theorem inBucket_of_ne (h : k ≠ r.bucketKey) : inBucket k (rows ++ [r]) = inBucket k rows := by
  simp [inBucket, Ne.symm h]

/-- The entry of a key is the bucket of its rows, also where there are none. -/
theorem Buckets.entry (h : Buckets cand rows) :
    (cand.find? fun b => b.key = k).getD ⟨k, 0, none, ∅⟩ = bucketOf k (inBucket k rows) := by
  cases hf : cand.find? fun b => b.key = k with
  | none =>
    have hnone : inBucket k rows = [] := by
      refine List.filter_eq_nil_iff.mpr fun r hr hkey => ?_
      have hb := (h.mem (bucketOf k (inBucket k rows))).mpr ⟨mem_groups.mpr ⟨r, hr, of_decide_eq_true hkey⟩, rfl⟩
      exact absurd (List.find?_eq_none.mp hf _ hb) (by simp [bucketOf])
    rw [hnone]
    rfl
  | some b =>
    have hkey : b.key = k := by simpa using List.find?_some hf
    rw [← hkey]
    exact ((h.mem b).mp (List.mem_of_find?_eq_some hf)).2

theorem bucketOf_concat : bucketOf k (rows ++ [r]) =
    { bucketOf k rows with
      n := if r.twin.any fun t => t ∈ (bucketOf k rows).seen then (bucketOf k rows).n else (bucketOf k rows).n + 1
      rtg := (bucketOf k rows).rtg.or r.rtg
      seen := r.twin.elim (bucketOf k rows).seen fun t => insert t (bucketOf k rows).seen } := by
  unfold bucketOf
  rw [loads_concat, tags_concat, List.findSome?_append]
  congr 1
  · push_cast
    split_ifs <;> simp
  · cases hrtg : r.rtg <;> simp [hrtg]

theorem Buckets.countRow_eq (h : Buckets cand rows) :
    countRow cand r = upsert Bucket.key cand (bucketOf r.bucketKey (inBucket r.bucketKey (rows ++ [r]))) := by
  unfold countRow
  dsimp only
  rw [h.entry, inBucket_self, bucketOf_concat]

theorem Buckets.countRow (h : Buckets cand rows) : Buckets (countRow cand r) (rows ++ [r]) where
  nodup := by
    rw [h.countRow_eq]
    exact nodup_upsert h.nodup _
  mem := by
    intro b
    rw [h.countRow_eq, mem_upsert, h.mem, mem_groups, mem_groups]
    by_cases hk : b.key = r.bucketKey
    · have hin : ∃ r' ∈ rows ++ [r], r'.bucketKey = b.key := ⟨r, by simp, hk.symm⟩
      rw [hk] at hin ⊢
      constructor
      · rintro (hb | ⟨-, hne⟩)
        · exact ⟨hin, hb⟩
        · exact absurd rfl hne
      · exact fun hb => Or.inl hb.2
    · have hin : (∃ r' ∈ rows ++ [r], r'.bucketKey = b.key) ↔ ∃ r' ∈ rows, r'.bucketKey = b.key := by
        simp only [List.mem_append, List.mem_singleton, or_and_right, exists_or, exists_eq_left]
        exact or_iff_left (Ne.symm hk)
      rw [inBucket_of_ne hk, hin]
      constructor
      · rintro (rfl | ⟨hb, -⟩)
        · exact absurd rfl hk
        · exact hb
      · exact fun hb => Or.inr ⟨hb, hk⟩

end Buckets

/-- **What the count leaves.** -/
theorem countRows_buckets (rows : List MoveRow) : Buckets (rows.foldl countRow []) rows := by
  induction rows using List.reverseRecOn with
  | nil => exact ⟨List.nodup_nil, fun b => by simp [groups]⟩
  | append_singleton rows r ih =>
    rw [List.foldl_concat]
    exact ih.countRow

/-! ## The demand -/

abbrev LoadKey := String × String × String

def BucketKey.loadKey (k : BucketKey) : LoadKey := (k.queuename, k.vessel, k.jobtype)

def MoveRow.loadKey (r : MoveRow) : LoadKey := (r.queuename.getD "", r.vessel, r.jobtype.getD "")

def demandRows (rows : List MoveRow) (k : LoadKey) : List MoveRow := rows.filter fun r => r.isUnassigned ∧ r.loadKey = k

section Sums

variable {cand : List Bucket} {rows : List MoveRow}

theorem Buckets.toFinset_key (h : Buckets cand rows) : (cand.map Bucket.key).toFinset = groups MoveRow.bucketKey rows := by
  ext k
  rw [List.mem_toFinset, List.mem_map]
  constructor
  · rintro ⟨b, hb, rfl⟩
    exact ((h.mem b).mp hb).1
  · exact fun hk => ⟨bucketOf k (inBucket k rows), (h.mem _).mpr ⟨hk, rfl⟩, rfl⟩

theorem Buckets.ofKey (h : Buckets cand rows) (k : LoadKey) :
    Buckets (cand.filter fun b => b.key.loadKey = k) (rows.filter fun r => r.loadKey = k) where
  nodup := h.nodup.sublist (List.filter_sublist.map _)
  mem := by
    have hgroups : ∀ g : BucketKey, g ∈ groups MoveRow.bucketKey (rows.filter fun r => r.loadKey = k) ↔
        g ∈ groups MoveRow.bucketKey rows ∧ g.loadKey = k := by
      intro g
      rw [mem_groups, mem_groups]
      simp only [List.mem_filter, decide_eq_true_iff]
      constructor
      · rintro ⟨r, ⟨hr, hk⟩, rfl⟩
        exact ⟨⟨r, hr, rfl⟩, hk⟩
      · rintro ⟨⟨r, hr, rfl⟩, hk⟩
        exact ⟨r, ⟨hr, hk⟩, rfl⟩
    have hin : ∀ g : BucketKey, g.loadKey = k → inBucket g (rows.filter fun r => r.loadKey = k) = inBucket g rows := by
      intro g hg
      unfold inBucket
      rw [List.filter_filter]
      refine List.filter_congr fun r _ => ?_
      by_cases hkey : r.bucketKey = g
      · have hload : r.loadKey = k := (congrArg BucketKey.loadKey hkey).trans hg
        simp [hkey, hload]
      · simp [hkey]
    intro b
    rw [List.mem_filter, decide_eq_true_iff, h.mem, hgroups]
    constructor
    · exact fun ⟨⟨hg, hb⟩, hk⟩ => ⟨⟨hg, hk⟩, by rw [hin _ hk]; exact hb⟩
    · exact fun ⟨⟨hg, hk⟩, hb⟩ => ⟨⟨hg, by rw [hin _ hk] at hb; exact hb⟩, hk⟩

theorem Buckets.sum (h : Buckets cand rows) (f : ℤ → ℤ) : (cand.map fun b => f b.n).sum =
    ∑ g ∈ groups MoveRow.bucketKey rows, f (loads MoveRow.twin (inBucket g rows)) := by
  have hcounts : (cand.map fun b => f b.n) =
      (cand.map Bucket.key).map fun g => f (loads MoveRow.twin (inBucket g rows)) := by
    rw [List.map_map]
    refine List.map_congr_left fun b hb => ?_
    have hn : b.n = loads MoveRow.twin (inBucket b.key rows) := congrArg Bucket.n ((h.mem b).mp hb).2
    exact congrArg f hn
  rw [hcounts, ← List.sum_toFinset _ h.nodup, h.toFinset_key]

end Sums

/-- What the cast to 32 bits takes off a count. -/
def cut (n : ℤ) : ℤ := 2 ^ 32 * ((n + 2 ^ 31) / 2 ^ 32)

theorem asI32_eq (n : ℤ) : asI32 n = n - cut n := by
  unfold asI32 cut
  omega

theorem cut_of_lt {n : ℕ} (h : n < 2 ^ 31) : cut n = 0 := by
  unfold cut
  omega

/-- What the cast takes off the counts of a key. -/
def wrapped (rows : List MoveRow) (k : LoadKey) : ℤ :=
  ∑ g ∈ groups MoveRow.bucketKey (demandRows rows k), cut (loads MoveRow.twin (inBucket g (demandRows rows k)))

/-- No twin of the demand of a key lies in two source blocks. -/
def Together (rows : List MoveRow) : Prop :=
  ∀ r ∈ rows, ∀ r' ∈ rows, r.isUnassigned = true → r'.isUnassigned = true → r.loadKey = r'.loadKey →
    ∀ t, r.twin = some t → r'.twin = some t → r.srcBlock = r'.srcBlock

theorem together_iff {rows : List MoveRow} :
    Together rows ↔ ∀ k, surplus MoveRow.bucketKey MoveRow.twin (demandRows rows k) = 0 := by
  simp only [surplus_eq_zero_iff, demandRows, List.mem_filter, decide_eq_true_iff]
  constructor
  · rintro h k r ⟨hr, hun, rfl⟩ r' ⟨hr', hun', hk⟩ t ht ht'
    have hblock := h r hr r' hr' hun hun' hk.symm t ht ht'
    obtain ⟨hqueue, hvessel, hjob⟩ : r'.queuename.getD "" = r.queuename.getD "" ∧ r'.vessel = r.vessel ∧
        r'.jobtype.getD "" = r.jobtype.getD "" := by
      simpa [MoveRow.loadKey] using hk
    unfold MoveRow.bucketKey
    rw [hqueue, hvessel, hjob, hblock]
  · intro h r hr r' hr' hun hun' hk t ht ht'
    exact congrArg BucketKey.srcBlock (h r.loadKey r ⟨hr, hun, rfl⟩ r' ⟨hr', hun', hk.symm⟩ t ht ht')

theorem wrapped_eq_zero {rows : List MoveRow} (h : rows.length < 2 ^ 31) (k : LoadKey) : wrapped rows k = 0 := by
  refine Finset.sum_eq_zero fun g _ => cut_of_lt ?_
  have hle : (inBucket g (demandRows rows k)).length ≤ rows.length :=
    (List.length_filter_le _ _).trans (List.length_filter_le _ _)
  exact (loads_le_length.trans hle).trans_lt h

/-! ## The tick -/

section Counts

variable (parseEtw : String → Option ℤ) (asOf : ℤ) (queues : List WorkQueue)

/-- The candidates of every key count its truck-loads (the twins of its demand, and the rows without one), and every order
has one row. -/
structure CountsLoads (rows : List MoveRow) (tables : PoolTables) : Prop where
  demand : ∀ k, ((tables.candidates.filter fun c => c.key.loadKey = k).map CandidateRow.n).sum =
    (loads MoveRow.twin (demandRows rows k) : ℤ)
  orders : List.Forall₂ (fun r w => (rowOf parseEtw asOf r).map (PoolRow.attach queues) = some w)
    (rows.filter MoveRow.isOpen) tables.workpool

def TickCounts (rows : List MoveRow) : Prop :=
  ∃ tables, srcWorkpool parseEtw asOf queues rows = some tables ∧ CountsLoads parseEtw asOf queues rows tables

theorem orders_land {rows : List MoveRow} (h : ¬ ∃ r ∈ rows, r.isOpen = true ∧ r.queuename = none) :
    List.Forall₂ (fun r w => (rowOf parseEtw asOf r).map (PoolRow.attach queues) = some w) (rows.filter MoveRow.isOpen)
      ((rows.filterMap (rowOf parseEtw asOf)).map (PoolRow.attach queues)) := by
  induction rows with
  | nil => exact List.Forall₂.nil
  | cons r rows ih =>
    have hrest := ih fun ⟨r', hr', hno⟩ => h ⟨r', List.mem_cons_of_mem _ hr', hno⟩
    by_cases hopen : r.isOpen = true
    · have hsome : (rowOf parseEtw asOf r).isSome = true := by
        rw [isSome_rowOf parseEtw asOf hopen, Option.isSome_iff_ne_none]
        exact fun hnone => h ⟨r, List.mem_cons_self, hopen, hnone⟩
      obtain ⟨w, hw⟩ := Option.isSome_iff_exists.mp hsome
      rw [List.filter_cons_of_pos hopen, List.filterMap_cons_some hw, List.map_cons]
      exact List.Forall₂.cons (by rw [hw]; rfl) hrest
    · rw [List.filter_cons_of_neg hopen, List.filterMap_cons_none (rowOf_eq_none parseEtw asOf (by simpa using hopen))]
      exact hrest

theorem sum_candidates {rows : List MoveRow} {tables : PoolTables}
    (h : srcWorkpool parseEtw asOf queues rows = some tables) (k : LoadKey) :
    ((tables.candidates.filter fun c => c.key.loadKey = k).map CandidateRow.n).sum =
      loads MoveRow.twin (demandRows rows k) + surplus MoveRow.bucketKey MoveRow.twin (demandRows rows k) -
        wrapped rows k := by
  unfold srcWorkpool at h
  rw [landRows_eq] at h
  split_ifs at h
  · cases h
  · obtain rfl := Option.some.inj h
    have hbuckets := (countRows_buckets (rows.filter MoveRow.isUnassigned)).ofKey k
    have hrows : (rows.filter MoveRow.isUnassigned).filter (fun r => r.loadKey = k) = demandRows rows k := by
      unfold demandRows
      rw [List.filter_filter]
      refine List.filter_congr fun r _ => ?_
      rw [Bool.and_comm]
      simp
    rw [hrows] at hbuckets
    have hsum : ∑ g ∈ groups MoveRow.bucketKey (demandRows rows k), (loads MoveRow.twin (inBucket g (demandRows rows k)) : ℤ) =
        loads MoveRow.twin (demandRows rows k) + surplus MoveRow.bucketKey MoveRow.twin (demandRows rows k) := by
      exact_mod_cast sum_loads
    rw [List.filter_map, List.map_map]
    refine (hbuckets.sum asI32).trans ?_
    simp only [asI32_eq]
    rw [Finset.sum_sub_distrib, hsum, wrapped]

/-- **The candidates count truck-loads exactly when every order has a queue, and the cast to 32 bits takes off as much as
the twins in several source blocks bring.** With fewer than 2^31 rows: when every order has a queue and no twin lies in two
source blocks. -/
theorem candidates_count_iff (rows : List MoveRow) :
    (TickCounts parseEtw asOf queues rows ↔ (∀ r ∈ rows, r.isOpen = true → r.queuename ≠ none) ∧
      ∀ k, (surplus MoveRow.bucketKey MoveRow.twin (demandRows rows k) : ℤ) = wrapped rows k) ∧
    (rows.length < 2 ^ 31 → (TickCounts parseEtw asOf queues rows ↔
      (∀ r ∈ rows, r.isOpen = true → r.queuename ≠ none) ∧ Together rows)) := by
  have hiff : TickCounts parseEtw asOf queues rows ↔ (∀ r ∈ rows, r.isOpen = true → r.queuename ≠ none) ∧
      ∀ k, (surplus MoveRow.bucketKey MoveRow.twin (demandRows rows k) : ℤ) = wrapped rows k := by
    have hqueues : (∀ r ∈ rows, r.isOpen = true → r.queuename ≠ none) ↔
        ¬ ∃ r ∈ rows, r.isOpen = true ∧ r.queuename = none := by
      simp only [not_exists, not_and, ne_eq]
    rw [hqueues]
    constructor
    · intro ⟨tables, htick, hcounts⟩
      refine ⟨fun hfails => ?_, fun k => ?_⟩
      · unfold srcWorkpool at htick
        rw [landRows_eq, if_pos hfails] at htick
        cases htick
      · have hsum := sum_candidates parseEtw asOf queues htick k
        rw [hcounts.demand k] at hsum
        omega
    · intro ⟨hqueued, hsurplus⟩
      have htick := landRows_eq parseEtw asOf rows ⟨[], []⟩
      rw [if_neg hqueued] at htick
      have hland : srcWorkpool parseEtw asOf queues rows = some _ := congrArg (Option.map _) htick
      refine ⟨_, hland, ⟨fun k => ?_, orders_land parseEtw asOf queues hqueued⟩⟩
      rw [sum_candidates parseEtw asOf queues hland k, hsurplus]
      omega
  refine ⟨hiff, fun hshort => hiff.trans (and_congr_right fun _ => ?_)⟩
  rw [together_iff]
  refine forall_congr' fun k => ?_
  rw [wrapped_eq_zero hshort]
  exact Int.natCast_eq_zero

end Counts

/-- A load of the queue 18H-L without a truck, from a block, with a twin. -/
def twinLoad (contno block : String) : MoveRow where
  queuename := some "18H-L"
  vessel := "VSL"
  voyage := some "1W"
  jobtype := some "LD"
  jobstatus := some "Q"
  ytStatus := none
  ytno := some " "
  armgc := none
  etwDt := none
  actvDt := none
  updDt := none
  creDt := none
  ytDisDt := none
  contno := some contno
  msnseq := none
  seqno := none
  ytTopos := some block
  fromPos := none
  toPos := none
  twintandem := none
  twinkey := some "T1"

/-- Twins in one block count once. -/
theorem candidates_count_iff_pair :
    TickCounts (fun _ => none) 0 [] [twinLoad "ABCU1234567" "10X-16", twinLoad "ABCU7654321" "10X-18"] := by
  refine ((candidates_count_iff (fun _ => none) 0 [] _).2 (by decide)).mpr ⟨by decide, ?_⟩
  intro r hr r' hr' _ _ _ t _ _
  fin_cases hr <;> fin_cases hr' <;> decide +kernel

/-- Twins in two blocks count twice. -/
theorem twins_apart_count_twice :
    ¬ TickCounts (fun _ => none) 0 [] [twinLoad "ABCU1234567" "10X-16", twinLoad "ABCU7654321" "11A-02"] := by
  intro ⟨tables, htick, hcounts⟩
  have hsum : (srcWorkpool (fun _ => none) 0 [] [twinLoad "ABCU1234567" "10X-16", twinLoad "ABCU7654321" "11A-02"]).map
      (fun tables => ((tables.candidates.filter fun c => c.key.loadKey = ("18H-L", "VSL", "LD")).map CandidateRow.n).sum) =
        some 2 := by decide +kernel
  rw [htick, Option.map_some, hcounts.demand] at hsum
  exact absurd hsum (by decide +kernel)

end TtAiops.Ingest.Pool
