import TtAiops.Lib.Durations

/-!
# The reconciliation of a cycle

`populate_tt_cycle_recon`: a trip of the move log, its time cut at the position fixes and at the pickup.

* `cyc`, `fx`, `seg`, `agg`, `span` : the subqueries of the statement, for one trip;
* `reconRow` : the row written to `tt_cycle_recon`;
* `Phases`, `phases` : the lengths of the seven phases before they are rounded, `phases_sum`, `phases_nonneg`;
* `Reconciles`, `reconciles_iff` : the columns add up iff the fractions of the phases carry what is rounded up.
-/

namespace TtAiops.Recon
open TtAiops.Lib

inductive JobType
  | ld
  | ds
deriving DecidableEq, Repr

/-- The shift of a row. -/
inductive Shift
  | D
  | N
deriving DecidableEq, Repr

/-- The side of the pickup a fix is on. -/
inductive Leg
  | empty
  | laden
deriving DecidableEq, Repr

/-- A leg of `tt_move_log`: one container of a trip. Times are microseconds. -/
structure MoveLeg where
  contno : String
  jobtype : JobType
  pickupTs : Option ℤ
  freeTs : ℤ
  isTwin : Bool

/-- The legs of one truck and dispatch. The move log takes only legs freed after their dispatch. -/
structure Trip where
  dispatchTs : ℤ
  legs : List MoveLeg
  ne_nil : legs ≠ []
  freed : ∀ l ∈ legs, dispatchTs < l.freeTs

/-- A row of `truck_pos_hifreq`. -/
structure Fix (K : Type*) where
  ts : ℤ
  lat : K
  lon : K

/-- A row of `cyc`: the physical trip of the legs. -/
structure Cyc where
  pickupTs : Option ℤ
  freeTs : ℤ
  cycleS : ℤ
  jobtype : Option JobType
  contno : Option String
  contnos : List String
  isTwin : Bool
  nContainers : ℕ
  businessDate : ℤ
  shift : Shift

/-- `max(free_ts)` of the legs. -/
def Trip.freeTs (t : Trip) : ℤ := (t.legs.map MoveLeg.freeTs).max (by simpa using t.ne_nil)

/-- `min(pickup_ts)` of the legs. -/
def Trip.pickupTs (t : Trip) : Option ℤ := (t.legs.filterMap MoveLeg.pickupTs).min?

/-- Microseconds of the wall clock in `Asia/Kuala_Lumpur`. -/
def wall (us : ℤ) : ℤ := us + 8 * 3600 * 1000000

variable (K : Type*) [Field K] [LinearOrder K] [IsStrictOrderedRing K] [FloorRing K]

/-- `EXTRACT(EPOCH FROM …)`. -/
def secs (us : ℤ) : K := us / 1000000

def cyc (t : Trip) : Cyc :=
  let byFree := t.legs.insertionSort fun a b => a.freeTs ≤ b.freeTs
  let byFreeContno := t.legs.insertionSort fun a b => a.freeTs < b.freeTs ∨ a.freeTs = b.freeTs ∧ a.contno ≤ b.contno
  let hour := wall t.freeTs / 3600000000 % 24
  { pickupTs := t.pickupTs
    freeTs := t.freeTs
    cycleS := roundAway (secs K (t.freeTs - t.dispatchTs))
    jobtype := byFree.head?.map MoveLeg.jobtype
    contno := byFreeContno.head?.map MoveLeg.contno
    contnos := byFreeContno.map MoveLeg.contno
    isTwin := t.legs.any MoveLeg.isTwin
    nContainers := t.legs.length
    businessDate := wall t.freeTs / 86400000000
    shift := if 6 ≤ hour ∧ hour ≤ 17 then .D else .N }

variable {K}

/-- `CASE WHEN p.ts <= c.pickup_ts THEN 'empty' ELSE 'laden' END`; an unknown pickup is never reached. -/
def legOf (pickup : Option ℤ) (ts : ℤ) : Leg :=
  match pickup with
  | some p => if ts ≤ p then .empty else .laden
  | none => .laden

/-- The fixes of a leg between dispatch and release. -/
def fx (t : Trip) (fixes : List (Fix K)) (leg : Leg) : List (Fix K) :=
  fixes.filter fun p => t.dispatchTs ≤ p.ts ∧ p.ts ≤ t.freeTs ∧ legOf t.pickupTs p.ts = leg

/-- The fixes of the window, in the order of their times. -/
def inOrder (l : List (Fix K)) : List (Fix K) := l.insertionSort fun a b => a.ts ≤ b.ts

/-- A row of `seg`. -/
structure Seg (K : Type*) where
  dt : K
  distM : K
  drvS : K
  longGap : Bool
  isMove : Bool

/-- The drive and stop of one step between two fixes. -/
def segOf (dt distM : K) : Seg K :=
  { dt := dt
    distM := distM
    drvS := if dt ≤ 60 ∧ 12 ≤ distM ∧ 1 ≤ distM / dt then dt
      else if 60 < dt ∧ 100 ≤ distM then min dt (distM / (55 / 10)) else 0
    longGap := decide (60 < dt ∧ 100 ≤ distM)
    isMove := decide ((dt ≤ 60 ∧ 12 ≤ distM ∧ 1 ≤ distM / dt) ∨ (60 < dt ∧ 100 ≤ distM)) }

section model
variable (dist : Fix K → Fix K → K) (t : Trip) (fixes : List (Fix K))

/-- `d`, and of it the rows with `dt > 0`. -/
def seg (leg : Leg) : List (Seg K) :=
  (((gaps (inOrder (fx t fixes leg))).map fun p => (secs K (p.2.ts - p.1.ts), dist p.1 p.2)).filter (0 < ·.1)).map
    fun d => segOf d.1 d.2

/-- A row of `agg`. -/
structure Agg where
  eDriveS : ℤ
  eStopS : ℤ
  eDriveM : ℤ
  lDriveS : ℤ
  lStopS : ℤ
  lDriveM : ℤ
  longGapS : ℤ

/-- `sum(drv_s)`, `sum(dt - drv_s)`, `sum(dist_m) FILTER (WHERE is_move)` of a leg. -/
def driveOf (s : List (Seg K)) : K := (s.map Seg.drvS).sum

def stopOf (s : List (Seg K)) : K := (s.map fun x => x.dt - x.drvS).sum

def metresOf (s : List (Seg K)) : K := ((s.filter Seg.isMove).map Seg.distM).sum

/-- There is a row only if there are segments. Sums of distances are floats, which round half to even. -/
def agg : Option Agg :=
  let e := seg dist t fixes .empty
  let l := seg dist t fixes .laden
  if e ++ l = [] then none
  else some
    { eDriveS := roundEven (driveOf e)
      eStopS := roundEven (stopOf e)
      eDriveM := roundEven (metresOf e)
      lDriveS := roundEven (driveOf l)
      lStopS := roundEven (stopOf l)
      lDriveM := roundEven (metresOf l)
      longGapS := roundAway ((((e ++ l).filter Seg.longGap).map Seg.dt).sum) }

/-- A row of `span`: how many fixes, and the first and last of each leg. -/
structure Span where
  nFix : ℕ
  eFirst : Option ℤ
  eLast : Option ℤ
  lFirst : Option ℤ
  lLast : Option ℤ

def span : Option Span :=
  let e := (fx t fixes .empty).map Fix.ts
  let l := (fx t fixes .laden).map Fix.ts
  if e ++ l = [] then none
  else some ⟨(e ++ l).length, e.min?, e.max?, l.min?, l.max?⟩

/-- The row written to `tt_cycle_recon`. -/
structure Row where
  dispatchTs : ℤ
  contno : Option String
  contnos : List String
  jobtype : Option JobType
  isTwin : Bool
  nContainers : ℕ
  pickupTs : Option ℤ
  freeTs : ℤ
  cycleS : ℤ
  eDriveS : ℤ
  eStopS : ℤ
  eDriveM : ℤ
  lDriveS : ℤ
  lStopS : ℤ
  lDriveM : ℤ
  edgeWaitS : ℤ
  dispatchWaitS : ℤ
  pickupDwellS : ℤ
  dropDwellS : ℤ
  gpsCovered : Bool
  nFix : ℕ
  longGapS : ℤ
  businessDate : ℤ
  shift : Shift

def reconRow : Row :=
  let c := cyc K t
  let a := agg dist t fixes
  let s := span t fixes
  { dispatchTs := t.dispatchTs
    contno := c.contno
    contnos := c.contnos
    jobtype := c.jobtype
    isTwin := c.isTwin
    nContainers := c.nContainers
    pickupTs := c.pickupTs
    freeTs := c.freeTs
    cycleS := c.cycleS
    eDriveS := (a.map Agg.eDriveS).getD 0
    eStopS := (a.map Agg.eStopS).getD 0
    eDriveM := (a.map Agg.eDriveM).getD 0
    lDriveS := (a.map Agg.lDriveS).getD 0
    lStopS := (a.map Agg.lStopS).getD 0
    lDriveM := (a.map Agg.lDriveM).getD 0
    edgeWaitS := c.cycleS - (a.map fun a => a.eDriveS + a.eStopS + a.lDriveS + a.lStopS).getD 0
    dispatchWaitS :=
      roundAway (secs K ((((s.bind Span.eFirst).or (s.bind Span.lFirst)).getD c.freeTs) - t.dispatchTs))
    pickupDwellS :=
      match s.bind Span.eLast, s.bind Span.lFirst with
      | some e, some l => roundAway (secs K (l - e))
      | _, _ => 0
    dropDwellS := roundAway (secs K (c.freeTs - ((s.bind Span.lLast).or (s.bind Span.eLast)).getD c.freeTs))
    gpsCovered := decide (10 ≤ (s.map Span.nFix).getD 0 ∧
      0 < (a.map Agg.eDriveS).getD 0 + (a.map Agg.lDriveS).getD 0)
    nFix := (s.map Span.nFix).getD 0
    longGapS := (a.map Agg.longGapS).getD 0
    businessDate := c.businessDate
    shift := c.shift }

/-! ## The phases before rounding -/

/-- The lengths of the seven phases of a trip, in seconds. -/
structure Phases (K : Type*) where
  dispatchWait : K
  eDrive : K
  eStop : K
  pickupDwell : K
  lDrive : K
  lStop : K
  dropDwell : K

/-- The times of the fixes of a leg. -/
def times (leg : Leg) : List ℤ := (fx t fixes leg).map Fix.ts

def phases : Phases K :=
  { dispatchWait := secs K (((times t fixes .empty).min?.or (times t fixes .laden).min?).getD t.freeTs - t.dispatchTs)
    eDrive := driveOf (seg dist t fixes .empty)
    eStop := stopOf (seg dist t fixes .empty)
    pickupDwell :=
      match (times t fixes .empty).max?, (times t fixes .laden).min? with
      | some e, some l => secs K (l - e)
      | _, _ => 0
    lDrive := driveOf (seg dist t fixes .laden)
    lStop := stopOf (seg dist t fixes .laden)
    dropDwell := secs K (t.freeTs - ((times t fixes .laden).max?.or (times t fixes .empty).max?).getD t.freeTs) }

/-- The phases in their order, each with what its rounding carries. Waits are exact decimals, sums of drives floats. -/
def Phases.parts (p : Phases K) : List (K × ℤ) :=
  [(p.dispatchWait, carry (upAway p.dispatchWait)), (p.eDrive, carry (upEven p.eDrive)),
    (p.eStop, carry (upEven p.eStop)), (p.pickupDwell, carry (upAway p.pickupDwell)),
    (p.lDrive, carry (upEven p.lDrive)), (p.lStop, carry (upEven p.lStop)),
    (p.dropDwell, carry (upAway p.dropDwell))]

def Row.phases (r : Row) : List ℤ :=
  [r.dispatchWaitS, r.eDriveS, r.eStopS, r.pickupDwellS, r.lDriveS, r.lStopS, r.dropDwellS]

/-- The columns of the row add up, and none of them is negative. -/
structure Reconciles (r : Row) : Prop where
  cycle : r.dispatchWaitS + r.eDriveS + r.eStopS + r.pickupDwellS + r.lDriveS + r.lStopS + r.dropDwellS = r.cycleS
  edge : r.edgeWaitS = r.dispatchWaitS + r.pickupDwellS + r.dropDwellS
  nonneg : ∀ s ∈ r.edgeWaitS :: r.phases, 0 ≤ s

end model

/-! ## The times of a leg -/

section facts
variable {dist : Fix K → Fix K → K} {t : Trip} {fixes : List (Fix K)}

theorem secs_nonneg {us : ℤ} (h : 0 ≤ us) : 0 ≤ secs K us := by
  unfold secs
  exact div_nonneg (by exact_mod_cast h) (by norm_num)

omit [LinearOrder K] [IsStrictOrderedRing K] [FloorRing K] in
@[simp] theorem secs_zero : secs K 0 = 0 := by simp [secs]

omit [LinearOrder K] [IsStrictOrderedRing K] [FloorRing K] in
theorem secs_sub (a b : ℤ) : secs K (a - b) = secs K a - secs K b := by
  unfold secs
  push_cast
  ring

omit [Field K] [LinearOrder K] [IsStrictOrderedRing K] [FloorRing K] in
variable (t fixes) in
/-- The times of a leg are all unknown, or lie between the first and the last, which are fixes of the leg. -/
theorem times_cases (leg : Leg) :
    times t fixes leg = [] ∨ ∃ a b, (times t fixes leg).min? = some a ∧ (times t fixes leg).max? = some b ∧
      a ≤ b ∧ t.dispatchTs ≤ a ∧ b ≤ t.freeTs ∧ legOf t.pickupTs a = leg ∧ legOf t.pickupTs b = leg := by
  by_cases h : times t fixes leg = []
  · exact Or.inl h
  · right
    obtain ⟨a, ha⟩ := Option.ne_none_iff_exists'.mp (mt List.min?_eq_none_iff.mp h)
    obtain ⟨b, hb⟩ := Option.ne_none_iff_exists'.mp (mt List.max?_eq_none_iff.mp h)
    have ha' := List.min?_eq_some_iff.mp ha
    have hb' := List.max?_eq_some_iff.mp hb
    have hmem : ∀ x ∈ times t fixes leg, t.dispatchTs ≤ x ∧ x ≤ t.freeTs ∧ legOf t.pickupTs x = leg := by
      intro x hx
      obtain ⟨p, hp, rfl⟩ := List.mem_map.mp hx
      simpa using (List.mem_filter.mp hp).2
    obtain ⟨hda, -, hla⟩ := hmem a ha'.1
    obtain ⟨-, hbf, hlb⟩ := hmem b hb'.1
    exact ⟨a, b, ha, hb, ha'.2 b hb'.1, hda, hbf, hla, hlb⟩

/-- The fixes of the empty leg are not later than those of the laden leg. -/
theorem legOf_le {pickup : Option ℤ} {a b : ℤ} (ha : legOf pickup a = .empty) (hb : legOf pickup b = .laden) :
    a ≤ b := by
  cases pickup with
  | none => simp [legOf] at ha
  | some p =>
    have hap : a ≤ p := by
      by_contra h
      simp [legOf, h] at ha
    have hpb : ¬ b ≤ p := by
      intro h
      simp [legOf, h] at hb
    omega

omit [Field K] [LinearOrder K] [IsStrictOrderedRing K] [FloorRing K] in
theorem inOrder_sorted (l : List (Fix K)) : (inOrder l).Pairwise (fun a b => a.ts ≤ b.ts) :=
  List.pairwise_insertionSort _ _

omit [Field K] [LinearOrder K] [IsStrictOrderedRing K] [FloorRing K] in
/-- The first and the last fix of a leg in order have its least and greatest time. -/
theorem ends_inOrder (l : List (Fix K)) :
    ∀ a tail, inOrder l = a :: tail →
      (l.map Fix.ts).min? = some a.ts ∧ (l.map Fix.ts).max? = some ((a :: tail).getLast (by simp)).ts := by
  intro a tail heq
  have hmem : ∀ p, p ∈ l ↔ p ∈ a :: tail := fun p => by
    rw [← heq]
    exact (List.perm_insertionSort _ l).mem_iff.symm
  have hsorted := inOrder_sorted l
  rw [heq] at hsorted
  refine ⟨List.min?_eq_some_iff.mpr ⟨?_, ?_⟩, List.max?_eq_some_iff.mpr ⟨?_, ?_⟩⟩
  · exact List.mem_map.mpr ⟨a, (hmem a).mpr List.mem_cons_self, rfl⟩
  · intro x hx
    obtain ⟨p, hp, rfl⟩ := List.mem_map.mp hx
    obtain rfl | hp := List.mem_cons.mp ((hmem p).mp hp)
    · exact le_rfl
    · exact List.rel_of_pairwise_cons hsorted hp
  · exact List.mem_map.mpr ⟨_, (hmem _).mpr (List.getLast_mem _), rfl⟩
  · intro x hx
    obtain ⟨p, hp, rfl⟩ := List.mem_map.mp hx
    exact hsorted.rel_getLast ((hmem p).mp hp)

variable (dist t fixes) in
/-- What a leg drives and what it stops make the way from its first fix to its last. -/
theorem drive_add_stop (leg : Leg) :
    driveOf (seg dist t fixes leg) + stopOf (seg dist t fixes leg) =
      secs K ((times t fixes leg).max?.getD 0 - (times t fixes leg).min?.getD 0) := by
  have hsum : ∀ s : List (Seg K), driveOf s + stopOf s = (s.map Seg.dt).sum := by
    intro s
    rw [driveOf, stopOf, ← List.sum_map_add]
    simp
  set l := fx t fixes leg with hl
  have hdt : (seg dist t fixes leg).map Seg.dt =
      (((gaps (inOrder l)).map fun p => (secs K (p.2.ts - p.1.ts), dist p.1 p.2)).filter (0 < ·.1)).map Prod.fst := by
    rw [seg, List.map_map]
    rfl
  have hgaps : ∀ d ∈ (gaps (inOrder l)).map fun p => (secs K (p.2.ts - p.1.ts), dist p.1 p.2), ¬ 0 < d.1 → d.1 = 0 := by
    intro d hd hneg
    obtain ⟨p, hp, rfl⟩ := List.mem_map.mp hd
    have hle := le_of_mem_gaps (inOrder_sorted l) hp
    exact le_antisymm (not_lt.mp hneg) (secs_nonneg (by omega))
  rw [hsum, hdt, sum_filter_of_zero (fun d : K × K => 0 < d.1) Prod.fst _ hgaps, List.map_map]
  cases h : inOrder l with
  | nil =>
    have hnil : l = [] := by
      have hperm := List.perm_insertionSort (fun a b : Fix K => a.ts ≤ b.ts) l
      rw [show l.insertionSort _ = [] from h] at hperm
      exact hperm.nil_eq.symm
    simp [times, ← hl, hnil, secs]
  | cons a tail =>
    obtain ⟨hmin, hmax⟩ := ends_inOrder l a tail h
    have hsteps := sum_gaps (fun f : Fix K => secs K f.ts) a tail
    rw [times, ← hl, hmin, hmax, Option.getD_some, Option.getD_some, secs_sub, ← hsteps]
    congr 1
    apply List.map_congr_left
    intro p _
    exact secs_sub _ _

theorem drvS_bounds {dt distM : K} (h : 0 < dt) : 0 ≤ (segOf dt distM).drvS ∧ (segOf dt distM).drvS ≤ dt := by
  unfold segOf
  dsimp only
  split
  · exact ⟨h.le, le_rfl⟩
  · split
    · rename_i hgap
      refine ⟨le_min h.le (div_nonneg ?_ (by norm_num)), min_le_left _ _⟩
      linarith [hgap.2]
    · exact ⟨le_rfl, h.le⟩

variable (dist t fixes) in
theorem driveOf_nonneg (leg : Leg) : 0 ≤ driveOf (seg dist t fixes leg) := by
  apply List.sum_nonneg
  intro x hx
  simp only [seg, List.mem_map, List.mem_filter, decide_eq_true_eq] at hx
  obtain ⟨_, ⟨d, ⟨-, hd⟩, rfl⟩, rfl⟩ := hx
  exact (drvS_bounds hd).1

variable (dist t fixes) in
theorem stopOf_nonneg (leg : Leg) : 0 ≤ stopOf (seg dist t fixes leg) := by
  apply List.sum_nonneg
  intro x hx
  simp only [seg, List.mem_map, List.mem_filter, decide_eq_true_eq] at hx
  obtain ⟨_, ⟨d, ⟨-, hd⟩, rfl⟩, rfl⟩ := hx
  exact sub_nonneg.mpr (drvS_bounds hd).2

theorem Trip.dispatch_lt_free (t : Trip) : t.dispatchTs < t.freeTs := by
  have hmem : t.freeTs ∈ t.legs.map MoveLeg.freeTs := List.max_mem _
  obtain ⟨l, hl, hfree⟩ := List.mem_map.mp hmem
  rw [← hfree]
  exact t.freed l hl

/-! ## The phases add up before they are rounded -/

variable (dist t fixes) in
theorem phases_sum : ((phases dist t fixes).parts.map Prod.fst).sum = secs K (t.freeTs - t.dispatchTs) := by
  have he := drive_add_stop dist t fixes .empty
  have hl := drive_add_stop dist t fixes .laden
  have hsplit : ((phases dist t fixes).parts.map Prod.fst).sum =
      (phases dist t fixes).dispatchWait +
        (driveOf (seg dist t fixes .empty) + stopOf (seg dist t fixes .empty)) +
        (phases dist t fixes).pickupDwell +
        (driveOf (seg dist t fixes .laden) + stopOf (seg dist t fixes .laden)) +
        (phases dist t fixes).dropDwell := by
    simp only [Phases.parts, phases, List.map_cons, List.map_nil, List.sum_cons, List.sum_nil]
    ring
  rw [hsplit, he, hl]
  -- a leg without fixes has no boundary, and the waits next to it reach over to the other leg or the ends
  unfold phases
  obtain hen | ⟨a, b, hea, heb, -⟩ := times_cases t fixes .empty <;>
    obtain hln | ⟨c, d, hlc, hld, -⟩ := times_cases t fixes .laden
  · simp [hen, hln]
  · simp only [hen, hlc, hld, List.min?_nil, List.max?_nil, Option.none_or, Option.some_or, Option.getD_some, secs_sub]
    ring
  · simp only [hln, hea, heb, List.min?_nil, List.max?_nil, Option.none_or, Option.some_or, Option.getD_some, secs_sub]
    ring
  · simp only [hea, heb, hlc, hld, Option.some_or, Option.getD_some, secs_sub]
    ring

variable (dist t fixes) in
theorem phases_nonneg : ∀ p ∈ (phases dist t fixes).parts, 0 ≤ p.1 := by
  have hfree := t.dispatch_lt_free
  have hcase : 0 ≤ (phases dist t fixes).dispatchWait ∧ 0 ≤ (phases dist t fixes).pickupDwell ∧
      0 ≤ (phases dist t fixes).dropDwell := by
    unfold phases
    obtain hen | ⟨a, b, hea, heb, hab, hda, hbf, -, hlb⟩ := times_cases t fixes .empty <;>
      obtain hln | ⟨c, d, hlc, hld, hcd, hdc, hdf, hlc', -⟩ := times_cases t fixes .laden
    · simp only [hen, hln, List.min?_nil, List.max?_nil, Option.or_none, Option.getD_none]
      exact ⟨secs_nonneg (by omega), le_rfl, secs_nonneg (by omega)⟩
    · simp only [hen, hlc, hld, List.min?_nil, List.max?_nil, Option.none_or, Option.some_or, Option.getD_some]
      exact ⟨secs_nonneg (by omega), le_rfl, secs_nonneg (by omega)⟩
    · simp only [hln, hea, heb, List.min?_nil, List.max?_nil, Option.none_or, Option.some_or, Option.getD_some]
      exact ⟨secs_nonneg (by omega), le_rfl, secs_nonneg (by omega)⟩
    · simp only [hea, heb, hlc, hld, Option.some_or, Option.getD_some]
      have hbc := legOf_le hlb hlc'
      exact ⟨secs_nonneg (by omega), secs_nonneg (by omega), secs_nonneg (by omega)⟩
  obtain ⟨hwait, hpickup, hdrop⟩ := hcase
  have he := driveOf_nonneg dist t fixes .empty
  have hes := stopOf_nonneg dist t fixes .empty
  have hl := driveOf_nonneg dist t fixes .laden
  have hls := stopOf_nonneg dist t fixes .laden
  intro p hp
  simp only [Phases.parts, List.mem_cons, List.not_mem_nil, or_false] at hp
  obtain rfl | rfl | rfl | rfl | rfl | rfl | rfl := hp <;> assumption

/-! ## The row -/

omit [Field K] [LinearOrder K] [IsStrictOrderedRing K] [FloorRing K] in
variable (t fixes) in
/-- The join with `span` gives the boundaries of the legs, unknown ones as null. -/
theorem span_ends : (span t fixes).bind Span.eFirst = (times t fixes .empty).min? ∧
    (span t fixes).bind Span.eLast = (times t fixes .empty).max? ∧
    (span t fixes).bind Span.lFirst = (times t fixes .laden).min? ∧
    (span t fixes).bind Span.lLast = (times t fixes .laden).max? := by
  unfold span times
  dsimp only
  split
  · rename_i hcat
    obtain ⟨he, hl⟩ := List.append_eq_nil_iff.mp hcat
    simp [he, hl]
  · exact ⟨rfl, rfl, rfl, rfl⟩

variable (dist t fixes) in
/-- The join with `agg` gives the rounded drives and stops, none of them without a segment. -/
theorem agg_sums : ((agg dist t fixes).map Agg.eDriveS).getD 0 = roundEven (phases dist t fixes).eDrive ∧
    ((agg dist t fixes).map Agg.eStopS).getD 0 = roundEven (phases dist t fixes).eStop ∧
    ((agg dist t fixes).map Agg.lDriveS).getD 0 = roundEven (phases dist t fixes).lDrive ∧
    ((agg dist t fixes).map Agg.lStopS).getD 0 = roundEven (phases dist t fixes).lStop := by
  unfold agg phases
  dsimp only
  split
  · rename_i hcat
    obtain ⟨he, hl⟩ := List.append_eq_nil_iff.mp hcat
    simp [he, hl, driveOf, stopOf]
  · exact ⟨rfl, rfl, rfl, rfl⟩

omit [IsStrictOrderedRing K] in
theorem agg_observed : ((agg dist t fixes).map fun a => a.eDriveS + a.eStopS + a.lDriveS + a.lStopS).getD 0 =
    ((agg dist t fixes).map Agg.eDriveS).getD 0 + ((agg dist t fixes).map Agg.eStopS).getD 0 +
      ((agg dist t fixes).map Agg.lDriveS).getD 0 + ((agg dist t fixes).map Agg.lStopS).getD 0 := by
  cases agg dist t fixes <;> simp

theorem row_pickupDwell : (reconRow dist t fixes).pickupDwellS = roundAway (phases dist t fixes).pickupDwell := by
  obtain ⟨-, heLast, hlFirst, -⟩ := span_ends t fixes
  unfold reconRow phases
  dsimp only
  rw [heLast, hlFirst]
  split
  · rfl
  · exact roundAway_zero.symm

variable (dist t fixes) in
theorem row_phases : (reconRow dist t fixes).phases = (phases dist t fixes).parts.map fun p => ⌊p.1⌋ + p.2 := by
  obtain ⟨heFirst, heLast, hlFirst, hlLast⟩ := span_ends t fixes
  obtain ⟨heDrive, heStop, hlDrive, hlStop⟩ := agg_sums dist t fixes
  have hnonneg := phases_nonneg dist t fixes
  simp only [Phases.parts, List.mem_cons, List.not_mem_nil, or_false, forall_eq_or_imp, forall_eq] at hnonneg
  obtain ⟨hwait, -, -, hpickup, -, -, hdrop⟩ := hnonneg
  have hwaitS : (reconRow dist t fixes).dispatchWaitS = roundAway (phases dist t fixes).dispatchWait := by
    show roundAway (secs K ((((span t fixes).bind Span.eFirst).or ((span t fixes).bind Span.lFirst)).getD _ - _)) = _
    rw [heFirst, hlFirst]
    rfl
  have hdropS : (reconRow dist t fixes).dropDwellS = roundAway (phases dist t fixes).dropDwell := by
    show roundAway (secs K (_ - (((span t fixes).bind Span.lLast).or ((span t fixes).bind Span.eLast)).getD _)) = _
    rw [hlLast, heLast]
    rfl
  rw [Row.phases, hwaitS, hdropS, row_pickupDwell, roundAway_of_nonneg hwait, roundAway_of_nonneg hpickup,
    roundAway_of_nonneg hdrop, show (reconRow dist t fixes).eDriveS = _ from heDrive,
    show (reconRow dist t fixes).eStopS = _ from heStop, show (reconRow dist t fixes).lDriveS = _ from hlDrive,
    show (reconRow dist t fixes).lStopS = _ from hlStop, roundEven_eq, roundEven_eq, roundEven_eq, roundEven_eq]
  rfl

variable (dist t fixes) in
theorem row_nonneg : ∀ s ∈ (reconRow dist t fixes).phases, 0 ≤ s := by
  intro s hs
  rw [row_phases dist t fixes] at hs
  obtain ⟨p, hp, rfl⟩ := List.mem_map.mp hs
  have hfloor := Int.floor_nonneg.mpr (phases_nonneg dist t fixes p hp)
  simp only [Phases.parts, List.mem_cons, List.not_mem_nil, or_false] at hp
  obtain rfl | rfl | rfl | rfl | rfl | rfl | rfl := hp <;> exact add_nonneg hfloor (carry_nonneg _)

omit [IsStrictOrderedRing K] in
variable (dist t fixes) in
/-- The waits at the edges are what the drives and stops leave of the cycle. -/
theorem row_edgeWait : (reconRow dist t fixes).edgeWaitS = (reconRow dist t fixes).cycleS -
    ((reconRow dist t fixes).eDriveS + (reconRow dist t fixes).eStopS + (reconRow dist t fixes).lDriveS +
      (reconRow dist t fixes).lStopS) := by
  show _ - _ = _
  rw [agg_observed]
  rfl

theorem Row.sum_phases (r : Row) : r.phases.sum =
    r.dispatchWaitS + r.eDriveS + r.eStopS + r.pickupDwellS + r.lDriveS + r.lStopS + r.dropDwellS := by
  simp [Row.phases]
  omega

variable (dist t fixes) in
/-- **The columns of a row add up exactly when the fractions of the seven phases carry as many seconds as phases are
rounded up.** -/
theorem reconciles_iff : Reconciles (reconRow dist t fixes) ↔ FractionsCarry (phases dist t fixes).parts := by
  have hphases := row_phases dist t fixes
  have hsum := phases_sum dist t fixes
  have hfree := t.dispatch_lt_free
  have hwhole : 0 ≤ ((phases dist t fixes).parts.map Prod.fst).sum := by
    rw [hsum]
    exact secs_nonneg (by omega)
  have hcycle : (reconRow dist t fixes).phases.sum = (reconRow dist t fixes).cycleS ↔
      FractionsCarry (phases dist t fixes).parts := by
    rw [← sum_rounded_iff hwhole, hphases, hsum]
    rfl
  have hparts := (reconRow dist t fixes).sum_phases
  have hedge := row_edgeWait dist t fixes
  have hnonneg := row_nonneg dist t fixes
  rw [← hcycle]
  constructor
  · intro h
    rw [hparts]
    exact h.cycle
  · intro h
    rw [hparts] at h
    have hwaits : (reconRow dist t fixes).edgeWaitS = (reconRow dist t fixes).dispatchWaitS +
        (reconRow dist t fixes).pickupDwellS + (reconRow dist t fixes).dropDwellS := by omega
    refine ⟨h, hwaits, ?_⟩
    intro s hs
    obtain rfl | hs := List.mem_cons.mp hs
    · rw [hwaits]
      have hmem : ∀ x ∈ [(reconRow dist t fixes).dispatchWaitS, (reconRow dist t fixes).pickupDwellS,
          (reconRow dist t fixes).dropDwellS], 0 ≤ x := by
        intro x hx
        apply hnonneg
        simp only [Row.phases, List.mem_cons, List.not_mem_nil, or_false] at hx ⊢
        omega
      simp only [List.mem_cons, List.not_mem_nil, or_false, forall_eq_or_imp, forall_eq] at hmem
      omega
    · exact hnonneg s hs

end facts

/-! ## Fixes between two seconds -/

/-- A single container, dispatched at zero and freed after a hundred seconds, its pickup unknown. -/
def shortTrip : Trip where
  dispatchTs := 0
  legs := [⟨"TCNU1234567", .ds, none, 100000000, false⟩]
  ne_nil := by simp
  freed := by simp

def wholeFixes : List (Fix ℚ) := [⟨10000000, 299 / 100, 10140 / 100⟩, ⟨90000000, 299 / 100, 10140 / 100⟩]

/-- The same truck half a second and four tenths later. -/
def betweenFixes : List (Fix ℚ) := [⟨10500000, 299 / 100, 10140 / 100⟩, ⟨90400000, 299 / 100, 10140 / 100⟩]

theorem reconciles_wholeFixes : Reconciles (reconRow (fun _ _ => 0) shortTrip wholeFixes) :=
  (reconciles_iff (fun _ _ => (0 : ℚ)) shortTrip wholeFixes).mpr (by decide +kernel)

/-- Waits of 10.5 s and 9.6 s and a stop of 79.9 s are written as 11, 10 and 80 of a hundred seconds. -/
theorem not_reconciles_betweenFixes : ¬ Reconciles (reconRow (fun _ _ => 0) shortTrip betweenFixes) :=
  fun h => absurd h.cycle (by decide +kernel)

end TtAiops.Recon
