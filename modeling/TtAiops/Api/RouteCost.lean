import TtAiops.Api.CostCurve
import TtAiops.Api.GraphLoad
import TtAiops.Lib.Ints
import TtAiops.Lib.Memo

/-!
# The cost of a trip (`RouteCost`, and `cost` of a tick)

Route time is read from the field of the truck at the node of the work and mapped through a fitted curve of the job type. A
pair without a route has the Manhattan distance instead, through a curve of its own or at the speed of a segment. Fields and
nodes are kept under the coordinates in units of 1e-7 degrees.

* `Fitted`, `JobCurves`, `calibrated` : curves that `fit` has made, and which of them reads a time;
* `p50P90`, `askAll`, `uncached` : the query over what is kept, many of them in a row, and one that keeps nothing;
* `tripCost`, `costOf` : the seconds of a tick and the tier they are from;
* `askAll_spec` : **every answer is that of a query with nothing kept, at coordinates with the same keys that were asked before**;
* `tripCost_spec` : **costs are never negative, and within a tier they follow the least road time or the distance**.
-/

namespace TtAiops.Api
open TtAiops.Lib TtAiops.Lib.Dijkstra TtAiops.Lib.Polylines RoadGraph

/-! ## Curves -/

/-- A curve that `fit` has made. -/
def Fitted : Type := {c : CostCurve ℚ // ∃ rows minN, CostCurve.fit rows minN = some c}

theorem Fitted.eval_isSome (c : Fitted) (x : ℚ) : (c.1.eval x).isSome := by
  obtain ⟨rows, minN, hfit⟩ := c.2
  obtain ⟨a, b, knots, -, -, -, heval⟩ := CostCurve.fit_knots hfit
  rw [heval]
  rfl

/-- `eval`, which has no fault on a fitted curve. -/
def Fitted.eval (c : Fitted) (x : ℚ) : ℚ × ℚ := (c.1.eval x).get (c.eval_isSome x)

/-- Neither quantile of a fitted curve goes down, and none is negative. -/
theorem Fitted.eval_spec (c : Fitted) :
    (Monotone fun x => (c.eval x).1) ∧ (Monotone fun x => (c.eval x).2) ∧ ∀ x, 0 ≤ (c.eval x).1 ∧ 0 ≤ (c.eval x).2 := by
  obtain ⟨rows, minN, hfit⟩ := c.2
  obtain ⟨a, b, knots, hknots, hrows, -, heval⟩ := CostCurve.fit_knots hfit
  obtain ⟨h50, h90⟩ := rising_monotoneKnots (keptRows rows minN) (⟨0, 0, 0⟩ : Knot ℚ)
  rw [← hrows, hknots] at h50 h90
  have hread : ∀ x, c.eval x = CostCurve.readPolylines a b knots x := by
    intro x
    unfold Fitted.eval
    simp only [heval, Option.get_some]
  have hmono50 := polyline_mono (X := Knot.x) h50.tail
  have hmono90 := polyline_mono (X := Knot.x) h90.tail
  have hfloor : ∀ (Y : Knot ℚ → ℚ) (x : ℚ), 0 ≤ Y a → Monotone (polyline Knot.x Y a b knots) →
      0 ≤ polyline Knot.x Y a b knots x := by
    intro Y x ha hmono
    rcases le_total x a.x with hx | hx
    · rw [polyline, if_pos hx]
      exact ha
    · have hle := hmono hx
      rw [polyline, if_pos le_rfl] at hle
      exact ha.trans hle
  simp only [hread]
  exact ⟨hmono50, hmono90, fun x => ⟨hfloor Knot.p50 x h50.head hmono50, hfloor Knot.p90 x h90.head hmono90⟩⟩

/-- The curves of the job types and of all of them. -/
structure JobCurves where
  ds : Option Fitted
  ld : Option Fitted
  all : Option Fitted

def JobCurves.pick (c : JobCurves) (isLd : Bool) : Option Fitted := (if isLd then c.ld else c.ds).or c.all

/-- A row of the query of `fit_cost_curve`: the mean of the estimator in a bin, the two quantiles, and the samples. -/
abbrev BinRow := Option ℚ × Option ℚ × Option ℚ × ℤ

/-- `fit_cost_curve`: rows without a value are left out, and a job type needs 100 samples in a bin, all together 150. -/
def fitCostCurve (rows : List BinRow) (jt : Option String) : Option Fitted :=
  let clean := rows.filterMap fun r => r.1.bind fun x => r.2.1.bind fun p50 => r.2.2.1.map fun p90 => ⟨x, p50, p90, r.2.2.2⟩
  match hfit : CostCurve.fit clean (if jt.isSome then 100 else 150) with
  | some c => some ⟨c, clean, _, hfit⟩
  | none => none

def CAL50_DEFAULT : ℚ := 16 / 10

def CAL90_DEFAULT : ℚ := 37 / 10

/-- The end of `p50_p90`: the curve of the job type, or the multipliers of a cold start. -/
def JobCurves.calibrated (c : JobCurves) (isLd : Bool) (t : ℚ) : ℚ × ℚ :=
  match c.pick isLd with
  | some curve => curve.eval t
  | none => (t * CAL50_DEFAULT, t * CAL90_DEFAULT)

/-- A longer time costs no less, and no time that is not negative costs a negative one. -/
theorem calibrated_spec (c : JobCurves) (isLd : Bool) {t t' : ℚ} (ht : 0 ≤ t) (hle : t ≤ t') :
    (0 ≤ (c.calibrated isLd t).1 ∧ 0 ≤ (c.calibrated isLd t).2) ∧
      (c.calibrated isLd t).1 ≤ (c.calibrated isLd t').1 ∧ (c.calibrated isLd t).2 ≤ (c.calibrated isLd t').2 := by
  unfold JobCurves.calibrated
  cases c.pick isLd with
  | some curve =>
    obtain ⟨h50, h90, hnonneg⟩ := curve.eval_spec
    exact ⟨hnonneg t, h50 hle, h90 hle⟩
  | none =>
    have h50 : (0 : ℚ) ≤ CAL50_DEFAULT := by norm_num [CAL50_DEFAULT]
    have h90 : (0 : ℚ) ≤ CAL90_DEFAULT := by norm_num [CAL90_DEFAULT]
    exact ⟨⟨mul_nonneg ht h50, mul_nonneg ht h90⟩, mul_le_mul_of_nonneg_right hle h50, mul_le_mul_of_nonneg_right hle h90⟩

/-! ## Queries -/

/-- From where a truck goes to which work. -/
structure Trip where
  source : ℚ × ℚ
  target : ℚ × ℚ
  isLd : Bool

/-- `key`. -/
def coordKey (p : ℚ × ℚ) : ℤ × ℤ := (f64AsI64 (p.1 * 10000000), f64AsI64 (p.2 * 10000000))

/-- `fields` and `snaps`. -/
structure GraphCaches (n : ℕ) where
  fields : AList fun _ : ℤ × ℤ => Option (RouteField n)
  snaps : AList fun _ : ℤ × ℤ => Option (Fin n)

/-- What is kept over the graph that was loaded, if one was. -/
def Caches : Option RoadGraph → Type
  | none => Unit
  | some g => GraphCaches g.n

def freshCaches : (rg : Option RoadGraph) → Caches rg
  | none => ()
  | some _ => ⟨∅, ∅⟩

section Queries

variable (Q : ∀ n, MinHeap ℚ (Fin n)) (fuel : ℕ) (route : JobCurves)

/-- `p50_p90` over a graph. -/
def onGraph (g : RoadGraph) (c : GraphCaches g.n) (q : Trip) : Option (Option (ℚ × ℚ) × GraphCaches g.n) :=
  (memo c.fields (coordKey q.source) (g.fieldFrom (Q g.n) fuel q.source.1 q.source.2)).bind fun r =>
    match r.1 with
    | none => some (none, { c with fields := r.2 })
    | some field =>
      (memo c.snaps (coordKey q.target) (some (g.snap q.target.1 q.target.2))).map fun s =>
        ((s.1.bind field.timeTo).map (route.calibrated q.isLd), ⟨r.2, s.2⟩)

def p50P90 : (rg : Option RoadGraph) → Caches rg → Trip → Option (Option (ℚ × ℚ) × Caches rg)
  | none, c, _ => some (none, c)
  | some g, c, q => onGraph Q fuel route g c q

def askAll (rg : Option RoadGraph) : Caches rg → List Trip → Option (List (Option (ℚ × ℚ)))
  | _, [] => some []
  | c, q :: qs => (p50P90 Q fuel route rg c q).bind fun r => (askAll rg r.2 qs).map fun answers => r.1 :: answers

/-- The answer of a query where nothing is kept. -/
def uncached : Option RoadGraph → Trip → Option (Option (ℚ × ℚ))
  | none, _ => some none
  | some g, q => (g.fieldFrom (Q g.n) fuel q.source.1 q.source.2).map fun field =>
    (fieldTime g field q.target.1 q.target.2).map (route.calibrated q.isLd)

end Queries

section Kept

variable {Q : ∀ n, MinHeap ℚ (Fin n)} {fuel : ℕ} {route : JobCurves}

/-- What is kept over a graph was made for trips that were asked. -/
structure Kept (Q : ∀ n, MinHeap ℚ (Fin n)) (fuel : ℕ) (g : RoadGraph) (asked : List Trip) (c : GraphCaches g.n) : Prop where
  fields : Made coordKey (fun p => g.fieldFrom (Q g.n) fuel p.1 p.2) (fun p => ∃ q ∈ asked, q.source = p) c.fields
  snaps : Made coordKey (fun p => some (g.snap p.1 p.2)) (fun p => ∃ q ∈ asked, q.target = p) c.snaps

/-- The answer to `q` is that of a query with nothing kept, at a source and a target with its keys that were asked. -/
def Answers (Q : ∀ n, MinHeap ℚ (Fin n)) (fuel : ℕ) (route : JobCurves) (rg : Option RoadGraph) (asked : List Trip) (q : Trip)
    (a : Option (ℚ × ℚ)) : Prop :=
  ∃ v ∈ asked, ∃ w ∈ asked, coordKey v.source = coordKey q.source ∧ coordKey w.target = coordKey q.target ∧
    uncached Q fuel route rg ⟨v.source, w.target, q.isLd⟩ = some a

theorem onGraph_spec {g : RoadGraph} {asked : List Trip} {c : GraphCaches g.n} (h : Kept Q fuel g asked c)
    (hfuel : ∀ lat lon, (g.fieldFrom (Q g.n) fuel lat lon).isSome) (q : Trip) :
    ∃ a c', onGraph Q fuel route g c q = some (a, c') ∧ Kept Q fuel g (asked ++ [q]) c' ∧
      Answers Q fuel route (some g) (asked ++ [q]) q a := by
  have hmono : ∀ {P : Trip → Prop}, (∃ x ∈ asked, P x) → ∃ x ∈ asked ++ [q], P x :=
    fun ⟨x, hx, hP⟩ => ⟨x, List.mem_append_left _ hx, hP⟩
  have hq : q ∈ asked ++ [q] := by simp
  have hfields : Made coordKey (fun p => g.fieldFrom (Q g.n) fuel p.1 p.2) (fun p => ∃ x ∈ asked ++ [q], x.source = p) c.fields :=
    h.fields.mono fun p => hmono
  have hsnaps : Made coordKey (fun p => some (g.snap p.1 p.2)) (fun p => ∃ x ∈ asked ++ [q], x.target = p) c.snaps :=
    h.snaps.mono fun p => hmono
  obtain ⟨field, fields, hmemo, hmade, -, ⟨v, hv, rfl⟩, hkey, hfield⟩ := memo_spec hfields ⟨q, hq, rfl⟩ (hfuel _ _)
  unfold onGraph
  rw [hmemo, Option.bind_some]
  cases field with
  | none =>
    -- the target is not asked for: any asked target will do
    exact ⟨none, _, rfl, ⟨hmade, hsnaps⟩, v, hv, q, hq, hkey, rfl, by simp [uncached, hfield, fieldTime]⟩
  | some f =>
    obtain ⟨node, snaps, hmemo', hmade', -, ⟨w, hw, rfl⟩, hkey', hnode⟩ := memo_spec hsnaps ⟨q, hq, rfl⟩ rfl
    dsimp only
    rw [hmemo', Option.map_some]
    refine ⟨_, _, rfl, ⟨hmade, hmade'⟩, v, hv, w, hw, hkey, hkey', ?_⟩
    simp only [uncached, hfield, Option.map_some, fieldTime, Option.bind_some, Option.some_inj.mp hnode]

/-- What is kept was made for trips that were asked, if there is a graph. -/
def KeptAll (Q : ∀ n, MinHeap ℚ (Fin n)) (fuel : ℕ) : (rg : Option RoadGraph) → List Trip → Caches rg → Prop
  | none, _, _ => True
  | some g, asked, c => Kept Q fuel g asked c

theorem p50P90_spec (route : JobCurves) {rg : Option RoadGraph} {asked : List Trip} {c : Caches rg} (h : KeptAll Q fuel rg asked c)
    (hfuel : ∀ g, rg = some g → ∀ lat lon, (g.fieldFrom (Q g.n) fuel lat lon).isSome) (q : Trip) :
    ∃ a c', p50P90 Q fuel route rg c q = some (a, c') ∧ KeptAll Q fuel rg (asked ++ [q]) c' ∧
      Answers Q fuel route rg (asked ++ [q]) q a := by
  cases rg with
  | none => exact ⟨none, c, rfl, trivial, q, by simp, q, by simp, rfl, rfl, rfl⟩
  | some g => exact onGraph_spec h (hfuel g rfl) q

theorem keptAll_fresh (rg : Option RoadGraph) : KeptAll Q fuel rg [] (freshCaches rg) := by
  cases rg with
  | none => trivial
  | some g => exact ⟨made_empty, made_empty⟩

theorem askAll_kept {rg : Option RoadGraph} (hfuel : ∀ g, rg = some g → ∀ lat lon, (g.fieldFrom (Q g.n) fuel lat lon).isSome)
    (qs : List Trip) {asked : List Trip} {c : Caches rg} (h : KeptAll Q fuel rg asked c) :
    ∃ answers, askAll Q fuel route rg c qs = some answers ∧ answers.length = qs.length ∧
      ∀ i q, qs[i]? = some q → ∃ a, answers[i]? = some a ∧ Answers Q fuel route rg (asked ++ qs.take (i + 1)) q a := by
  induction qs generalizing asked c with
  | nil => exact ⟨[], rfl, rfl, fun i q hq => absurd hq (by simp)⟩
  | cons x qs ih =>
    obtain ⟨a, c', hstep, hkept, hanswer⟩ := p50P90_spec route h hfuel x
    obtain ⟨answers, hall, hlength, hrest⟩ := ih hkept
    refine ⟨a :: answers, by rw [askAll, hstep, Option.bind_some, hall, Option.map_some], by simp [hlength], fun i q hq => ?_⟩
    cases i with
    | zero =>
      obtain rfl : x = q := by simpa using hq
      exact ⟨a, rfl, hanswer⟩
    | succ i =>
      obtain ⟨a', ha', hanswer'⟩ := hrest i q (by simpa using hq)
      rw [List.append_assoc, List.singleton_append, ← List.take_succ_cons] at hanswer'
      exact ⟨a', by simpa using ha', hanswer'⟩

theorem fieldFrom_isSome {cosDeg : ℚ → ℚ} {tables : List NodeRow × List EdgeRow} {g : RoadGraph} {Q : MinHeap ℚ (Fin g.n)}
    (hload : load cosDeg (some tables) = some g) (hlen : ∀ r ∈ tables.2, 0 ≤ r.lenM) (hfuel : 2 * tables.2.length + 1 < fuel)
    (lat lon : ℚ) : (g.fieldFrom Q fuel lat lon).isSome := by
  have hloaded := loaded_of_load hload
  have hcount := hloaded.count
  cases hs : g.snapR lat lon SNAP_SRC_MAX_M with
  | none =>
    unfold fieldFrom
    rw [hs]
    rfl
  | some s =>
    obtain ⟨f, hf, -⟩ := field_spec (Q := Q) (hloaded.nonneg hlen) (show g.nEdges + 1 < fuel by omega) hs
    rw [hf]
    rfl

end Kept

/-- **What the queries of a tick are answered**: with enough fuel all of them are, over whatever graph could be loaded, and an
answer is that of a query with nothing kept, at a source and a target with its keys that were asked no later. -/
theorem askAll_spec {fuel : ℕ} (Q : ∀ n, MinHeap ℚ (Fin n)) (route : JobCurves) (cosDeg : ℚ → ℚ)
    {snapshot : Option (List NodeRow × List EdgeRow)} (hlen : ∀ tables, snapshot = some tables → ∀ r ∈ tables.2, 0 ≤ r.lenM)
    (hfuel : ∀ tables, snapshot = some tables → 2 * tables.2.length + 1 < fuel) (qs : List Trip) :
    ∃ answers, askAll Q fuel route (load cosDeg snapshot) (freshCaches _) qs = some answers ∧ answers.length = qs.length ∧
      ∀ i q, qs[i]? = some q →
        ∃ a, answers[i]? = some a ∧ Answers Q fuel route (load cosDeg snapshot) (qs.take (i + 1)) q a := by
  refine askAll_kept (fun g hg lat lon => ?_) qs (keptAll_fresh _)
  obtain ⟨tables, rfl, hload⟩ := Option.bind_eq_some_iff.mp hg
  exact fieldFrom_isSome hg (hlen tables rfl) (hfuel tables rfl) lat lon

/-! ## The cost of a tick -/

def SEG_SPEED_MS : ℚ := 330 / 100

def GRID_COS : ℚ := 86777 / 100000

def GRID_SIN : ℚ := 49697 / 100000

def quayManhattanM (cosDeg : ℚ → ℚ) (p p' : ℚ × ℚ) : ℚ :=
  let dn := (p'.1 - p.1) * 111320
  let de := (p'.2 - p.2) * 111320 * cosDeg ((p.1 + p'.1) / 2)
  let u := dn * GRID_COS + de * GRID_SIN
  let v := -dn * GRID_SIN + de * GRID_COS
  |u| + |v|

/-- What a cost is from: a route, or the distance. -/
inductive Tier
  | R
  | L3
  deriving DecidableEq

structure TripCost where
  p50 : ℤ
  p90 : ℤ
  tier : Tier

/-- The Manhattan distance in seconds: on the curve of the job type, or at the speed of a segment. -/
def fallback (manh : JobCurves) (isLd : Bool) (m : ℚ) : ℚ × ℚ :=
  match manh.pick isLd with
  | some curve => curve.eval m
  | none => (m / SEG_SPEED_MS, m / SEG_SPEED_MS * (15 / 10))

/-- `cost` of a tick, of what `p50_p90` answered. -/
def tripCost (cosDeg : ℚ → ℚ) (manh : JobCurves) (q : Trip) : Option (ℚ × ℚ) → TripCost
  | some p => ⟨f64AsI64 p.1, f64AsI64 p.2, .R⟩
  | none =>
    let p := fallback manh q.isLd (quayManhattanM cosDeg q.source q.target)
    ⟨f64AsI64 p.1, f64AsI64 p.2, .L3⟩

theorem quayManhattanM_nonneg (cosDeg : ℚ → ℚ) (p p' : ℚ × ℚ) : 0 ≤ quayManhattanM cosDeg p p' :=
  add_nonneg (abs_nonneg _) (abs_nonneg _)

theorem fallback_spec (manh : JobCurves) (isLd : Bool) {m m' : ℚ} (hm : 0 ≤ m) (hle : m ≤ m') :
    (0 ≤ (fallback manh isLd m).1 ∧ 0 ≤ (fallback manh isLd m).2) ∧
      (fallback manh isLd m).1 ≤ (fallback manh isLd m').1 ∧ (fallback manh isLd m).2 ≤ (fallback manh isLd m').2 := by
  unfold fallback
  cases manh.pick isLd with
  | some curve =>
    obtain ⟨h50, h90, hnonneg⟩ := curve.eval_spec
    exact ⟨hnonneg m, h50 hle, h90 hle⟩
  | none =>
    have hspeed : (0 : ℚ) ≤ SEG_SPEED_MS := by norm_num [SEG_SPEED_MS]
    have hseg : m / SEG_SPEED_MS ≤ m' / SEG_SPEED_MS := div_le_div_of_nonneg_right hle hspeed
    have hnonneg : 0 ≤ m / SEG_SPEED_MS := div_nonneg hm hspeed
    exact ⟨⟨hnonneg, mul_nonneg hnonneg (by norm_num)⟩, hseg, mul_le_mul_of_nonneg_right hseg (by norm_num)⟩

/-- The trip has a route over the graph, and `τ` is the least time it takes. -/
def Routed (rg : Option RoadGraph) (q : Trip) (τ : ℚ) : Prop :=
  ∃ g s t d, rg = some g ∧ g.snapR q.source.1 q.source.2 SNAP_SRC_MAX_M = some s ∧ g.snap q.target.1 q.target.2 = some t ∧
    Fastest g s t τ d

section Costs

variable {fuel : ℕ} (Q : ∀ n, MinHeap ℚ (Fin n)) (route manh : JobCurves) (cosDeg cosDeg' : ℚ → ℚ)
  {snapshot : Option (List NodeRow × List EdgeRow)}

/-- A query answers the calibrated least time of the trip if it has a route, and nothing otherwise. -/
theorem uncached_cases (hlen : ∀ tables, snapshot = some tables → ∀ r ∈ tables.2, 0 ≤ r.lenM)
    (hfuel : ∀ tables, snapshot = some tables → 2 * tables.2.length + 1 < fuel) (q : Trip) :
    (uncached Q fuel route (load cosDeg snapshot) q = some none ∧ ∀ τ, ¬ Routed (load cosDeg snapshot) q τ) ∨
      ∃ τ, Routed (load cosDeg snapshot) q τ ∧ 0 ≤ τ ∧
        uncached Q fuel route (load cosDeg snapshot) q = some (some (route.calibrated q.isLd τ)) := by
  cases hg : load cosDeg snapshot with
  | none => exact Or.inl ⟨rfl, fun τ ⟨g, _, _, _, h, _⟩ => absurd h (by simp)⟩
  | some g =>
    obtain ⟨tables, rfl, -⟩ := Option.bind_eq_some_iff.mp hg
    have hloaded := loaded_of_load hg
    have hnonneg := hloaded.nonneg (hlen tables rfl)
    have hcount := hloaded.count
    have hf := hfuel tables rfl
    unfold uncached
    dsimp only
    cases hs : g.snapR q.source.1 q.source.2 SNAP_SRC_MAX_M with
    | none =>
      refine Or.inl ⟨by simp [fieldFrom, hs, fieldTime], ?_⟩
      rintro τ ⟨g', s, t, d, hg', hs', -⟩
      obtain rfl := Option.some_inj.mp hg'
      exact absurd (hs.symm.trans hs') (by simp)
    | some s =>
      obtain ⟨f, hfield, htimes⟩ := field_spec (Q := Q g.n) hnonneg (show g.nEdges + 1 < fuel by omega) hs
      rw [hfield, Option.map_some, fieldTime, Option.bind_some]
      cases ht : g.snap q.target.1 q.target.2 with
      | none =>
        refine Or.inl ⟨rfl, ?_⟩
        rintro τ ⟨g', s', t, d, hg', -, ht', -⟩
        obtain rfl := Option.some_inj.mp hg'
        exact absurd (ht.symm.trans ht') (by simp)
      | some t =>
        rw [Option.bind_some]
        by_cases hreach : Reachable g s t
        · obtain ⟨τ, d, hτ, hfastest⟩ := (htimes t).2 hreach
          rw [hτ]
          exact Or.inr ⟨τ, ⟨g, s, t, d, rfl, hs, ht, hfastest⟩, walk_nonneg hnonneg hfastest.walk, rfl⟩
        · rw [(htimes t).1 hreach]
          refine Or.inl ⟨rfl, ?_⟩
          rintro τ ⟨g', s', t', d, hg', hs', ht', hfastest⟩
          obtain rfl := Option.some_inj.mp hg'
          obtain rfl := Option.some_inj.mp (hs.symm.trans hs')
          obtain rfl := Option.some_inj.mp (ht.symm.trans ht')
          exact hreach ⟨τ, d, hfastest.walk⟩

theorem Routed.unique {rg : Option RoadGraph} {q : Trip} {τ τ' : ℚ} (h : Routed rg q τ) (h' : Routed rg q τ') : τ = τ' := by
  obtain ⟨g, s, t, d, rfl, hs, ht, hf⟩ := h
  obtain ⟨g', s', t', d', hg, hs', ht', hf'⟩ := h'
  obtain rfl := Option.some_inj.mp hg
  obtain rfl := Option.some_inj.mp (hs.symm.trans hs')
  obtain rfl := Option.some_inj.mp (ht.symm.trans ht')
  exact hf.unique hf'

def costOf (fuel : ℕ) (rg : Option RoadGraph) (q : Trip) : TripCost :=
  tripCost cosDeg' manh q ((uncached Q fuel route rg q).getD none)

theorem costOf_routed (hlen : ∀ tables, snapshot = some tables → ∀ r ∈ tables.2, 0 ≤ r.lenM)
    (hfuel : ∀ tables, snapshot = some tables → 2 * tables.2.length + 1 < fuel) {q : Trip} {τ : ℚ}
    (hτ : Routed (load cosDeg snapshot) q τ) : 0 ≤ τ ∧ costOf Q route manh cosDeg' fuel (load cosDeg snapshot) q =
      ⟨f64AsI64 (route.calibrated q.isLd τ).1, f64AsI64 (route.calibrated q.isLd τ).2, .R⟩ := by
  rcases uncached_cases Q route cosDeg hlen hfuel q with ⟨-, hno⟩ | ⟨τ', hτ', hnonneg, h⟩
  · exact absurd hτ (hno τ)
  · obtain rfl := hτ.unique hτ'
    exact ⟨hnonneg, by rw [costOf, h, Option.getD_some, tripCost]⟩

theorem costOf_plain (hlen : ∀ tables, snapshot = some tables → ∀ r ∈ tables.2, 0 ≤ r.lenM)
    (hfuel : ∀ tables, snapshot = some tables → 2 * tables.2.length + 1 < fuel) {q : Trip}
    (hno : ∀ τ, ¬ Routed (load cosDeg snapshot) q τ) : costOf Q route manh cosDeg' fuel (load cosDeg snapshot) q =
      ⟨f64AsI64 (fallback manh q.isLd (quayManhattanM cosDeg' q.source q.target)).1,
        f64AsI64 (fallback manh q.isLd (quayManhattanM cosDeg' q.source q.target)).2, .L3⟩ := by
  rcases uncached_cases Q route cosDeg hlen hfuel q with ⟨h, -⟩ | ⟨τ, hτ, -, -⟩
  · rw [costOf, h, Option.getD_some, tripCost]
  · exact absurd hτ (hno τ)

/-- Costs are not negative, and their tier says whether there is a route. -/
theorem costOf_facts (hlen : ∀ tables, snapshot = some tables → ∀ r ∈ tables.2, 0 ≤ r.lenM)
    (hfuel : ∀ tables, snapshot = some tables → 2 * tables.2.length + 1 < fuel) (q : Trip) :
    0 ≤ (costOf Q route manh cosDeg' fuel (load cosDeg snapshot) q).p50 ∧
      0 ≤ (costOf Q route manh cosDeg' fuel (load cosDeg snapshot) q).p90 ∧
      ((costOf Q route manh cosDeg' fuel (load cosDeg snapshot) q).tier = .R ↔ ∃ τ, Routed (load cosDeg snapshot) q τ) := by
  by_cases h : ∃ τ, Routed (load cosDeg snapshot) q τ
  · obtain ⟨τ, hτ⟩ := h
    obtain ⟨hnonneg, heq⟩ := costOf_routed Q route manh cosDeg cosDeg' hlen hfuel hτ
    obtain ⟨⟨h50, h90⟩, -⟩ := calibrated_spec route q.isLd hnonneg le_rfl
    rw [heq]
    exact ⟨f64AsI64_nonneg h50, f64AsI64_nonneg h90, iff_of_true rfl ⟨τ, hτ⟩⟩
  · obtain ⟨⟨h50, h90⟩, -⟩ := fallback_spec manh q.isLd (quayManhattanM_nonneg cosDeg' q.source q.target) le_rfl
    rw [costOf_plain Q route manh cosDeg cosDeg' hlen hfuel (not_exists.mp h)]
    exact ⟨f64AsI64_nonneg h50, f64AsI64_nonneg h90, iff_of_false (by simp) h⟩

/-- **The costs of a tick.** With enough fuel every trip has a cost that is not negative. It is of tier `R` exactly where the
trip has a route; trips of one job type with routes cost no more the less road time they take, and trips without routes no
more the shorter they are. -/
theorem tripCost_spec (hlen : ∀ tables, snapshot = some tables → ∀ r ∈ tables.2, 0 ≤ r.lenM)
    (hfuel : ∀ tables, snapshot = some tables → 2 * tables.2.length + 1 < fuel) {cost : Trip → TripCost}
    (hcost : cost = costOf Q route manh cosDeg' fuel (load cosDeg snapshot)) :
    (∀ q, (uncached Q fuel route (load cosDeg snapshot) q).map (tripCost cosDeg' manh q) = some (cost q)) ∧
      (∀ q, 0 ≤ (cost q).p50 ∧ 0 ≤ (cost q).p90 ∧ ((cost q).tier = .R ↔ ∃ τ, Routed (load cosDeg snapshot) q τ)) ∧
      (∀ q q' τ τ', q.isLd = q'.isLd → Routed (load cosDeg snapshot) q τ → Routed (load cosDeg snapshot) q' τ' → τ ≤ τ' →
        (cost q).p50 ≤ (cost q').p50 ∧ (cost q).p90 ≤ (cost q').p90) ∧
      ∀ q q', q.isLd = q'.isLd → (cost q).tier = .L3 → (cost q').tier = .L3 →
        quayManhattanM cosDeg' q.source q.target ≤ quayManhattanM cosDeg' q'.source q'.target →
          (cost q).p50 ≤ (cost q').p50 ∧ (cost q).p90 ≤ (cost q').p90 := by
  have hplain : ∀ q, (cost q).tier = .L3 → ∀ τ, ¬ Routed (load cosDeg snapshot) q τ := by
    intro q hL3 τ hτ
    rw [hcost, (costOf_routed Q route manh cosDeg cosDeg' hlen hfuel hτ).2] at hL3
    exact absurd hL3 (by simp)
  refine ⟨fun q => ?_, fun q => ?_, fun q q' τ τ' hLd hτ hτ' hle => ?_, fun q q' hLd hq hq' hle => ?_⟩
  · rw [hcost, costOf]
    rcases uncached_cases Q route cosDeg hlen hfuel q with ⟨h, -⟩ | ⟨τ, -, -, h⟩ <;> rw [h] <;> rfl
  · rw [hcost]
    exact costOf_facts Q route manh cosDeg cosDeg' hlen hfuel q
  · obtain ⟨hnonneg, heq⟩ := costOf_routed Q route manh cosDeg cosDeg' hlen hfuel hτ
    obtain ⟨-, heq'⟩ := costOf_routed Q route manh cosDeg cosDeg' hlen hfuel hτ'
    obtain ⟨-, h50, h90⟩ := calibrated_spec route q.isLd hnonneg hle
    rw [hcost, heq, heq', ← hLd]
    exact ⟨f64AsI64_mono h50, f64AsI64_mono h90⟩
  · have heq := costOf_plain Q route manh cosDeg cosDeg' hlen hfuel (hplain q hq)
    have heq' := costOf_plain Q route manh cosDeg cosDeg' hlen hfuel (hplain q' hq')
    obtain ⟨-, h50, h90⟩ := fallback_spec manh q.isLd (quayManhattanM_nonneg cosDeg' q.source q.target) hle
    rw [hcost, heq, heq', ← hLd]
    exact ⟨f64AsI64_mono h50, f64AsI64_mono h90⟩

end Costs

def coldCurves : JobCurves := ⟨none, none, none⟩

/-- Along the lane of `laneTables`, once from the row's own coordinate and once from one with the same key. -/
def laneTrips : List Trip := [⟨(1, 103), (1001 / 1000, 103), true⟩, ⟨(1 + 1 / 100000000, 103), (1001 / 1000, 103), true⟩]

theorem laneTables_lengths : ∀ tables, some laneTables = some tables → ∀ r ∈ tables.2, 0 ≤ r.lenM := by
  rintro tables ⟨⟩
  simp [laneTables]

theorem laneTables_fuel : ∀ tables, some laneTables = some tables → 2 * tables.2.length + 1 < 4 := by
  rintro tables ⟨⟩
  decide

/-- Both are answered. -/
theorem askAll_spec_lane : ∃ answers,
    askAll (fun n => sortedHeap ℚ (Fin n)) 4 coldCurves (load (fun _ => 1) (some laneTables)) (freshCaches _) laneTrips =
      some answers ∧ answers.length = 2 := by
  obtain ⟨answers, hall, hlength, -⟩ :=
    askAll_spec (fun n => sortedHeap ℚ (Fin n)) coldCurves (fun _ => 1) laneTables_lengths laneTables_fuel laneTrips
  exact ⟨answers, hall, hlength⟩

theorem tripCost_spec_lane :
    0 ≤ (costOf (fun n => sortedHeap ℚ (Fin n)) coldCurves coldCurves (fun _ => 1) 4 (load (fun _ => 1) (some laneTables))
      ⟨(1, 103), (1001 / 1000, 103), true⟩).p50 :=
  ((tripCost_spec (fun n => sortedHeap ℚ (Fin n)) coldCurves coldCurves (fun _ => 1) (fun _ => 1) laneTables_lengths
    laneTables_fuel rfl).2.1 _).1

end TtAiops.Api
