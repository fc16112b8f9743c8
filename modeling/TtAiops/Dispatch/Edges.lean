import TtAiops.Api.RouteCost
import TtAiops.Dispatch.Fleet

/-!
# What a tick matches (`spawn_stage2_shadow`)

Trucks that are free now are offered at once, the others after the seconds in which half of their kind were free. An edge
costs these seconds, the empty trip to the pickup, and a penalty where the truck is taken off the work it had.

* `soonFreeQuantile`, `Costs`, `WorkRow`, `MatchIn` : what is learned, what a trip costs, and what a tick reads;
* `remain`, `switchPen`, `leg` : the parts of the cost of an edge;
* `MatchIn.onto` : the tick of `Tick` that reads all this;
* `mem_workEdges_onto` : the edges of a tick, part by part;
* `tick_matches` : **every slot that is covered gets a truck of its own at the least total cost, in every tick**;
* `switch_pays` : **a truck leaves its work to another only if the trips of both are shorter by the penalty**.
-/

namespace TtAiops.Dispatch
open TtAiops.Lib TtAiops.Stage2
open TtAiops.Api (Trip TripCost)

/-! ## What is learned -/

def SOON_FREE_POINTS : List ℤ := [60, 120, 180, 300, 450, 600, 900, 1200, 1800]

def SOON_FREE_REMAIN_P : ℚ := 1 / 2

def soonFreePredBucket (freeInS : ℤ) : ℤ :=
  if freeInS ≤ 0 then 0
  else if freeInS ≤ 60 then 60
  else if freeInS ≤ 300 then 300
  else if freeInS ≤ 900 then 900
  else 3600

def soonFreeQuantile (fracs : Fin 9 → ℚ) (p : ℚ) : Option ℤ :=
  ((SOON_FREE_POINTS.zip (List.ofFn fracs)).find? fun x => p ≤ x.2).map Prod.fst

theorem soonFreeQuantile_mem {fracs : Fin 9 → ℚ} {p : ℚ} {s : ℤ} (h : soonFreeQuantile fracs p = some s) :
    s ∈ SOON_FREE_POINTS := by
  obtain ⟨x, hx, rfl⟩ := Option.map_eq_some_iff.mp h
  exact (List.of_mem_zip (List.mem_of_find?_eq_some hx)).1

theorem soonFree_bounds {s : ℤ} (h : s ∈ SOON_FREE_POINTS) : 0 ≤ s ∧ s ≤ 1800 := by
  have hall : ∀ s ∈ SOON_FREE_POINTS, 0 ≤ s ∧ s ≤ 1800 := by decide
  exact hall s h

/-- `cost` of a tick: the seconds of a trip, which are never negative. -/
structure Costs where
  cost : Trip → TripCost
  nonneg : ∀ q, 0 ≤ (cost q).p50

/-- The costs of a tick over the tables of the road graph. -/
def routeCosts (Q : ∀ n, Dijkstra.MinHeap ℚ (Fin n)) (route manh : Api.JobCurves) (cosDeg cosDeg' : ℚ → ℚ) {fuel : ℕ}
    {snapshot : Option (List Api.NodeRow × List Api.EdgeRow)}
    (hlen : ∀ tables, snapshot = some tables → ∀ r ∈ tables.2, 0 ≤ r.lenM)
    (hfuel : ∀ tables, snapshot = some tables → 2 * tables.2.length + 1 < fuel) : Costs where
  cost := Api.costOf Q route manh cosDeg' fuel (Api.load cosDeg snapshot)
  nonneg q := (Api.costOf_facts Q route manh cosDeg cosDeg' hlen hfuel q).1

/-! ## What a tick reads -/

/-- The key of a bundle of works: crane, ship and queue. -/
abbrev WorkKey := String × String × String

/-- A work of `stage2_work_candidates`, with what the matching reads of it. -/
structure WorkRow where
  qc : String
  vessel : String
  queuename : String
  jobtype : String
  srcBlock : Option String
  contno : Option String
  workEtaMs : Option ℤ
  tosAssigned : Bool
  dispatchDeadlineMs : Option ℤ
  n : ℤ
  deriving DecidableEq

def WorkRow.key (w : WorkRow) : WorkKey := (w.qc, w.vessel, w.queuename)

/-- What a tick reads for the matching: the pool, the trips' costs, the works with the places of cranes and blocks, the
reliability of the predictions, and the works that were recommended last, the latest of a truck first. -/
structure MatchIn where
  pool : PoolIn
  costs : Costs
  work : List WorkRow
  cranesNow : String → Option (ℚ × ℚ)
  centroidsNow : String → Option (ℚ × ℚ)
  reliability : Reason × String × ℤ → Option (Fin 9 → ℚ)
  prevRows : List (String × WorkKey)
  poolMarginS : ℤ

def COMMIT_WINDOW_MS : ℤ := 600000

def COMMIT_LOCK_S : ℤ := 1200

def SWITCH_PENALTY_S : ℤ := 180

/-- The truck is free now. -/
def Vehicle.free (v : Vehicle) : Bool :=
  match v.state with
  | .freeTos | .freeGps => true
  | _ => false

namespace MatchIn

variable (m : MatchIn)

def vehicles : List Vehicle := (buildPool m.pool).vehicles

/-- Where the work is picked up: a load at its block, another at its crane. -/
def coord (w : WorkRow) : Option (ℚ × ℚ) :=
  if w.jobtype = "LD" then w.srcBlock.bind m.centroidsNow else (m.cranesNow w.qc).or (m.centroidsNow w.qc)

/-- `works`: those with a place and a time. -/
def works : List (WorkRow × (ℚ × ℚ)) :=
  m.work.filterMap fun w => (m.coord w).bind fun p => w.workEtaMs.map fun _ => (w, p)

/-- `pool_class`: the last row of the truck. -/
def poolClass (yt : String) : Option PoolRow := ((buildPool m.pool).rows.filter fun r => r.ytno = yt).getLast?

/-- The seconds until the truck is free, of `veh_info`: none for a truck that is free, and where they are not known the truck is
no candidate. -/
def remain (v : Vehicle) : Option ℤ :=
  if v.free then some 0
  else (m.poolClass v.ytno).bind fun r => r.jobtype.bind fun jt =>
    (m.reliability (r.reason, jt, soonFreePredBucket r.freeInS)).bind fun f => soonFreeQuantile f SOON_FREE_REMAIN_P

def dropPos (yt : String) : Option (ℚ × ℚ) := (((buildPool m.pool).dropPos.filter fun d => d.1 = yt).getLast?).map Prod.snd

/-- From where the trip is counted: a truck that is free drives from where it is, another from where it unloads. -/
def source (v : Vehicle) : ℚ × ℚ := if v.free then v.pos else (m.dropPos v.ytno).getD v.pos

/-- `prev`: the work that was recommended to the truck last. -/
def prev (yt : String) : Option WorkKey := (m.prevRows.find? fun r => r.1 = yt).map Prod.snd

/-- `eta_by_key`: the time of the last work with the key that has one. -/
def etaByKey (k : WorkKey) : Option ℤ := ((m.work.filter fun w => w.workEtaMs.isSome ∧ w.key = k).getLast?).bind WorkRow.workEtaMs

/-- `switch_pen`: what it costs to take a truck off its work, and more if that work is near. -/
def switchPen (yt : String) (k : WorkKey) : ℤ :=
  match (m.prev yt).filter fun pk => pk ≠ k with
  | none => 0
  | some pk => if (m.etaByKey pk).any fun e => e - m.pool.now < COMMIT_WINDOW_MS then COMMIT_LOCK_S else SWITCH_PENALTY_S

/-- The empty trip of the truck to the pickup. -/
def trip (v : Vehicle) (w : WorkRow × (ℚ × ℚ)) : Trip := ⟨m.source v, w.2, w.1.jobtype == "LD"⟩

/-- The seconds of the trip of a truck to a work, and the penalty. -/
def leg (vi oi : ℕ) : ℤ × ℤ :=
  match m.vehicles[vi]?, m.works[oi]? with
  | some v, some w => ((m.costs.cost (m.trip v w)).p50, m.switchPen v.ytno w.1.key)
  | _, _ => (0, 0)

/-- A tick of `Tick` that matches this pool and these works. -/
def onto (t : TickIn) : TickIn :=
  { m.pool.onto t with
    vehicles := m.vehicles.map fun v => ⟨v.ytno, v.free, m.remain v⟩
    works := m.works.map fun w => ⟨w.1.contno, ⟨w.1.tosAssigned, w.1.dispatchDeadlineMs, w.1.n, w.1.jobtype == "LD"⟩⟩
    leg := m.leg
    poolMarginS := m.poolMarginS }

/-! ## The edges -/

variable {m}

theorem switchPen_bounds (yt : String) (k : WorkKey) : 0 ≤ m.switchPen yt k ∧ m.switchPen yt k ≤ COMMIT_LOCK_S := by
  unfold switchPen
  cases (m.prev yt).filter fun pk => pk ≠ k with
  | none => exact ⟨le_rfl, by norm_num [COMMIT_LOCK_S]⟩
  | some pk =>
    dsimp only
    split_ifs <;> norm_num [COMMIT_LOCK_S, SWITCH_PENALTY_S]

theorem penalty_le_switchPen {yt : String} {k pk : WorkKey} (hprev : m.prev yt = some pk) (hne : pk ≠ k) :
    SWITCH_PENALTY_S ≤ m.switchPen yt k := by
  unfold switchPen
  rw [hprev, Option.filter_some, if_pos (by simpa using hne)]
  dsimp only
  split_ifs <;> decide

theorem switchPen_same {yt : String} {k : WorkKey} (hprev : m.prev yt = some k) : m.switchPen yt k = 0 := by
  unfold switchPen
  rw [hprev, Option.filter_some, if_neg (by simp)]

theorem remain_bounds {v : Vehicle} {r : ℤ} (h : m.remain v = some r) : 0 ≤ r ∧ r ≤ 1800 := by
  unfold remain at h
  split_ifs at h
  · obtain rfl := Option.some_inj.mp h
    decide
  · obtain ⟨row, -, h⟩ := Option.bind_eq_some_iff.mp h
    obtain ⟨jt, -, h⟩ := Option.bind_eq_some_iff.mp h
    obtain ⟨f, -, h⟩ := Option.bind_eq_some_iff.mp h
    exact soonFree_bounds (soonFreeQuantile_mem h)

/-- The seconds until the truck has reached the pickup. -/
def arrival (m : MatchIn) (v : Vehicle) (w : WorkRow × (ℚ × ℚ)) : ℤ :=
  (m.remain v).getD v.base + (m.costs.cost (m.trip v w)).p50

theorem arrival_eq {v : Vehicle} {w : WorkRow × (ℚ × ℚ)} (h : (m.remain v).isSome) :
    m.arrival v w = (m.remain v).getD 0 + (m.costs.cost (m.trip v w)).p50 := by
  obtain ⟨r, hr⟩ := Option.isSome_iff_exists.mp h
  rw [arrival, hr, Option.getD_some, Option.getD_some]

/-- An edge of the truck to the work: it will be free at a known time, its trip is short, and no order stands between them. -/
structure EdgeOk (m : MatchIn) (held : Held) (v : Vehicle) (w : WorkRow × (ℚ × ℚ)) : Prop where
  known : (m.remain v).isSome
  near : (m.costs.cost (m.trip v w)).p50 < 1800
  hold : edgeAllowedByHold ((held.lookup v.ytno).map Hold.contno) w.1.contno
    (w.1.contno.any fun c => (heldBoxes held).contains c) = true

/-- **The edges of a work**: those of the trucks of the pool that may get it, at the arrival and the penalty. -/
theorem mem_workEdges_onto {t : TickIn} {held : Held} {oi vi : ℕ} {c : ℤ} {w : WorkRow × (ℚ × ℚ)}
    (hw : m.works[oi]? = some w) : (vi, c) ∈ workEdges (m.onto t) held oi ↔
      ∃ v, m.vehicles[vi]? = some v ∧ EdgeOk m held v w ∧ c = m.arrival v w + m.switchPen v.ytno w.1.key := by
  have hbox : ((m.onto t).works[oi]?).bind WorkIn.contno = w.1.contno := by
    show ((m.works.map _)[oi]?).bind WorkIn.contno = w.1.contno
    rw [List.getElem?_map, hw]
    rfl
  unfold workEdges
  rw [hbox]
  rw [List.mem_filterMap]
  constructor
  · rintro ⟨⟨x, i⟩, hx, he⟩
    obtain ⟨hok, he⟩ := Option.ite_none_right_eq_some.mp he
    obtain ⟨rfl, rfl⟩ := Prod.mk.inj (Option.some_inj.mp he)
    have hx' : (m.vehicles.map fun v => (⟨v.ytno, v.free, m.remain v⟩ : VehicleIn))[i]? = some x :=
      List.mem_zipIdx_iff_getElem?.mp hx
    rw [List.getElem?_map] at hx'
    obtain ⟨v, hv, rfl⟩ := Option.map_eq_some_iff.mp hx'
    have hleg : (m.onto t).leg i oi = ((m.costs.cost (m.trip v w)).p50, m.switchPen v.ytno w.1.key) := by
      show m.leg i oi = _
      rw [leg, hv, hw]
    rw [hleg] at hok ⊢
    simp only [Bool.and_eq_true, decide_eq_true_eq] at hok
    exact ⟨v, hv, ⟨hok.1.2, hok.2, hok.1.1⟩, by rw [arrival_eq hok.1.2]⟩
  · rintro ⟨v, hv, ⟨hknown, hnear, hhold⟩, rfl⟩
    have hleg : (m.onto t).leg vi oi = ((m.costs.cost (m.trip v w)).p50, m.switchPen v.ytno w.1.key) := by
      show m.leg vi oi = _
      rw [leg, hv, hw]
    refine ⟨(⟨v.ytno, v.free, m.remain v⟩, vi), ?_, ?_⟩
    · rw [List.mem_zipIdx_iff_getElem?]
      show (m.vehicles.map _)[vi]? = _
      rw [List.getElem?_map, hv]
      rfl
    · rw [hleg]
      simp only [hhold, hknown, hnear, decide_true, Bool.and_self, if_true, arrival_eq hknown]

end MatchIn

/-! ## The matching of a tick -/

/-- Two slots may exchange their trucks where both have an edge; at the least total cost that saves nothing. -/
theorem exchange_le {edges : List Edge} {slotWpos : List ℕ} {g : ℕ → ℕ × ℤ} (hg : Serves edges slotWpos g)
    (hmin : ∀ g', Serves edges slotWpos g' → totalCost slotWpos g ≤ totalCost slotWpos g') {s s' : ℕ}
    (hs : s < slotWpos.length) (hs' : s' < slotWpos.length) (hne : s ≠ s') {c c' : ℤ}
    (hc : ((g s).1, slotWpos.getD s' 0, c) ∈ edges) (hc' : ((g s').1, slotWpos.getD s 0, c') ∈ edges) :
    (g s).2 + (g s').2 ≤ c + c' := by
  set g' : ℕ → ℕ × ℤ := fun i => if i = s then ((g s').1, c') else if i = s' then ((g s).1, c) else g i with hg'
  have htruck : ∀ i, (g' i).1 = (g (Equiv.swap s s' i)).1 := by
    intro i
    rw [Equiv.swap_apply_def, hg']
    dsimp only
    split_ifs <;> rfl
  have hserves : Serves edges slotWpos g' := by
    refine ⟨fun i hi => ?_, fun i hi j hj he => ?_⟩
    · rw [hg']
      dsimp only
      split_ifs with h h'
      · rw [h]
        exact hc'
      · rw [h']
        exact hc
      · exact hg.edge i hi
    · have hmem : ∀ i ∈ Finset.range slotWpos.length, Equiv.swap s s' i ∈ Finset.range slotWpos.length := by
        intro i hi
        rw [Equiv.swap_apply_def]
        split_ifs
        · exact Finset.mem_range.mpr hs'
        · exact Finset.mem_range.mpr hs
        · exact hi
      dsimp only at he
      rw [htruck, htruck] at he
      exact (Equiv.swap s s').injective (hg.inj (hmem i hi) (hmem j hj) he)
  have hsplit : ∀ f : ℕ → ℕ × ℤ, totalCost slotWpos f =
      (f s).2 + ((f s').2 + ∑ i ∈ ((Finset.range slotWpos.length).erase s).erase s', (f i).2) := by
    intro f
    rw [totalCost, ← Finset.add_sum_erase _ _ (Finset.mem_range.mpr hs),
      ← Finset.add_sum_erase _ _ (Finset.mem_erase.mpr ⟨hne.symm, Finset.mem_range.mpr hs'⟩)]
  have hrest : ∑ i ∈ ((Finset.range slotWpos.length).erase s).erase s', (g' i).2 =
      ∑ i ∈ ((Finset.range slotWpos.length).erase s).erase s', (g i).2 := by
    refine Finset.sum_congr rfl fun i hi => ?_
    obtain ⟨hne', hi⟩ := Finset.mem_erase.mp hi
    rw [hg']
    dsimp only
    rw [if_neg (Finset.ne_of_mem_erase hi), if_neg hne']
  have hle := hmin g' hserves
  have hat : (g' s).2 = c' ∧ (g' s').2 = c := by
    rw [hg']
    dsimp only
    exact ⟨by rw [if_pos rfl], by rw [if_neg hne.symm, if_pos rfl]⟩
  rw [hsplit g, hsplit g', hrest, hat.1, hat.2] at hle
  omega

/-- The covered slots are as many as any that can be served at once. -/
theorem card_le_kept {nTrucks : ℕ} {slots : List ℕ} {edges : List Edge} {A : Finset ℕ} (hA : ∀ s ∈ A, s < slots.length)
    (hserv : Servable (CanTake nTrucks slots edges) (A : Set ℕ)) : A.card ≤ (coveredSlots nTrucks slots edges).length := by
  classical
  have hgreedy := deadlineCover_greedy nTrucks slots edges
  have hkept : (coveredSlots nTrucks slots edges).length =
      ((Finset.range slots.length).filter fun s => (deadlineCover nTrucks slots edges).getD s false = true).card := by
    rw [coveredSlots, keptSlots_eq (length_deadlineCover nTrucks slots edges), List.length_map,
      ← List.toFinset_card_of_nodup (List.nodup_range.filter _), List.toFinset_filter, List.toFinset_range]
  rw [hkept]
  refine hgreedy.card_le (N := fun s => (Finset.range nTrucks).filter (CanTake nTrucks slots edges s)) ?_ hA hserv
  intro s _ t
  rw [Finset.mem_filter, Finset.mem_range]
  exact ⟨fun h => ⟨h.1, h⟩, fun h => h.2⟩

theorem mem_of_keepDue {truckN acc : ℤ} {due : List Due} {d : ℕ × ℤ} (h : d ∈ keepDue truckN acc due) :
    ∃ x ∈ due, x.1 = d.1 := by
  induction due generalizing acc with
  | nil => exact absurd h List.not_mem_nil
  | cons x due ih =>
    rw [keepDue] at h
    split_ifs at h
    · exact absurd h List.not_mem_nil
    · obtain ⟨y, hy, heq⟩ := ih h
      exact ⟨y, List.mem_cons_of_mem _ hy, heq⟩
    · rcases List.mem_cons.mp h with rfl | h
      · exact ⟨x, List.mem_cons_self, rfl⟩
      · obtain ⟨y, hy, heq⟩ := ih h
        exact ⟨y, List.mem_cons_of_mem _ hy, heq⟩

theorem driving_lt {inp : TickIn} {d : ℕ × ℤ} (h : d ∈ driving inp) : d.1 < inp.works.length := by
  obtain ⟨x, hx, heq⟩ := mem_of_keepDue h
  obtain ⟨y, hy, hdue⟩ := List.mem_filterMap.mp ((List.mem_insertionSort _).mp hx)
  have hlt : y.2 < inp.works.length := by
    have := (List.mem_zipIdx' hy).1
    rwa [List.length_map] at this
  split_ifs at hdue
  obtain ⟨base, -, hdue⟩ := Option.bind_eq_some_iff.mp hdue
  split_ifs at hdue
  obtain rfl := Option.some_inj.mp hdue
  rwa [← heq]

namespace MatchIn

variable (m : MatchIn) (t : TickIn) (held : Held)

def edges : List Edge := drivingEdges (workEdges (m.onto t) held) (driving (m.onto t))

/-- The bundles of the covered slots. -/
def kept : List ℕ := coveredSlots m.vehicles.length (slotAll (driving (m.onto t))) (m.edges t held)

def workOf (wpos : ℕ) : Option (WorkRow × (ℚ × ℚ)) := ((driving (m.onto t))[wpos]?).bind fun d => m.works[d.1]?

variable {m t held}

theorem mem_edges {vi wpos : ℕ} {c : ℤ} : (vi, wpos, c) ∈ m.edges t held ↔
    ∃ w v, m.workOf t wpos = some w ∧ m.vehicles[vi]? = some v ∧ EdgeOk m held v w ∧
      c = m.arrival v w + m.switchPen v.ytno w.1.key := by
  unfold edges workOf
  rw [mem_drivingEdges]
  constructor
  · rintro ⟨hlt, he⟩
    have hd := List.getElem_mem hlt
    have hworks : ((driving (m.onto t))[wpos]).1 < m.works.length := by
      have := driving_lt hd
      rwa [show (m.onto t).works = m.works.map _ from rfl, List.length_map] at this
    rw [List.getD_eq_getElem _ _ hlt] at he
    obtain ⟨v, hv, hok, rfl⟩ := (mem_workEdges_onto (List.getElem?_eq_getElem hworks)).mp he
    exact ⟨_, v, by rw [List.getElem?_eq_getElem hlt, Option.bind_some, List.getElem?_eq_getElem hworks], hv, hok, rfl⟩
  · rintro ⟨w, v, hw, hv, hok, rfl⟩
    obtain ⟨d, hd, hw⟩ := Option.bind_eq_some_iff.mp hw
    obtain ⟨hlt, hget⟩ := List.getElem?_eq_some_iff.mp hd
    refine ⟨hlt, ?_⟩
    rw [List.getD_eq_getElem _ _ hlt, hget]
    exact (mem_workEdges_onto hw).mpr ⟨v, hv, hok, rfl⟩

theorem edges_bounds : ∀ e ∈ m.edges t held, e.1 < m.vehicles.length ∧ 0 ≤ e.2.2 ∧ e.2.2 ≤ 4799 := by
  rintro ⟨vi, wpos, c⟩ he
  obtain ⟨w, v, -, hv, hok, rfl⟩ := mem_edges.mp he
  obtain ⟨r, hr⟩ := Option.isSome_iff_exists.mp hok.known
  have hremain := remain_bounds hr
  have hpen := switchPen_bounds (m := m) v.ytno w.1.key
  have hnear := hok.near
  have hnonneg := m.costs.nonneg (m.trip v w)
  have hlock : COMMIT_LOCK_S = 1200 := rfl
  refine ⟨(List.getElem?_eq_some_iff.mp hv).1, ?_, ?_⟩ <;> dsimp only [arrival] <;> rw [hr, Option.getD_some] <;> omega

/-- What a tick matches: `g` gives every covered slot a truck and what it costs. -/
structure Matched (m : MatchIn) (t : TickIn) (held : Held) (g : ℕ → ℕ × ℤ) : Prop where
  serves : Serves (m.edges t held) (m.kept t held) g
  pairs : (stage2Assign m.vehicles.length (slotAll (driving (m.onto t))) (m.edges t held)).Perm
    ((List.range (m.kept t held).length).map fun s => ((g s).1, (m.kept t held).getD s 0))
  least : ∀ g', Serves (m.edges t held) (m.kept t held) g' → totalCost (m.kept t held) g ≤ totalCost (m.kept t held) g'

theorem exists_matched (t : TickIn) (held : Held) (hfew : (m.vehicles.length : ℤ) * 4799 < FORBIDDEN_COST) : ∃ g, Matched m t held g := by
  obtain ⟨h, hserves⟩ := exists_serves_covered m.vehicles.length (slotAll (driving (m.onto t))) (m.edges t held)
  have hsmall : ∀ e ∈ m.edges t held, (min m.vehicles.length (m.kept t held).length : ℕ) * e.2.2 < FORBIDDEN_COST := by
    intro e he
    obtain ⟨-, hnonneg, hle⟩ := edges_bounds e he
    have hmin : ((min m.vehicles.length (m.kept t held).length : ℕ) : ℤ) ≤ m.vehicles.length := by
      exact_mod_cast min_le_left _ _
    exact (mul_le_mul hmin hle hnonneg (Int.natCast_nonneg _)).trans_lt hfew
  obtain ⟨g, hg, hperm, hleast⟩ := assignSlots_optimal (fun e he => (edges_bounds e he).1) (fun e he => (edges_bounds e he).2.1)
    hsmall hserves
  exact ⟨g, hg, hperm, hleast⟩

/-- **Every tick matches.** With no more trucks than the sentinel allows for, every covered slot gets a truck of the pool of its
own, one that is free at a known time, is near and is not held for another box; no slots that could be served at once are more
than the covered ones, and no other choice of edges that serves these costs less in all. -/
theorem tick_matches (m : MatchIn) (t : TickIn) (held : Held) (hfew : (m.vehicles.length : ℤ) * 4799 < FORBIDDEN_COST) :
    (∃ g, Matched m t held g ∧ ∀ s < (m.kept t held).length, ∃ w v, m.workOf t ((m.kept t held).getD s 0) = some w ∧
      m.vehicles[(g s).1]? = some v ∧ EdgeOk m held v w ∧ (g s).2 = m.arrival v w + m.switchPen v.ytno w.1.key) ∧
      ∀ A : Finset ℕ, (∀ s ∈ A, s < (slotAll (driving (m.onto t))).length) →
        Servable (CanTake m.vehicles.length (slotAll (driving (m.onto t))) (m.edges t held)) (A : Set ℕ) →
          A.card ≤ (m.kept t held).length := by
  obtain ⟨g, hg⟩ := exists_matched t held hfew
  refine ⟨⟨g, hg, fun s hs => ?_⟩, fun A hA => card_le_kept hA⟩
  obtain ⟨w, v, hw, hv, hok, hc⟩ := mem_edges.mp (hg.serves.edge s hs)
  exact ⟨w, v, hw, hv, hok, hc⟩

/-- **What a switch must save.** Where the matching takes a truck off the work it had, and that work goes to another truck, the
two would have been at each other's work so much later as the penalty of the first exceeds that of the second; the penalty is
that of a switch at least. -/
theorem switch_pays {m : MatchIn} {t : TickIn} {held : Held} {g : ℕ → ℕ × ℤ} (h : Matched m t held g) {s s' : ℕ}
    (hs : s < (m.kept t held).length) (hs' : s' < (m.kept t held).length) {w w' : WorkRow × (ℚ × ℚ)} {v v' : Vehicle}
    (hw : m.workOf t ((m.kept t held).getD s 0) = some w) (hw' : m.workOf t ((m.kept t held).getD s' 0) = some w')
    (hv : m.vehicles[(g s).1]? = some v) (hv' : m.vehicles[(g s').1]? = some v') (hprev : m.prev v.ytno = some w'.1.key)
    (hne : w'.1.key ≠ w.1.key) (hok : EdgeOk m held v w') (hok' : EdgeOk m held v' w) :
    SWITCH_PENALTY_S ≤ m.switchPen v.ytno w.1.key ∧
      m.arrival v w + m.arrival v' w' + m.switchPen v.ytno w.1.key ≤
        m.arrival v w' + m.arrival v' w + m.switchPen v'.ytno w.1.key := by
  have hslots : s ≠ s' := by
    rintro rfl
    exact hne (by rw [Option.some_inj.mp (hw.symm.trans hw')])
  have hcost : (g s).2 = m.arrival v w + m.switchPen v.ytno w.1.key := by
    obtain ⟨x, y, hx, hy, -, hc⟩ := mem_edges.mp (h.serves.edge s hs)
    rw [hc, Option.some_inj.mp (hx.symm.trans hw), Option.some_inj.mp (hy.symm.trans hv)]
  have hcost' : (g s').2 = m.arrival v' w' + m.switchPen v'.ytno w'.1.key := by
    obtain ⟨x, y, hx, hy, -, hc⟩ := mem_edges.mp (h.serves.edge s' hs')
    rw [hc, Option.some_inj.mp (hx.symm.trans hw'), Option.some_inj.mp (hy.symm.trans hv')]
  have hle := exchange_le h.serves h.least hs hs' hslots (mem_edges.mpr ⟨w', v, hw', hv, hok, rfl⟩)
    (mem_edges.mpr ⟨w, v', hw, hv', hok', rfl⟩)
  have hstay := switchPen_same hprev
  have hpen := (switchPen_bounds (m := m) v'.ytno w'.1.key).1
  exact ⟨penalty_le_switchPen hprev hne, by omega⟩

end MatchIn

/-! ## Two trucks -/

/-- Trips on a plane: a hundred seconds, but to the left from the right it is far. -/
def planeCosts : Costs := ⟨fun q => if q.source.1 = 2 ∧ q.target.1 = 1 then ⟨900, 950, .L3⟩ else ⟨100, 150, .L3⟩, fun q => by
  split_ifs <;> norm_num⟩

/-- `TT1` is free at the left and `TT2` at the right, and two boxes are due, one at either side; the other box was recommended
to `TT1`. -/
def twoMatch : MatchIn where
  pool := { freePool 5000 500000 with
    devices := AList.insert "TT2" { standingPos 5000 with lat := 2 } (AList.insert "TT1" (standingPos 5000) ∅)
    tosSig := AList.insert "TT2" ⟨⟨some 500000, none, none, none, none⟩, none, some "DS", none⟩
      (AList.insert "TT1" ⟨⟨some 500000, none, none, none, none⟩, none, some "DS", none⟩ ∅) }
  costs := planeCosts
  work := [⟨"C1", "V", "QA", "DS", none, some "BOXA", some 900000, false, some 0, 1⟩,
    ⟨"C2", "V", "QB", "DS", none, some "BOXB", some 900000, false, some 0, 1⟩]
  cranesNow := fun qc => if qc = "C1" then some (1, 0) else some (2, 0)
  centroidsNow := fun _ => none
  reliability := fun _ => none
  prevRows := [("TT1", ("C2", "V", "QB"))]
  poolMarginS := 300

example : twoMatch.vehicles.map Vehicle.ytno = ["TT2", "TT1"] ∧ twoMatch.edges idleTick ∅ =
    [(0, 0, 900), (1, 0, 280), (0, 1, 100), (1, 1, 100)] := by decide +kernel

namespace MatchIn

theorem tick_matches_two : ∃ g, Matched twoMatch idleTick ∅ g := by
  obtain ⟨g, hg, -⟩ := (tick_matches twoMatch idleTick ∅ (by decide +kernel)).1
  exact ⟨g, hg⟩

/-- `TT1` is taken off its work: at its place the other truck would have been later by more than the penalty. -/
theorem switch_pays_two : ∃ v v' w w', twoMatch.vehicles = [v', v] ∧ twoMatch.works = [w, w'] ∧
    twoMatch.arrival v w + twoMatch.arrival v' w' + twoMatch.switchPen v.ytno w.1.key ≤
      twoMatch.arrival v w' + twoMatch.arrival v' w + twoMatch.switchPen v'.ytno w.1.key := by
  obtain ⟨g, hg⟩ := exists_matched (m := twoMatch) idleTick ∅ (by decide +kernel)
  have hkept : twoMatch.kept idleTick ∅ = [0, 1] := by decide +kernel
  have hpairs : stage2Assign twoMatch.vehicles.length (slotAll (driving (twoMatch.onto idleTick))) (twoMatch.edges idleTick ∅) =
      [(0, 1), (1, 0)] := by decide +kernel
  have hperm := hg.pairs
  rw [hpairs, hkept] at hperm
  have hslots : (List.range [0, 1].length).map (fun s => ((g s).1, [0, 1].getD s 0)) = [((g 0).1, 0), ((g 1).1, 1)] := rfl
  rw [hslots] at hperm
  have hleft : (1, 0) ∈ [((g 0).1, 0), ((g 1).1, 1)] := hperm.mem_iff.mp (by simp)
  have hright : (0, 1) ∈ [((g 0).1, 0), ((g 1).1, 1)] := hperm.mem_iff.mp (by simp)
  have h0 : 1 = (g 0).1 := by simpa using hleft
  have h1 : 0 = (g 1).1 := by simpa using hright
  have hvehicles : twoMatch.vehicles = [⟨"TT2", (2, 1), 0, .freeTos⟩, ⟨"TT1", (1, 1), 0, .freeTos⟩] := by decide +kernel
  have hworks : twoMatch.works = [(twoMatch.work[0], ((1, 0) : ℚ × ℚ)), (twoMatch.work[1], (2, 0))] := by decide +kernel
  have hlt : 0 < (twoMatch.kept idleTick ∅).length ∧ 1 < (twoMatch.kept idleTick ∅).length := by
    rw [hkept]
    decide
  have hwork : twoMatch.workOf idleTick ((twoMatch.kept idleTick ∅).getD 0 0) = some (twoMatch.work[0], ((1, 0) : ℚ × ℚ)) ∧
      twoMatch.workOf idleTick ((twoMatch.kept idleTick ∅).getD 1 0) = some (twoMatch.work[1], ((2, 0) : ℚ × ℚ)) := by
    decide +kernel
  have htruck : twoMatch.vehicles[(g 0).1]? = some ⟨"TT1", (1, 1), 0, .freeTos⟩ ∧
      twoMatch.vehicles[(g 1).1]? = some ⟨"TT2", (2, 1), 0, .freeTos⟩ := by
    rw [← h0, ← h1, hvehicles]
    exact ⟨rfl, rfl⟩
  have hpays := switch_pays hg hlt.1 hlt.2 hwork.1 hwork.2 htruck.1 htruck.2 (by decide +kernel) (by decide +kernel)
    ⟨by decide +kernel, by decide +kernel, by decide +kernel⟩ ⟨by decide +kernel, by decide +kernel, by decide +kernel⟩
  exact ⟨_, _, _, _, hvehicles, hworks, hpays.2⟩

end MatchIn

end TtAiops.Dispatch
