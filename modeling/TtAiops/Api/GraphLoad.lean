import TtAiops.Api.Roadgraph
import TtAiops.Lib.Nearest

/-!
# Loading the road graph (`RoadGraph::load`) and snapping to it

The tables are read in one snapshot, at most one row more than the cap. The arrays are as long as the largest id asks for, so
ids that are too sparse or too large are refused; the rows of the edges between known ids become edges, two of them for a lane
that is not one-way.

* `NodeRow`, `EdgeRow`, `load` : the tables and the graph made of them;
* `snapR` : the nearest node, over the nodes that are not gaps;
* `load_spec` : **what is refused, and a graph has exactly the nodes and edges of its rows, within the caps**;
* `snapR_eq_some_iff`, `snapR_mono` : the snap is the first nearest node within the distance, and a wider distance keeps it;
* `raw_searches_agree` : **on a loaded graph the searches agree at any two coordinates**, though `route` snaps its source to a
  narrower distance.

Coordinates, lengths and times are exact; the cosine is a given function.
-/

namespace TtAiops.Api
open TtAiops.Lib TtAiops.Lib.Dijkstra

/-- A row of `road_node`. -/
structure NodeRow where
  id : ℤ
  lat : ℚ
  lon : ℚ

/-- A row of `road_edge`. -/
structure EdgeRow where
  fromId : ℤ
  toId : ℤ
  lenM : ℚ
  speedKmh : Option ℚ
  oneway : Bool

def FALLBACK_KMH : ℚ := 228 / 10

def ROW_MAX : ℕ := 200000

def ID_SLACK : ℕ := 4

def ALLOC_MAX_BYTES : ℕ := 16 * 1024 * 1024

/-- The square of the distance of `snap_r`, on a plane around the coordinate. -/
def snapD2 {n : ℕ} (cosDeg : ℚ → ℚ) (nodes : Fin n → ℚ × ℚ) (lat lon : ℚ) (i : Fin n) : ℚ :=
  let mlat := 111320
  let mlon := 111320 * cosDeg lat
  let dn := ((nodes i).1 - lat) * mlat
  let de := ((nodes i).2 - lon) * mlon
  dn * dn + de * de

/-- `snap_r`: the loop over the nodes by their square distances; a node at latitude 0 is a gap. -/
def snapR {n : ℕ} (cosDeg : ℚ → ℚ) (nodes : Fin n → ℚ × ℚ) (lat lon maxM : ℚ) : Option (Fin n) :=
  scan (snapD2 cosDeg nodes lat lon) (maxM * maxM) ((List.finRange n).filter fun i => (nodes i).1 ≠ 0)

def edgeTime (r : EdgeRow) : ℚ := r.lenM / ((r.speedKmh.filter fun s => 1 < s).getD FALLBACK_KMH / (36 / 10))

def maxId (rows : List NodeRow) : ℕ := (rows.foldl (fun (m : ℤ) r => max m r.id) 0).toNat

/-- The loop that writes the coordinates of the nodes. -/
def nodesOf (n : ℕ) (rows : List NodeRow) : Fin n → ℚ × ℚ :=
  rows.foldl (fun nodes r => fun i => if (i : ℤ) = r.id then (r.lat, r.lon) else nodes i) fun _ => (0, 0)

/-- A turn of the loop over the rows of the edges; ids out of range are skipped. -/
def adjStep {n : ℕ} (adj : Fin n → List (Edge (Fin n) ℚ ℚ)) (r : EdgeRow) : Fin n → List (Edge (Fin n) ℚ ℚ) :=
  if h : 0 ≤ r.fromId ∧ 0 ≤ r.toId ∧ r.fromId < n ∧ r.toId < n then
    let u : Fin n := ⟨r.fromId.toNat, by omega⟩
    let v : Fin n := ⟨r.toId.toNat, by omega⟩
    let there := Function.update adj u (adj u ++ [⟨v, edgeTime r, r.lenM⟩])
    if r.oneway then there else Function.update there v (there v ++ [⟨u, edgeTime r, r.lenM⟩])
  else adj

/-- The order of `ORDER BY id LIMIT`. -/
def fetchNodes (table : List NodeRow) : List NodeRow :=
  (table.insertionSort fun a b => a.id ≤ b.id).take (ROW_MAX + 1)

/-- `load`: the tables of the snapshot, if it can be read. -/
def load (cosDeg : ℚ → ℚ) (snapshot : Option (List NodeRow × List EdgeRow)) : Option RoadGraph :=
  snapshot.bind fun tables =>
    let nodesRaw := fetchNodes tables.1
    let edges := tables.2.take (ROW_MAX + 1)
    if nodesRaw = [] then none
    else if ROW_MAX < nodesRaw.length ∨ ROW_MAX < edges.length then none
    else
      let n := maxId nodesRaw + 1
      if max (nodesRaw.length * ID_SLACK) (2 ^ 16) < n ∨ ALLOC_MAX_BYTES < n * 40 then none
      else
        let nodes := nodesOf n nodesRaw
        some ⟨n, nodes, edges.foldl adjStep fun _ => [], snapR cosDeg nodes⟩

/-! ## The edges -/

section Edges

variable {n : ℕ} {adj : Fin n → List (Edge (Fin n) ℚ ℚ)} {r : EdgeRow} {u : Fin n} {e : Edge (Fin n) ℚ ℚ}

/-- The row makes an edge out of `u`: there, or back if the lane is not one-way. -/
def Makes (r : EdgeRow) (u : Fin n) (e : Edge (Fin n) ℚ ℚ) : Prop :=
  ((u : ℤ) = r.fromId ∧ (e.dest : ℤ) = r.toId ∨ r.oneway = false ∧ (u : ℤ) = r.toId ∧ (e.dest : ℤ) = r.fromId) ∧
    e.time = edgeTime r ∧ e.dist = r.lenM

theorem mem_update_append {a : Fin n} {x : Edge (Fin n) ℚ ℚ} :
    e ∈ Function.update adj a (adj a ++ [x]) u ↔ e ∈ adj u ∨ u = a ∧ e = x := by
  by_cases h : u = a
  · subst h
    simp
  · simp [h]

theorem mem_adjStep : e ∈ adjStep adj r u ↔ e ∈ adj u ∨ Makes r u e := by
  unfold adjStep Makes
  obtain ⟨dest, time, dist⟩ := e
  split_ifs with h honeway
  · rw [mem_update_append, Edge.mk.injEq, Fin.ext_iff, Fin.ext_iff, honeway]
    refine or_congr Iff.rfl ⟨?_, ?_⟩
    · rintro ⟨hu, hv, hrest⟩
      exact ⟨Or.inl (by dsimp only at hu hv ⊢; omega), hrest⟩
    · rintro ⟨⟨hu, hv⟩ | ⟨hback, -⟩, hrest⟩
      · exact ⟨by dsimp only at hu ⊢; omega, by dsimp only at hv ⊢; omega, hrest⟩
      · exact absurd hback (by simp)
  · rw [mem_update_append, mem_update_append, or_assoc, Edge.mk.injEq, Edge.mk.injEq, Fin.ext_iff, Fin.ext_iff, Fin.ext_iff,
      Fin.ext_iff]
    refine or_congr Iff.rfl ⟨?_, ?_⟩
    · rintro (⟨hu, hv, hrest⟩ | ⟨hu, hv, hrest⟩)
      · exact ⟨Or.inl (by dsimp only at hu hv ⊢; omega), hrest⟩
      · exact ⟨Or.inr ⟨by simpa using honeway, by dsimp only at hu hv ⊢; omega⟩, hrest⟩
    · rintro ⟨⟨hu, hv⟩ | ⟨-, hu, hv⟩, hrest⟩
      · exact Or.inl ⟨by dsimp only at hu ⊢; omega, by dsimp only at hv ⊢; omega, hrest⟩
      · exact Or.inr ⟨by dsimp only at hu ⊢; omega, by dsimp only at hv ⊢; omega, hrest⟩
  · have hu := u.isLt
    have hd := dest.isLt
    refine ⟨Or.inl, fun hx => hx.resolve_right ?_⟩
    rintro ⟨⟨h1, h2⟩ | ⟨-, h1, h2⟩, -⟩ <;> dsimp only at h1 h2 <;> exact h (by omega)

theorem mem_foldl_adjStep {rows : List EdgeRow} : e ∈ rows.foldl adjStep adj u ↔ e ∈ adj u ∨ ∃ r ∈ rows, Makes r u e := by
  induction rows generalizing adj with
  | nil => simp
  | cons r rows ih =>
    rw [List.foldl_cons, ih, mem_adjStep, or_assoc, List.exists_mem_cons_iff]

theorem sum_length_update {a : Fin n} {x : Edge (Fin n) ℚ ℚ} :
    ∑ v, (Function.update adj a (adj a ++ [x]) v).length = ∑ v, (adj v).length + 1 := by
  have hlength : ∀ v, (Function.update adj a (adj a ++ [x]) v).length = (adj v).length + if v = a then 1 else 0 := by
    intro v
    by_cases h : v = a
    · subst h
      simp
    · simp [h]
  simp_rw [hlength]
  rw [Finset.sum_add_distrib, Finset.sum_ite_eq' Finset.univ a, if_pos (Finset.mem_univ a)]

theorem sum_length_foldl {rows : List EdgeRow} :
    ∑ v, (rows.foldl adjStep adj v).length ≤ ∑ v, (adj v).length + 2 * rows.length := by
  induction rows generalizing adj with
  | nil => simp
  | cons r rows ih =>
    have hstep : ∑ v, (adjStep adj r v).length ≤ ∑ v, (adj v).length + 2 := by
      unfold adjStep
      split_ifs
      · rw [sum_length_update]
        omega
      · rw [sum_length_update, sum_length_update]
      · omega
    rw [List.foldl_cons, List.length_cons]
    exact ih.trans (by omega)

/-- Speeds are positive, so an edge of a length that is not negative takes no negative time. -/
theorem edgeTime_nonneg (h : 0 ≤ r.lenM) : 0 ≤ edgeTime r := by
  have hspeed : 0 < (r.speedKmh.filter fun s => 1 < s).getD FALLBACK_KMH := by
    cases hs : r.speedKmh.filter fun s => 1 < s with
    | none => norm_num [FALLBACK_KMH]
    | some s =>
      have h1 : 1 < s := of_decide_eq_true (Option.filter_eq_some_iff.mp hs).2
      exact one_pos.trans h1
  exact div_nonneg h (div_pos hspeed (by norm_num)).le

end Edges

/-! ## The nodes -/

theorem le_maxId {rows : List NodeRow} : ∀ r ∈ rows, r.id ≤ maxId rows := by
  have hfold : ∀ (l : List NodeRow) (m : ℤ), m ≤ l.foldl (fun (m : ℤ) r => max m r.id) m ∧
      ∀ r ∈ l, r.id ≤ l.foldl (fun (m : ℤ) r => max m r.id) m := by
    intro l
    induction l with
    | nil => exact fun m => ⟨le_rfl, fun r hr => absurd hr List.not_mem_nil⟩
    | cons x l ih =>
      intro m
      obtain ⟨hm, hl⟩ := ih (max m x.id)
      refine ⟨(le_max_left _ _).trans hm, fun r hr => ?_⟩
      rcases List.mem_cons.mp hr with rfl | hr
      · exact (le_max_right _ _).trans hm
      · exact hl r hr
  intro r hr
  exact ((hfold rows 0).2 r hr).trans (Int.self_le_toNat _)

theorem nodesOf_eq {n : ℕ} {rows : List NodeRow} (hids : (rows.map NodeRow.id).Nodup) {i : Fin n} :
    (∀ r ∈ rows, (i : ℤ) = r.id → nodesOf n rows i = (r.lat, r.lon)) ∧
      ((∀ r ∈ rows, (i : ℤ) ≠ r.id) → nodesOf n rows i = (0, 0)) := by
  unfold nodesOf
  induction rows using List.reverseRecOn with
  | nil => exact ⟨fun r hr => absurd hr List.not_mem_nil, fun _ => rfl⟩
  | append_singleton rows x ih =>
    rw [List.map_append, List.nodup_append] at hids
    obtain ⟨hids, -, hnew⟩ := hids
    obtain ⟨hrow, hgap⟩ := ih hids
    rw [List.foldl_append, List.foldl_cons, List.foldl_nil]
    refine ⟨fun r hr hi => ?_, fun hno => ?_⟩
    · rcases List.mem_append.mp hr with hr | hr
      · rw [if_neg fun hx => hnew r.id (List.mem_map_of_mem hr) x.id (by simp) (hi.symm.trans hx)]
        exact hrow r hr hi
      · obtain rfl := List.mem_singleton.mp hr
        rw [if_pos hi]
    · rw [if_neg (hno x (by simp))]
      exact hgap fun r hr => hno r (List.mem_append_left _ hr)

/-! ## What is loaded -/

/-- The graph is that of the tables: within the caps, a place for every id, the edges of the rows, and no negative times. -/
structure Loaded (cosDeg : ℚ → ℚ) (tables : List NodeRow × List EdgeRow) (g : RoadGraph) : Prop where
  rows : tables.1.length ≤ ROW_MAX ∧ tables.2.length ≤ ROW_MAX
  size : g.n * 40 ≤ ALLOC_MAX_BYTES ∧ g.n ≤ max (tables.1.length * ID_SLACK) (2 ^ 16)
  ids : ∀ r ∈ tables.1, r.id < g.n
  nodes : (tables.1.map NodeRow.id).Nodup → ∀ i : Fin g.n, (∀ r ∈ tables.1, (i : ℤ) = r.id → g.nodes i = (r.lat, r.lon)) ∧
    ((∀ r ∈ tables.1, (i : ℤ) ≠ r.id) → g.nodes i = (0, 0))
  edges : ∀ u e, e ∈ g.adj u ↔ ∃ r ∈ tables.2, Makes r u e
  count : g.nEdges ≤ 2 * tables.2.length
  snaps : g.snapR = snapR cosDeg g.nodes
  nonneg : (∀ r ∈ tables.2, 0 ≤ r.lenM) → ∀ u, ∀ e ∈ g.adj u, 0 ≤ e.time

def Refused (tables : List NodeRow × List EdgeRow) : Prop :=
  tables.1 = [] ∨ ROW_MAX < tables.1.length ∨ ROW_MAX < tables.2.length ∨
    max (tables.1.length * ID_SLACK) (2 ^ 16) < maxId tables.1 + 1 ∨ ALLOC_MAX_BYTES < (maxId tables.1 + 1) * 40

theorem maxId_perm {l l' : List NodeRow} (h : l.Perm l') : maxId l = maxId l' := by
  unfold maxId
  congr 1
  exact h.foldl_eq' (fun x _ y _ m => by omega) 0

/-- The graph of the tables that are not refused. -/
def graphOf (cosDeg : ℚ → ℚ) (tables : List NodeRow × List EdgeRow) : RoadGraph where
  n := maxId (fetchNodes tables.1) + 1
  nodes := nodesOf _ (fetchNodes tables.1)
  adj := (tables.2.take (ROW_MAX + 1)).foldl adjStep fun _ => []
  snapR := snapR cosDeg (nodesOf _ (fetchNodes tables.1))

section Load

variable {cosDeg : ℚ → ℚ} {tables : List NodeRow × List EdgeRow}

theorem length_fetchNodes (table : List NodeRow) : (fetchNodes table).length = min (ROW_MAX + 1) table.length := by
  rw [fetchNodes, List.length_take, List.length_insertionSort]

theorem fetchNodes_perm {table : List NodeRow} (h : table.length ≤ ROW_MAX) : (fetchNodes table).Perm table := by
  unfold fetchNodes
  rw [List.take_of_length_le (by rw [List.length_insertionSort]; omega)]
  exact List.perm_insertionSort _ _

/-- The conditions of `load` on what it fetched are those on the tables. -/
theorem load_cases (cosDeg : ℚ → ℚ) (tables : List NodeRow × List EdgeRow) :
    (Refused tables ∧ load cosDeg (some tables) = none) ∨
      (¬ Refused tables ∧ load cosDeg (some tables) = some (graphOf cosDeg tables)) := by
  have hlength := length_fetchNodes tables.1
  have hempty : fetchNodes tables.1 = [] ↔ tables.1 = [] := by
    rw [← List.length_eq_zero_iff, ← List.length_eq_zero_iff, hlength]
    omega
  have hnodes : ROW_MAX < (fetchNodes tables.1).length ↔ ROW_MAX < tables.1.length := by
    rw [hlength]
    omega
  have hedges : ROW_MAX < (tables.2.take (ROW_MAX + 1)).length ↔ ROW_MAX < tables.2.length := by
    rw [List.length_take]
    omega
  unfold load Refused
  rw [Option.bind_some]
  dsimp only
  by_cases hnil : tables.1 = []
  · rw [if_pos (hempty.mpr hnil)]
    exact Or.inl ⟨Or.inl hnil, rfl⟩
  rw [if_neg (mt hempty.mp hnil)]
  by_cases hcaps : ROW_MAX < tables.1.length ∨ ROW_MAX < tables.2.length
  · rw [if_pos (hcaps.imp hnodes.mpr hedges.mpr)]
    exact Or.inl ⟨Or.inr (hcaps.elim Or.inl fun h => Or.inr (Or.inl h)), rfl⟩
  rw [if_neg (mt (Or.imp hnodes.mp hedges.mp) hcaps)]
  obtain ⟨hrows, hedgerows⟩ := not_or.mp hcaps
  have hperm := fetchNodes_perm (not_lt.mp hrows)
  by_cases hsparse : max (tables.1.length * ID_SLACK) (2 ^ 16) < maxId tables.1 + 1 ∨
      ALLOC_MAX_BYTES < (maxId tables.1 + 1) * 40
  · rw [if_pos (by rwa [hperm.length_eq, maxId_perm hperm])]
    exact Or.inl ⟨Or.inr (Or.inr (Or.inr hsparse)), rfl⟩
  · rw [if_neg (by rwa [hperm.length_eq, maxId_perm hperm])]
    refine Or.inr ⟨?_, rfl⟩
    rintro (h | h | h | h)
    · exact hnil h
    · exact hrows h
    · exact hedgerows h
    · exact hsparse h

theorem loaded_graphOf (h : ¬ Refused tables) : Loaded cosDeg tables (graphOf cosDeg tables) := by
  obtain ⟨-, h⟩ := not_or.mp h
  obtain ⟨hrows, h⟩ := not_or.mp h
  obtain ⟨hedgerows, h⟩ := not_or.mp h
  obtain ⟨hslack, hbytes⟩ := not_or.mp h
  have hperm := fetchNodes_perm (not_lt.mp hrows)
  have hn : (graphOf cosDeg tables).n = maxId tables.1 + 1 := by rw [graphOf, maxId_perm hperm]
  have hadj : (graphOf cosDeg tables).adj = tables.2.foldl adjStep fun _ => [] := by
    rw [graphOf, List.take_of_length_le (by omega)]
  have hmem : ∀ u e, e ∈ (graphOf cosDeg tables).adj u ↔ ∃ r ∈ tables.2, Makes r u e := by
    intro u e
    rw [hadj]
    exact mem_foldl_adjStep.trans (by simp)
  refine ⟨⟨not_lt.mp hrows, not_lt.mp hedgerows⟩, ⟨by omega, by omega⟩, fun r hr => ?_, fun hids i => ?_, hmem, ?_, rfl,
    fun hlen u e he => ?_⟩
  · have := le_maxId r hr
    omega
  · have h := nodesOf_eq ((hperm.map NodeRow.id).nodup_iff.mpr hids) (i := i)
    exact ⟨fun r hr => h.1 r (hperm.mem_iff.mpr hr), fun hno => h.2 fun r hr => hno r (hperm.mem_iff.mp hr)⟩
  · unfold RoadGraph.nEdges
    rw [hadj]
    exact sum_length_foldl.trans (by simp)
  · obtain ⟨r, hr, -, htime, -⟩ := (hmem u e).mp he
    rw [htime]
    exact edgeTime_nonneg (hlen r hr)

theorem loaded_of_load {g : RoadGraph} (hload : load cosDeg (some tables) = some g) : Loaded cosDeg tables g := by
  rcases load_cases cosDeg tables with ⟨-, h⟩ | ⟨hok, h⟩
  · exact absurd (h.symm.trans hload) (by simp)
  · obtain rfl := Option.some_inj.mp (h.symm.trans hload)
    exact loaded_graphOf hok

/-- **What `load` makes of the tables**: it refuses exactly those beyond the caps, and a graph is that of its tables. -/
theorem load_spec (cosDeg : ℚ → ℚ) (tables : List NodeRow × List EdgeRow) :
    (load cosDeg (some tables) = none ↔ Refused tables) ∧ ∀ g, load cosDeg (some tables) = some g → Loaded cosDeg tables g := by
  refine ⟨?_, fun g => loaded_of_load⟩
  rcases load_cases cosDeg tables with ⟨hno, h⟩ | ⟨hok, h⟩
  · exact iff_of_true h hno
  · exact iff_of_false (by rw [h]; simp) hok

end Load

/-! ## The snap -/

section Snap

variable {n : ℕ} {cosDeg : ℚ → ℚ} {nodes : Fin n → ℚ × ℚ} {lat lon m m' : ℚ} {i : Fin n}

/-- The snap is nearer than the distance, and nearest to the coordinate among the nodes that are not gaps, the first of them. -/
theorem snapR_eq_some_iff : snapR cosDeg nodes lat lon m = some i ↔
    Nearest (snapD2 cosDeg nodes lat lon) (m * m) ((List.finRange n).filter fun j => (nodes j).1 ≠ 0) i :=
  scan_eq_some_iff

theorem snapR_mono (hm : 0 ≤ m) (hle : m ≤ m') (h : snapR cosDeg nodes lat lon m = some i) :
    snapR cosDeg nodes lat lon m' = some i :=
  scan_mono (mul_self_le_mul_self hm hle) h

end Snap

/-! ## The searches at raw coordinates -/

section Raw
open RoadGraph

variable {g : RoadGraph}

/-- The time of the field at the node that the coordinate is snapped to. -/
def fieldTime (g : RoadGraph) (field : Option (RouteField g.n)) (blat blon : ℚ) : Option ℚ :=
  field.bind fun f => (g.snap blat blon).bind f.timeTo

/-- **The searches on a loaded graph**: at any two coordinates and with enough fuel they all return. `route` answers where the
source is within its narrower distance and the field has a time, and answers that time; `route_path` answers exactly where
the field has a time, with a way that takes it. -/
theorem raw_searches_agree {cosDeg : ℚ → ℚ} {tables : List NodeRow × List EdgeRow} (hload : load cosDeg (some tables) = some g)
    (hlen : ∀ r ∈ tables.2, 0 ≤ r.lenM) (Q : MinHeap ℚ (Fin g.n)) {fuel : ℕ} (hfuel : 2 * tables.2.length + g.n + 1 < fuel)
    (alat alon blat blon : ℚ) : ∃ field r p, g.fieldFrom Q fuel alat alon = some field ∧ g.route Q fuel alat alon blat blon = some r ∧
      g.routePath Q fuel alat alon blat blon = some p ∧
      r.map Route.timeS = (g.snap alat alon).bind (fun _ => fieldTime g field blat blon) ∧
      (p = none ↔ fieldTime g field blat blon = none) ∧
      ∀ path, p = some path → ∃ s t es, ShortestRoute g s t path es ∧
        fieldTime g field blat blon = some (es.map Edge.time).sum := by
  have hloaded := loaded_of_load hload
  have hnonneg := hloaded.nonneg hlen
  have hcount := hloaded.count
  have hwide : ∀ s, g.snap alat alon = some s → g.snapR alat alon SNAP_SRC_MAX_M = some s := by
    intro s hs
    unfold snap at hs
    rw [hloaded.snaps] at hs ⊢
    exact snapR_mono (by norm_num [SNAP_MAX_M]) (by norm_num [SNAP_MAX_M, SNAP_SRC_MAX_M]) hs
  cases hsrc : g.snapR alat alon SNAP_SRC_MAX_M with
  | none =>
    have hs : g.snap alat alon = none := by
      by_contra hne
      obtain ⟨s, hs⟩ := Option.ne_none_iff_exists'.mp hne
      exact absurd ((hwide s hs).symm.trans hsrc) (by simp)
    exact ⟨none, none, none, by simp [fieldFrom, hsrc], by simp [route, hs], by simp [routePath, hsrc], by simp [hs],
      by simp [fieldTime], by simp⟩
  | some s =>
    obtain ⟨f, hfield, htimes⟩ := field_spec (Q := Q) hnonneg (show g.nEdges + 1 < fuel by omega) hsrc
    cases ht : g.snap blat blon with
    | none =>
      exact ⟨some f, none, none, hfield, by unfold route; rw [ht]; cases g.snap alat alon <;> rfl,
        by unfold routePath; rw [hsrc, ht], by simp [fieldTime, ht], by simp [fieldTime, ht], by simp⟩
    | some t =>
      have htime : fieldTime g (some f) blat blon = f.timeTo t := by simp [fieldTime, ht]
      obtain ⟨p, hpath, hpnone, hpsome⟩ := routePath_spec (Q := Q) hnonneg (show g.nEdges + g.n + 1 < fuel by omega) hsrc ht
      obtain ⟨r, hroute, hr⟩ : ∃ r, g.route Q fuel alat alon blat blon = some r ∧
          r.map Route.timeS = (g.snap alat alon).bind fun _ => f.timeTo t := by
        cases hs : g.snap alat alon with
        | none => exact ⟨none, by simp [route, hs], rfl⟩
        | some s' =>
          obtain rfl : s' = s := Option.some_inj.mp ((hwide s' hs).symm.trans hsrc)
          obtain ⟨r, hroute, hrnone, hrsome⟩ := route_spec (Q := Q) hnonneg (show g.nEdges + 1 < fuel by omega) hs ht
          refine ⟨r, hroute, ?_⟩
          rw [Option.bind_some]
          by_cases hreach : Reachable g s' t
          · obtain ⟨route, rfl, hfastest⟩ := hrsome hreach
            obtain ⟨τ, d, hτ, hfastest'⟩ := (htimes t).2 hreach
            rw [hτ, hfastest'.unique hfastest, Option.map_some]
          · rw [hrnone hreach, (htimes t).1 hreach, Option.map_none]
      refine ⟨some f, r, p, hfield, hroute, hpath, hr.trans (by rw [htime]), ?_, ?_⟩ <;> rw [htime]
      · by_cases hreach : Reachable g s t
        · obtain ⟨path, es, rfl, -⟩ := hpsome hreach
          obtain ⟨τ, d, hτ, -⟩ := (htimes t).2 hreach
          simp [hτ]
        · exact iff_of_true (hpnone hreach) ((htimes t).1 hreach)
      · rintro path rfl
        have hreach : Reachable g s t := not_not.mp fun hno => absurd (hpnone hno) (by simp)
        obtain ⟨path', es, hpath', hshort⟩ := hpsome hreach
        obtain rfl := Option.some_inj.mp hpath'
        obtain ⟨τ, d, hτ, hfastest⟩ := (htimes t).2 hreach
        exact ⟨s, t, es, hshort, by rw [hτ, hfastest.unique hshort.fastest]⟩

/-- Two nodes about a hundred metres apart, and a lane from the first to the second. -/
def laneTables : List NodeRow × List EdgeRow :=
  ([⟨1, 1, 103⟩, ⟨2, 1001 / 1000, 103⟩], [⟨1, 2, 111, some 20, true⟩])

example : ((load (fun _ => 1) (some laneTables)).map fun g => (g.n, g.nEdges)) = some (3, 1) := by decide +kernel

/-- On the graph loaded from it, the searches agree from the first node to the second. -/
theorem raw_searches_agree_lane : ∃ g, load (fun _ => 1) (some laneTables) = some g ∧ ∃ field r,
    g.fieldFrom (sortedHeap ℚ (Fin g.n)) (g.n + 4) 1 103 = some field ∧
    g.route (sortedHeap ℚ (Fin g.n)) (g.n + 4) 1 103 (1001 / 1000) 103 = some r ∧
    r.map Route.timeS = (g.snap 1 103).bind (fun _ => fieldTime g field (1001 / 1000) 103) := by
  obtain ⟨g, hg⟩ : ∃ g, load (fun _ => 1) (some laneTables) = some g := by
    rw [← Option.isSome_iff_exists]
    decide +kernel
  have hfuel : 2 * laneTables.2.length + g.n + 1 < g.n + 4 := by
    simp only [laneTables, List.length_singleton]
    omega
  obtain ⟨field, r, -, hfield, hroute, -, htime, -⟩ :=
    raw_searches_agree hg (by simp [laneTables]) (sortedHeap ℚ (Fin g.n)) hfuel 1 103 (1001 / 1000) 103
  exact ⟨g, hg, field, r, hfield, hroute, htime⟩

end Raw

end TtAiops.Api
