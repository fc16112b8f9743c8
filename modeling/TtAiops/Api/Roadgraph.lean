import TtAiops.Lib.Dijkstra

/-!
# The road graph (`roadgraph.rs`)

Three searches by time, over one loop that stops at a node or does not, and labels the nodes with what the function keeps
beside the time: nothing, the length, the length and the node before. Times and lengths are exact; coordinates are snapped
to the nearest node by a function that is given.

* `RoadGraph`, `fieldFrom`, `route`, `routePath` : the graph and the searches; they are given fuel, and `none` says that it is
  used up;
* `walksBack` : the chain of the nodes before ends at the source;
* `field_spec`, `route_spec`, `routePath_spec` : what each of the searches returns;
* `searches_agree` : **with enough fuel all three find the same targets, and the least time to them**;
* `routePath_real` : **what `route_path` answers is a way over the edges that takes the least time**.
-/

namespace TtAiops.Api
open TtAiops.Lib.Dijkstra

/-- `RoadGraph`: the coordinates of the nodes, the edges out of a node with their time and length, and the nearest node to
a coordinate within so many metres. -/
structure RoadGraph where
  n : ℕ
  nodes : Fin n → ℚ × ℚ
  adj : Fin n → List (Edge (Fin n) ℚ ℚ)
  snapR : ℚ → ℚ → ℚ → Option (Fin n)

def SNAP_MAX_M : ℚ := 60

def SNAP_SRC_MAX_M : ℚ := 150

structure Route where
  timeS : ℚ
  distM : ℚ

structure RoutePath where
  pts : List (ℚ × ℚ)
  distM : ℚ
  deriving DecidableEq

structure RouteField (n : ℕ) where
  timeS : Fin n → WithTop ℚ

def RouteField.timeTo {n : ℕ} (f : RouteField n) (node : Fin n) : Option ℚ := f.timeS node

namespace RoadGraph

variable (g : RoadGraph) (Q : MinHeap ℚ (Fin g.n)) (fuel : ℕ)

def nEdges : ℕ := ∑ v, (g.adj v).length

def snap (lat lon : ℚ) : Option (Fin g.n) := g.snapR lat lon SNAP_MAX_M

def fieldFrom (lat lon : ℚ) : Option (Option (RouteField g.n)) :=
  match g.snapR lat lon SNAP_SRC_MAX_M with
  | none => some none
  | some s => (search g.adj (fun _ _ _ => ()) (fun _ => false) fuel (start Q s ())).map fun r => some ⟨r.2.best⟩

def route (alat alon blat blon : ℚ) : Option (Option Route) :=
  match g.snap alat alon, g.snap blat blon with
  | some s, some t =>
    if s = t then some (some ⟨0, 0⟩)
    else (search g.adj (fun m _ em => m + em) (fun v => v = t) fuel (start Q s (0 : ℚ))).map fun r =>
      r.1.map fun e => ⟨e.1, r.2.label e.2⟩
  | _, _ => some none

/-- The nodes from `cur` back to `s`, behind those in `pts`. -/
def chain (prev : Fin g.n → Option (Fin g.n)) (s : Fin g.n) : ℕ → Fin g.n → List (ℚ × ℚ) → Option (Option (List (ℚ × ℚ)))
  | 0, _, _ => none
  | fuel + 1, cur, pts =>
    if cur = s then some (some (pts ++ [g.nodes cur]))
    else
      match prev cur with
      | none => some none
      | some u => chain prev s fuel u (pts ++ [g.nodes cur])

def routePath (alat alon blat blon : ℚ) : Option (Option RoutePath) :=
  match g.snapR alat alon SNAP_SRC_MAX_M, g.snap blat blon with
  | some s, some t =>
    if s = t then some (some ⟨[g.nodes s], 0⟩)
    else (search g.adj (fun l v em => (l.1 + em, some v)) (fun v => v = t) fuel (start Q s ((0 : ℚ), none))).bind fun r =>
      match r.1 with
      | none => some none
      | some _ => (g.chain (fun v => (r.2.label v).2) s fuel t []).map fun pts =>
        pts.map fun pts => ⟨pts.reverse, (r.2.label t).1⟩
  | _, _ => some none

/-! ## What the searches return -/

variable {g Q fuel} {s t : Fin g.n}

def Reachable (g : RoadGraph) (s t : Fin g.n) : Prop := ∃ (τ d : ℚ), Walk g.adj s t τ d

/-- `τ` is the least time from the source to the node, and `d` is the length of a walk that takes it. -/
structure Fastest (g : RoadGraph) (s t : Fin g.n) (τ d : ℚ) : Prop where
  walk : Walk g.adj s t τ d
  least : ∀ τ' d', Walk g.adj s t τ' d' → τ ≤ τ'

theorem Fastest.unique {τ τ' d d' : ℚ} (h : Fastest g s t τ d) (h' : Fastest g s t τ' d') : τ = τ' :=
  le_antisymm (h.least _ _ h'.walk) (h'.least _ _ h.walk)

theorem walk_nonneg (hnonneg : ∀ v, ∀ e ∈ g.adj v, 0 ≤ e.time) {τ d : ℚ} (hwalk : Walk g.adj s t τ d) : 0 ≤ τ := by
  induction hwalk with
  | nil => exact le_rfl
  | @snoc v τ d e _ he ih => exact add_nonneg ih (hnonneg v e he)

theorem fastest_self (hnonneg : ∀ v, ∀ e ∈ g.adj v, 0 ≤ e.time) : Fastest g s s 0 0 :=
  ⟨Walk.nil, fun _ _ hwalk => walk_nonneg hnonneg hwalk⟩

/-- **The whole field**: with enough fuel, the least time for every node that can be reached, and no others. -/
theorem field_spec (hnonneg : ∀ v, ∀ e ∈ g.adj v, 0 ≤ e.time) (hfuel : g.nEdges + 1 < fuel) {lat lon : ℚ}
    (hs : g.snapR lat lon SNAP_SRC_MAX_M = some s) : ∃ f, g.fieldFrom Q fuel lat lon = some (some f) ∧
      ∀ t, (¬ Reachable g s t → f.timeTo t = none) ∧
        (Reachable g s t → ∃ τ d, f.timeTo t = some τ ∧ Fastest g s t τ d) := by
  have hstart := start_inv (Q := Q) g.adj (fun _ _ _ => ()) (fun _ => false) s ()
  obtain ⟨S, c, st, hinv, hend⟩ := search_some hnonneg hstart (by
    rw [owed_start, add_comm]
    exact hfuel)
  rcases hend with ⟨hempty, hsearch⟩ | ⟨x, v, heap, -, hstop, -⟩
  · refine ⟨⟨st.best⟩, ?_, fun t => ⟨fun hno => ?_, ?_⟩⟩
    · unfold fieldFrom
      rw [hs]
      dsimp only
      rw [hsearch]
      rfl
    · show st.best t = ⊤
      by_contra htop
      obtain ⟨τ, d, -, -, hwalk⟩ := hinv.walk (R := fun _ _ => True) trivial (fun _ _ _ _ _ _ => trivial) htop
      exact hno ⟨τ, d, hwalk⟩
    · intro ⟨τ', d', hwalk'⟩
      have htop : st.best t ≠ ⊤ :=
        ne_top_of_le_ne_top WithTop.coe_ne_top (search_exhausted hnonneg hinv hempty hwalk').2
      obtain ⟨τ, d, hbest, -, hwalk⟩ := hinv.walk (R := fun _ _ => True) trivial (fun _ _ _ _ _ _ => trivial) htop
      refine ⟨τ, d, hbest, hwalk, fun τ'' d'' hwalk'' => ?_⟩
      have hle := (search_exhausted hnonneg hinv hempty hwalk'').2
      rw [hbest] at hle
      exact WithTop.coe_le_coe.mp hle
  · exact absurd hstop Bool.false_ne_true

/-- **The loop of a search for one target**, whatever it labels the nodes with: with enough fuel it stops at the target with
the least time, or there is no walk to it. -/
theorem search_to {L : Type} (ext : L → Fin g.n → ℚ → L) (l : L) {R : L → ℚ → Prop}
    (hnonneg : ∀ v, ∀ e ∈ g.adj v, 0 ≤ e.time) (hfuel : g.nEdges + 1 < fuel) (hsource : R l 0)
    (hstep : ∀ lab u d, ∀ e ∈ g.adj u, R lab d → R (ext lab u e.dist) (d + e.dist)) (s t : Fin g.n) :
    ∃ (r : Option (ℚ × Fin g.n)) (S : List (Fin g.n)) (c : ℚ) (st₀ : State Q L) (heap : Q.Heap),
      Inv g.adj ext (fun v => v = t) s l S c [] st₀ ∧
      search g.adj ext (fun v => v = t) fuel (start Q s l) = some (r, { st₀ with heap := heap }) ∧
      ((r = none ∧ ¬ Reachable g s t) ∨
        ∃ τ d, r = some (τ, t) ∧ st₀.best t = τ ∧ R (st₀.label t) d ∧ Fastest g s t τ d) := by
  have hstart := start_inv (Q := Q) g.adj ext (fun v => decide (v = t)) s l
  obtain ⟨S, c, st, hinv, hend⟩ := search_some hnonneg hstart (by
    rw [owed_start, add_comm]
    exact hfuel)
  rcases hend with ⟨hempty, hsearch⟩ | ⟨x, v, heap, hpop, hstop, hsearch⟩
  · refine ⟨none, S, c, st, st.heap, hinv, hsearch, Or.inl ⟨rfl, ?_⟩⟩
    intro ⟨τ, d, hwalk⟩
    have hgo := hinv.go_on t (search_exhausted hnonneg hinv hempty hwalk).1
    exact absurd (decide_eq_true rfl) (Bool.eq_false_iff.mp hgo)
  · obtain rfl : v = t := of_decide_eq_true hstop
    have hbest := (hinv.stopped hpop hstop).2
    obtain ⟨τ, d, hτ, hR, hwalk⟩ := hinv.walk hsource hstep (by rw [hbest]; exact WithTop.coe_ne_top)
    obtain rfl : x = τ := WithTop.coe_inj.mp (hbest.symm.trans hτ)
    exact ⟨some (x, v), S, c, st, heap, hinv, hsearch,
      Or.inr ⟨x, d, rfl, hbest, hR, hwalk, fun _ _ hwalk' => search_stopped hnonneg hinv hpop hstop hwalk'⟩⟩

/-- **A route**: with enough fuel, the least time to the target and the length of a walk that takes it, if it can be reached. -/
theorem route_spec (hnonneg : ∀ v, ∀ e ∈ g.adj v, 0 ≤ e.time) (hfuel : g.nEdges + 1 < fuel) {alat alon blat blon : ℚ}
    (hs : g.snap alat alon = some s) (ht : g.snap blat blon = some t) :
    ∃ r, g.route Q fuel alat alon blat blon = some r ∧ (¬ Reachable g s t → r = none) ∧
      (Reachable g s t → ∃ route, r = some route ∧ Fastest g s t route.timeS route.distM) := by
  unfold route
  rw [hs, ht]
  dsimp only
  split_ifs with hst
  · subst hst
    refine ⟨some ⟨0, 0⟩, rfl, fun hno => absurd ⟨0, 0, Walk.nil⟩ hno, fun _ => ⟨⟨0, 0⟩, rfl, fastest_self hnonneg⟩⟩
  · obtain ⟨r, S, c, st, heap, -, hsearch, hcases⟩ := search_to (Q := Q) (fun m _ em => m + em) (0 : ℚ)
      (R := fun m d => m = d) hnonneg hfuel rfl (fun m _ d e _ hm => by rw [hm]) s t
    rw [hsearch, Option.map_some]
    rcases hcases with ⟨rfl, hno⟩ | ⟨τ, d, rfl, -, hlabel, hfastest⟩
    · exact ⟨none, rfl, fun _ => rfl, fun hreach => absurd hreach hno⟩
    · refine ⟨some ⟨τ, st.label t⟩, rfl, fun hno => absurd ⟨τ, d, hfastest.walk⟩ hno, fun _ => ⟨_, rfl, ?_⟩⟩
      dsimp only
      rw [hlabel]
      exact hfastest

/-! ## The walk back -/

/-- The edges lead from a node to a node. -/
def Leads (g : RoadGraph) : Fin g.n → List (Edge (Fin g.n) ℚ ℚ) → Fin g.n → Prop
  | s, [], t => s = t
  | s, e :: es, t => e ∈ g.adj s ∧ g.Leads e.dest es t

/-- The nodes on the way. -/
def along (s : Fin g.n) (es : List (Edge (Fin g.n) ℚ ℚ)) : List (Fin g.n) := s :: es.map Edge.dest

theorem along_concat (s : Fin g.n) (es : List (Edge (Fin g.n) ℚ ℚ)) (e : Edge (Fin g.n) ℚ ℚ) :
    along s (es ++ [e]) = along s es ++ [e.dest] := by
  simp [along]

theorem Leads.concat : ∀ {es : List (Edge (Fin g.n) ℚ ℚ)} {s u : Fin g.n} {e : Edge (Fin g.n) ℚ ℚ},
    g.Leads s es u → e ∈ g.adj u → g.Leads s (es ++ [e]) e.dest
  | [], _, _, _, rfl, he => ⟨he, rfl⟩
  | _ :: _, _, _, _, ⟨he', hrest⟩, he => ⟨he', Leads.concat hrest he⟩

section Back

variable {S : List (Fin g.n)} {c : ℚ} {st : State Q (ℚ × Option (Fin g.n))} {stop : Fin g.n → Bool}

/-- The chain from a node ends at the source: it goes back over nodes of `P`, none of them twice, along edges that make up
the time and the length of the node. -/
def WalksBack (s : Fin g.n) (st : State Q (ℚ × Option (Fin g.n))) (P : List (Fin g.n)) (fuel : ℕ) (v : Fin g.n) : Prop :=
  ∀ pts, ∃ es, g.Leads s es v ∧ (along s es).Nodup ∧ (∀ u ∈ along s es, u ∈ P) ∧
    st.best v = (((es.map Edge.time).sum : ℚ) : WithTop ℚ) ∧ (st.label v).1 = (es.map Edge.dist).sum ∧
    g.chain (fun v => (st.label v).2) s fuel v pts = some (some (pts ++ (along s es).reverse.map g.nodes))

theorem walksBack_step (hinv : Inv g.adj (fun l v em => (l.1 + em, some v)) stop s ((0 : ℚ), none) S c [] st)
    {S' : List (Fin g.n)} (hS' : ∀ u ∈ S', ∀ fuel, S'.length ≤ fuel → WalksBack s st S' fuel u) {v : Fin g.n} (hnew : v ∉ S')
    (hstem : Stems g.adj (fun l v em => (l.1 + em, some v)) s ((0 : ℚ), none) st S' v) (hfuel : S'.length < fuel) :
    WalksBack s st (v :: S') fuel v := by
  intro pts
  obtain ⟨fuel, rfl⟩ := Nat.exists_eq_succ_of_ne_zero (Nat.ne_of_gt (Nat.zero_lt_of_lt hfuel))
  unfold chain
  by_cases hv : v = s
  · subst hv
    refine ⟨[], rfl, by simp [along], by simp [along], by simp [hinv.source], by simp [hinv.source_label], ?_⟩
    simp [along]
  · obtain ⟨u, hu, e, he, rfl, hbest, hlabel⟩ := hstem.resolve_left fun h => hv h.1
    obtain ⟨es, hleads, hnodup, hmem, htime, hdist, hchain⟩ :=
      hS' u hu fuel (Nat.lt_succ_iff.mp hfuel) (pts ++ [g.nodes e.dest])
    refine ⟨es ++ [e], hleads.concat he, ?_, ?_, ?_, ?_, ?_⟩
    · rw [along_concat]
      exact List.nodup_append_comm.mp (List.nodup_cons.mpr ⟨fun hin => hnew (hmem _ hin), hnodup⟩)
    · intro w hw
      rw [along_concat] at hw
      rcases List.mem_append.mp hw with hw | hw
      · exact List.mem_cons_of_mem _ (hmem w hw)
      · exact List.mem_cons.mpr (Or.inl (List.mem_singleton.mp hw))
    · rw [hbest, htime]
      simp [WithTop.coe_add]
    · rw [hlabel]
      simp [hdist]
    · rw [if_neg hv, hlabel]
      dsimp only
      rw [hchain, along_concat]
      simp

theorem walksBack_settled (hinv : Inv g.adj (fun l v em => (l.1 + em, some v)) stop s ((0 : ℚ), none) S c [] st) :
    ∀ S', S' <:+ S → ∀ u ∈ S', ∀ fuel, S'.length ≤ fuel → WalksBack s st S' fuel u := by
  intro S'
  induction S' with
  | nil => exact fun _ u hu => absurd hu List.not_mem_nil
  | cons w S' ih =>
    intro hsuffix u hu fuel hle
    have hrest := ih ((List.suffix_cons w S').trans hsuffix)
    rw [List.length_cons] at hle
    rcases List.mem_cons.mp hu with rfl | hu
    · have hnew : u ∉ S' := (List.nodup_cons.mp (hinv.settled.sublist hsuffix.sublist)).1
      exact walksBack_step hinv hrest hnew (hinv.closed_stem u S' hsuffix) hle
    · intro pts
      obtain ⟨es, hleads, hnodup, hmem, hback⟩ := hrest u hu fuel (Nat.le_of_succ_le hle) pts
      exact ⟨es, hleads, hnodup, fun x hx => List.mem_cons_of_mem _ (hmem x hx), hback⟩

/-- **The chain of the nodes before ends at the source**, after no more steps than nodes have been settled. -/
theorem walksBack (hinv : Inv g.adj (fun l v em => (l.1 + em, some v)) stop s ((0 : ℚ), none) S c [] st)
    (hfuel : S.length < fuel) (ht : st.best t ≠ ⊤) : ∃ P, WalksBack s st P fuel t := by
  by_cases hmem : t ∈ S
  · exact ⟨S, walksBack_settled hinv S List.suffix_rfl t hmem fuel hfuel.le⟩
  · exact ⟨t :: S, walksBack_step hinv (walksBack_settled hinv S List.suffix_rfl) hmem (hinv.open_stem t hmem ht) hfuel⟩

end Back

/-- The points are those of a way from `s` to `t` over the edges, which goes to no node twice and takes the least time. -/
structure ShortestRoute (g : RoadGraph) (s t : Fin g.n) (path : RoutePath) (es : List (Edge (Fin g.n) ℚ ℚ)) : Prop where
  leads : g.Leads s es t
  nodup : (along s es).Nodup
  pts : path.pts = (along s es).map g.nodes
  dist : path.distM = (es.map Edge.dist).sum
  fastest : Fastest g s t (es.map Edge.time).sum path.distM

/-- **A route with its points**: with enough fuel, a way to the target that takes the least time, if it can be reached. -/
theorem routePath_spec (hnonneg : ∀ v, ∀ e ∈ g.adj v, 0 ≤ e.time) (hfuel : g.nEdges + g.n + 1 < fuel)
    {alat alon blat blon : ℚ} (hs : g.snapR alat alon SNAP_SRC_MAX_M = some s) (ht : g.snap blat blon = some t) :
    ∃ r, g.routePath Q fuel alat alon blat blon = some r ∧ (¬ Reachable g s t → r = none) ∧
      (Reachable g s t → ∃ path es, r = some path ∧ ShortestRoute g s t path es) := by
  unfold routePath
  rw [hs, ht]
  dsimp only
  split_ifs with hst
  · subst hst
    refine ⟨some ⟨[g.nodes s], 0⟩, rfl, fun hno => absurd ⟨0, 0, Walk.nil⟩ hno, fun _ => ⟨_, [], rfl, rfl, ?_, rfl, rfl, ?_⟩⟩
    · exact List.nodup_singleton s
    · exact fastest_self hnonneg
  · obtain ⟨r, S, c, st, heap, hinv, hsearch, hcases⟩ := search_to (Q := Q) (fun l v em => (l.1 + em, some v))
      ((0 : ℚ), none) (R := fun l d => l.1 = d) hnonneg (show g.nEdges + 1 < fuel by omega) rfl (fun l _ d e _ hl => by rw [hl]) s t
    rw [hsearch, Option.bind_some]
    rcases hcases with ⟨rfl, hno⟩ | ⟨τ, d, rfl, hbest, hlabel, hfastest⟩
    · exact ⟨none, rfl, fun _ => rfl, fun hreach => absurd hreach hno⟩
    · have hlength : S.length < fuel := by
        have := hinv.settled.length_le_card
        rw [Fintype.card_fin] at this
        omega
      obtain ⟨P, hback⟩ := walksBack hinv hlength (by rw [hbest]; exact WithTop.coe_ne_top)
      obtain ⟨es, hleads, hnodup, -, htime, hdist, hchain⟩ := hback []
      dsimp only
      rw [hchain]
      refine ⟨_, rfl, fun hno => absurd ⟨τ, d, hfastest.walk⟩ hno, fun _ => ⟨_, es, rfl, hleads, hnodup, ?_, hdist, ?_⟩⟩
      · simp [List.map_reverse]
      · obtain rfl : τ = (es.map Edge.time).sum := WithTop.coe_inj.mp (hbest.symm.trans htime)
        dsimp only
        rw [hlabel]
        exact hfastest

/-- **The three searches agree.** On a graph without negative times, with coordinates that all three snap to the same nodes
and with enough fuel, they all return; none of them finds a node that cannot be reached, and otherwise the field and the
route have the least time, and the lengths are those of walks that take it. -/
theorem searches_agree (hnonneg : ∀ v, ∀ e ∈ g.adj v, 0 ≤ e.time) (hfuel : g.nEdges + g.n + 1 < fuel)
    {alat alon blat blon : ℚ} (hs : g.snap alat alon = some s) (hs' : g.snapR alat alon SNAP_SRC_MAX_M = some s)
    (ht : g.snap blat blon = some t) :
    ∃ field r p, g.fieldFrom Q fuel alat alon = some (some field) ∧ g.route Q fuel alat alon blat blon = some r ∧
      g.routePath Q fuel alat alon blat blon = some p ∧
      (¬ Reachable g s t → field.timeTo t = none ∧ r = none ∧ p = none) ∧
      (Reachable g s t → ∃ τ route path, field.timeTo t = some τ ∧ r = some route ∧ p = some path ∧ route.timeS = τ ∧
        Fastest g s t τ route.distM ∧ Fastest g s t τ path.distM) := by
  obtain ⟨field, hfield, htimes⟩ := field_spec (Q := Q) hnonneg (show g.nEdges + 1 < fuel by omega) hs'
  obtain ⟨r, hroute, hnone, hsome⟩ := route_spec (Q := Q) hnonneg (show g.nEdges + 1 < fuel by omega) hs ht
  obtain ⟨p, hpath, hnone', hsome'⟩ := routePath_spec (Q := Q) hnonneg hfuel hs' ht
  refine ⟨field, r, p, hfield, hroute, hpath, fun hno => ⟨(htimes t).1 hno, hnone hno, hnone' hno⟩, fun hreach => ?_⟩
  obtain ⟨τ, d, htime, hτ⟩ := (htimes t).2 hreach
  obtain ⟨route, rfl, hfastest⟩ := hsome hreach
  obtain ⟨path, es, rfl, hroute'⟩ := hsome' hreach
  have hfastest' := hroute'.fastest
  have heq := hfastest.unique hτ
  have heq' := hfastest'.unique hτ
  rw [heq'] at hfastest'
  refine ⟨τ, route, path, htime, rfl, rfl, heq, ?_, hfastest'⟩
  rw [← heq]
  exact hfastest

/-- Two ways from node 0 to node 1, of which the one over node 2 is the faster and the longer. -/
def twoWays : RoadGraph where
  n := 3
  nodes := ![(0, 0), (1, 0), (2, 0)]
  adj := ![[⟨1, 2, 5⟩, ⟨2, 1, 4⟩], [], [⟨1, 1 / 2, 3⟩]]
  snapR := fun lat _ _ => if lat = 0 then some 0 else if lat = 1 then some 1 else some 2

example : ((twoWays.route (sortedHeap ℚ (Fin 3)) 9 0 0 1 0).map fun r => r.map fun r => (r.timeS, r.distM)) =
    some (some (3 / 2, 7)) := by decide +kernel

theorem twoWays_nonneg : ∀ v, ∀ e ∈ twoWays.adj v, 0 ≤ e.time := by
  intro v
  change Fin 3 at v
  fin_cases v
  · exact List.forall_mem_cons.mpr ⟨by norm_num, List.forall_mem_cons.mpr ⟨by norm_num, List.forall_mem_nil _⟩⟩
  · exact List.forall_mem_nil _
  · exact List.forall_mem_cons.mpr ⟨by norm_num, List.forall_mem_nil _⟩

/-- On it the searches agree on a time from node 0 to node 1. -/
theorem searches_agree_two : ∃ τ route path,
    twoWays.route (sortedHeap ℚ (Fin 3)) 9 0 0 1 0 = some (some route) ∧
    twoWays.routePath (sortedHeap ℚ (Fin 3)) 9 0 0 1 0 = some (some path) ∧ route.timeS = τ ∧
    Fastest twoWays (0 : Fin 3) (1 : Fin 3) τ route.distM ∧ Fastest twoWays (0 : Fin 3) (1 : Fin 3) τ path.distM := by
  have hreach : Reachable twoWays (0 : Fin 3) (1 : Fin 3) :=
    ⟨0 + 2, 0 + 5, Walk.snoc (e := (⟨(1 : Fin 3), 2, 5⟩ : Edge (Fin 3) ℚ ℚ)) Walk.nil List.mem_cons_self⟩
  obtain ⟨field, r, p, -, hroute, hpath, -, hfound⟩ := @searches_agree twoWays (sortedHeap ℚ (Fin 3)) 9
    (0 : Fin 3) (1 : Fin 3) twoWays_nonneg (by decide) 0 0 1 0 rfl rfl rfl
  obtain ⟨τ, route, path, -, rfl, rfl, heq, hfastest, hfastest'⟩ := hfound hreach
  exact ⟨τ, route, path, hroute, hpath, heq, hfastest, hfastest'⟩

/-- **A real shortest route.** On a graph without negative times and with enough fuel, every answer is the points of a way from
the one snapped node to the other over the edges, to no node twice, with their length and in the least time; there is no
answer only where a coordinate is not snapped or the target cannot be reached, so the walk back never breaks off. -/
theorem routePath_real (g : RoadGraph) (Q : MinHeap ℚ (Fin g.n)) (fuel : ℕ) (hnonneg : ∀ v, ∀ e ∈ g.adj v, 0 ≤ e.time)
    (hfuel : g.nEdges + g.n + 1 < fuel) (alat alon blat blon : ℚ) :
    ∃ r, g.routePath Q fuel alat alon blat blon = some r ∧
      (∀ path, r = some path → ∃ s t es, g.snapR alat alon SNAP_SRC_MAX_M = some s ∧ g.snap blat blon = some t ∧
        ShortestRoute g s t path es) ∧
      (r = none → ∀ s t, g.snapR alat alon SNAP_SRC_MAX_M = some s → g.snap blat blon = some t → ¬ Reachable g s t) := by
  cases hs : g.snapR alat alon SNAP_SRC_MAX_M with
  | none => exact ⟨none, by simp [routePath, hs], by simp, by simp⟩
  | some s =>
    cases ht : g.snap blat blon with
    | none => exact ⟨none, by simp [routePath, hs, ht], by simp, by simp⟩
    | some t =>
      obtain ⟨r, hr, hnone, hsome⟩ := routePath_spec (Q := Q) hnonneg hfuel hs ht
      refine ⟨r, hr, fun path hpath => ?_, fun hr' s' t' hs' ht' hreach => ?_⟩
      · by_cases hreach : Reachable g s t
        · obtain ⟨path', es, heq, hroute⟩ := hsome hreach
          obtain rfl := Option.some.inj (hpath.symm.trans heq)
          exact ⟨s, t, es, rfl, rfl, hroute⟩
        · exact absurd (hpath.symm.trans (hnone hreach)) (by simp)
      · obtain rfl := Option.some.inj hs'
        obtain rfl := Option.some.inj ht'
        obtain ⟨path, es, heq, -⟩ := hsome hreach
        exact absurd (heq.symm.trans hr') (by simp)

/-- From node 0 to node 1 the answer goes over node 2. -/
theorem routePath_real_two : ∃ s t es, twoWays.snapR 0 0 SNAP_SRC_MAX_M = some s ∧ twoWays.snap 1 0 = some t ∧
    ShortestRoute twoWays s t ⟨[(0, 0), (2, 0), (1, 0)], 7⟩ es := by
  obtain ⟨r, hr, hreal, -⟩ := routePath_real twoWays (sortedHeap ℚ (Fin 3)) 9 twoWays_nonneg (by decide) 0 0 1 0
  have hpath : twoWays.routePath (sortedHeap ℚ (Fin 3)) 9 0 0 1 0 = some (some ⟨[(0, 0), (2, 0), (1, 0)], 7⟩) := by
    decide +kernel
  exact hreal _ (Option.some.inj (hr.symm.trans hpath))

end RoadGraph

end TtAiops.Api
