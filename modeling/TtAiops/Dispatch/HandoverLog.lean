import TtAiops.Api.Cranes
import TtAiops.Dispatch.TripLog
import TtAiops.Lib.Cursors

/-!
# The log of the pickups at the quay

The frames of the cranes count the moves, a pruner forgets a crane that is no longer heard of, and a loop looks at the moves
of the cranes whose work point is known and logs the new ones, each with the truck that stands at the crane.

* `Quay`, `Input`, `step` : a frame (`ingest_ctab`), the pruner (`spawn`), a look (`spawn_qc_handover_logger`);
* `dockedAt`, `edgeOf` : the truck a pickup is put down to;
* `Counted`, `log` : the moves that have been counted, and the rows of a run;
* `CraneInv`, `craneInv_step`, `craneInv_after` : the moves and the cursor of a crane, after every input;
* `handover_log` : **a counted move is logged once at most, is logged when a look comes in time, and nothing else is**.

The iteration over the cranes is in the order in which they were first heard of; the program's is any order.
-/

namespace TtAiops.Dispatch.Handover
open TtAiops.Lib TtAiops.Api.Cranes
open TtAiops.Cycle (LOST_AFTER_S)

variable {K : Type*}

def QC_DOCK_M : ℚ := 35

def EDGE_FRESH_MS : ℤ := 25000

/-- The moves of the cranes (`lm.plc`), the cranes that have an entry there, and `last_edge`. -/
structure Quay (K : Type*) where
  plc : String → Plc K
  cranes : List String
  lastEdge : String → ℤ

/-- A row of `qc_handover_edge`, but for the flag `land`. -/
structure Edge where
  crane : String
  ts : ℤ
  ytno : Option String
  container : Option String
  jobtype : Option String
  dist : Option ℚ
  n : ℕ

def Edge.key (e : Edge) : String × ℤ := (e.crane, e.ts)

inductive Input (K : Type*)
  | frame (f : String × Reading K)
  | prune (now : ℤ)
  | look (s : Shot)

def Input.now : Input K → ℤ
  | .frame f => f.2.now
  | .prune now => now
  | .look s => s.scene.now

/-! ## A look -/

/-- A fresh truck that carries a box to be loaded. -/
def carriesLoad (now : ℤ) (p : Pos) : Prop :=
  freshTruck now p ∧ p.jobtype.or p.latchedJobtype = some "LD" ∧ (filled p.container1 || filled p.latchedContainer) = true

instance (now : ℤ) (p : Pos) : Decidable (carriesLoad now p) := inferInstanceAs (Decidable (_ ∧ _ ∧ _))

/-- The trucks docked at a crane, nearest first. -/
def dockedAt (s : Shot) (cpos : ℚ × ℚ) : List (ℚ × String × Pos) :=
  (s.devices.filterMap fun (id, p) =>
    let d := s.scene.dist (p.lat, p.lon) cpos
    if carriesLoad s.scene.now p ∧ d ≤ QC_DOCK_M then some (d, id, p) else none).mergeSort fun a b => a.1 ≤ b.1

def edgeOf (s : Shot) (cpos : ℚ × ℚ) (crane : String) (ts : ℤ) : Edge :=
  let cand := dockedAt s cpos
  match cand.head? with
  | some (d, id, p) =>
    { crane := crane, ts := ts, ytno := some id, container := (nonEmpty p.container1).or p.latchedContainer,
      jobtype := p.jobtype.or p.latchedJobtype, dist := some d, n := cand.length }
  | none => { crane := crane, ts := ts, ytno := none, container := none, jobtype := none, dist := none, n := cand.length }

/-- A move that a look at `now` may still log. -/
def EdgeFresh (now ts : ℤ) : Prop := now - ts ≤ EDGE_FRESH_MS

instance (now : ℤ) : DecidablePred (EdgeFresh now) := fun ts => inferInstanceAs (Decidable (now - ts ≤ EDGE_FRESH_MS))

/-- The rows of a crane; one whose work point is not known is passed over. -/
def edgesOf (s : Shot) (q : Quay K) (crane : String) : List Edge :=
  match s.scene.cranes crane with
  | some cpos => (beyond (EdgeFresh s.scene.now) (q.plc crane).moves (q.lastEdge crane)).map (edgeOf s cpos crane)
  | none => []

def edges (s : Shot) (q : Quay K) : List Edge := q.cranes.flatMap (edgesOf s q)

/-- `last_edge.insert(crane, ts.max(..))`. -/
def bump (lastEdge : String → ℤ) (e : Edge) : String → ℤ :=
  Function.update lastEdge e.crane (max e.ts (lastEdge e.crane))

def lookQuay (s : Shot) (q : Quay K) : Quay K := { q with lastEdge := (edges s q).foldl bump q.lastEdge }

/-! ## The truck of a row -/

theorem edgeOf_key (s : Shot) (cpos : ℚ × ℚ) (crane : String) (ts : ℤ) : (edgeOf s cpos crane ts).key = (crane, ts) := by
  unfold edgeOf
  dsimp only
  cases (dockedAt s cpos).head? with
  | none => rfl
  | some x => rfl

def Docked (s : Shot) (cpos : ℚ × ℚ) (id : String) (p : Pos) : Prop :=
  (id, p) ∈ s.devices ∧ carriesLoad s.scene.now p ∧ s.scene.dist (p.lat, p.lon) cpos ≤ QC_DOCK_M

theorem mem_dockedAt {s : Shot} {cpos : ℚ × ℚ} {d : ℚ} {id : String} {p : Pos} :
    (d, id, p) ∈ dockedAt s cpos ↔ Docked s cpos id p ∧ d = s.scene.dist (p.lat, p.lon) cpos := by
  unfold dockedAt
  rw [(List.mergeSort_perm _ _).mem_iff, List.mem_filterMap]
  constructor
  · rintro ⟨⟨id', p'⟩, hmem, hsome⟩
    dsimp only at hsome
    split_ifs at hsome with hdock
    obtain ⟨rfl, rfl, rfl⟩ : _ = d ∧ id' = id ∧ p' = p := by simpa using hsome
    exact ⟨⟨hmem, hdock⟩, rfl⟩
  · rintro ⟨⟨hmem, hdock⟩, rfl⟩
    exact ⟨(id, p), hmem, if_pos hdock⟩

theorem dockedAt_sorted (s : Shot) (cpos : ℚ × ℚ) : (dockedAt s cpos).Pairwise fun a b => a.1 ≤ b.1 := by
  unfold dockedAt
  refine (List.pairwise_mergeSort ?_ ?_ _).imp of_decide_eq_true
  · intro a b c hab hbc
    exact decide_eq_true ((of_decide_eq_true hab).trans (of_decide_eq_true hbc))
  · intro a b
    rw [Bool.or_eq_true, decide_eq_true_iff, decide_eq_true_iff]
    exact le_total _ _

/-- What a row says of the trucks: the one it names is docked and none is nearer, and it names none only if there is none. -/
structure Attributed (s : Shot) (cpos : ℚ × ℚ) (e : Edge) : Prop where
  named : ∀ id, e.ytno = some id → ∃ p d, Docked s cpos id p ∧ e.dist = some d ∧ d = s.scene.dist (p.lat, p.lon) cpos ∧
    ∀ id' p', Docked s cpos id' p' → d ≤ s.scene.dist (p'.lat, p'.lon) cpos
  nobody : e.ytno = none → ∀ id p, ¬ Docked s cpos id p

theorem edgeOf_attributed (s : Shot) (cpos : ℚ × ℚ) (crane : String) (ts : ℤ) :
    Attributed s cpos (edgeOf s cpos crane ts) := by
  have hsorted := dockedAt_sorted s cpos
  cases hdock : dockedAt s cpos with
  | nil =>
    have hedge : (edgeOf s cpos crane ts).ytno = none := by
      unfold edgeOf
      rw [hdock]
      rfl
    refine ⟨fun id hid => ?_, fun _ id p hp => ?_⟩
    · rw [hedge] at hid
      exact absurd hid (by simp)
    · have := mem_dockedAt.mpr ⟨hp, rfl⟩
      rw [hdock] at this
      exact absurd this List.not_mem_nil
  | cons x rest =>
    obtain ⟨d, id, p⟩ := x
    rw [hdock, List.pairwise_cons] at hsorted
    have hedge : (edgeOf s cpos crane ts).ytno = some id ∧ (edgeOf s cpos crane ts).dist = some d := by
      unfold edgeOf
      rw [hdock]
      exact ⟨rfl, rfl⟩
    obtain ⟨hp, hd⟩ := mem_dockedAt.mp (show (d, id, p) ∈ dockedAt s cpos by rw [hdock]; exact List.mem_cons_self)
    refine ⟨fun id' hid' => ?_, fun hnone => ?_⟩
    · obtain rfl : id = id' := Option.some_inj.mp (hedge.1.symm.trans hid')
      refine ⟨p, d, hp, hedge.2, hd, fun id' p' hp' => ?_⟩
      have hmem := mem_dockedAt.mpr ⟨hp', rfl⟩
      rw [hdock] at hmem
      rcases List.mem_cons.mp hmem with heq | hmem
      · exact (congrArg Prod.fst heq).ge
      · exact hsorted.1 _ hmem
    · rw [hedge.1] at hnone
      exact absurd hnone (by simp)

/-! ## The rows of a look -/

theorem mem_edgesOf {s : Shot} {q : Quay K} {crane : String} {e : Edge} :
    e ∈ edgesOf s q crane ↔ ∃ cpos, s.scene.cranes crane = some cpos ∧
      ∃ ts ∈ beyond (EdgeFresh s.scene.now) (q.plc crane).moves (q.lastEdge crane), edgeOf s cpos crane ts = e := by
  unfold edgesOf
  cases s.scene.cranes crane with
  | none => simp
  | some cpos => simp

theorem key_edgesOf (s : Shot) (q : Quay K) (crane : String) : (edgesOf s q crane).map Edge.key =
    if (s.scene.cranes crane).isSome then
      (beyond (EdgeFresh s.scene.now) (q.plc crane).moves (q.lastEdge crane)).map fun ts => (crane, ts)
    else [] := by
  unfold edgesOf
  cases s.scene.cranes crane with
  | none => rfl
  | some cpos =>
    have hkey : Edge.key ∘ edgeOf s cpos crane = fun ts => (crane, ts) := funext fun ts => edgeOf_key s cpos crane ts
    rw [Option.isSome_some, if_pos rfl, List.map_map, hkey]

theorem mem_edges_key {s : Shot} {q : Quay K} {crane : String} {ts : ℤ} : (crane, ts) ∈ (edges s q).map Edge.key ↔
    crane ∈ q.cranes ∧ (s.scene.cranes crane).isSome = true ∧
      ts ∈ beyond (EdgeFresh s.scene.now) (q.plc crane).moves (q.lastEdge crane) := by
  have hof : ∀ c, (crane, ts) ∈ (edgesOf s q c).map Edge.key ↔ c = crane ∧ (s.scene.cranes c).isSome = true ∧
      ts ∈ beyond (EdgeFresh s.scene.now) (q.plc c).moves (q.lastEdge c) := by
    intro c
    rw [key_edgesOf]
    split_ifs with hwp
    · rw [List.mem_map]
      constructor
      · rintro ⟨t, ht, heq⟩
        obtain ⟨rfl, rfl⟩ := Prod.mk.inj heq
        exact ⟨rfl, hwp, ht⟩
      · rintro ⟨rfl, -, ht⟩
        exact ⟨ts, ht, rfl⟩
    · exact iff_of_false List.not_mem_nil fun h => hwp h.2.1
  unfold edges
  rw [List.map_flatMap, List.mem_flatMap]
  constructor
  · rintro ⟨c, hc, hmem⟩
    obtain ⟨rfl, hrest⟩ := (hof c).mp hmem
    exact ⟨hc, hrest⟩
  · rintro ⟨hc, hrest⟩
    exact ⟨crane, hc, (hof crane).mpr ⟨rfl, hrest⟩⟩

theorem foldl_bump (es : List Edge) (lastEdge : String → ℤ) (crane : String) :
    es.foldl bump lastEdge crane = moved ((es.filter fun e => e.crane = crane).map Edge.ts) (lastEdge crane) := by
  induction es generalizing lastEdge with
  | nil => rfl
  | cons e es ih =>
    rw [List.foldl_cons, ih]
    by_cases he : e.crane = crane
    · subst he
      rw [List.filter_cons_of_pos (by simp), bump, Function.update_self]
      rfl
    · rw [List.filter_cons_of_neg (by simpa using he), bump, Function.update_of_ne (Ne.symm he)]

theorem flatMap_only {A : Type*} {l : List String} (hl : l.Nodup) {x : String} (hx : x ∈ l) (f : String → List A) :
    l.flatMap (fun c => if c = x then f c else []) = f x := by
  induction l with
  | nil => exact absurd hx List.not_mem_nil
  | cons c l ih =>
    rw [List.nodup_cons] at hl
    rw [List.flatMap_cons]
    by_cases hc : c = x
    · subst hc
      have hrest : l.flatMap (fun c' => if c' = c then f c' else []) = [] := by
        refine List.flatMap_eq_nil_iff.mpr fun c' hc' => if_neg ?_
        rintro rfl
        exact hl.1 hc'
      rw [if_pos rfl, hrest, List.append_nil]
    · rw [if_neg hc, List.nil_append]
      exact ih hl.2 ((List.mem_cons.mp hx).resolve_left (Ne.symm hc))

theorem filter_edges {s : Shot} {q : Quay K} (hnodup : q.cranes.Nodup) {crane : String} (hcrane : crane ∈ q.cranes) :
    (edges s q).filter (fun e => e.crane = crane) = edgesOf s q crane := by
  have hfilter : ∀ c, (edgesOf s q c).filter (fun e => e.crane = crane) = if c = crane then edgesOf s q c else [] := by
    intro c
    have hown : ∀ e ∈ edgesOf s q c, e.crane = c := by
      intro e he
      obtain ⟨cpos, -, ts, -, rfl⟩ := mem_edgesOf.mp he
      exact congrArg Prod.fst (edgeOf_key s cpos c ts)
    split_ifs with hc
    · exact List.filter_eq_self.mpr fun e he => decide_eq_true ((hown e he).trans hc)
    · refine List.filter_eq_nil_iff.mpr fun e he => ?_
      rw [hown e he]
      simpa using hc
  unfold edges
  rw [List.filter_flatMap, funext hfilter]
  exact flatMap_only hnodup hcrane (edgesOf s q)

theorem nodup_edges {s : Shot} {q : Quay K} (hnodup : q.cranes.Nodup)
    (h : ∀ crane, (beyond (EdgeFresh s.scene.now) (q.plc crane).moves (q.lastEdge crane)).Nodup) :
    ((edges s q).map Edge.key).Nodup := by
  have hcrane : ∀ crane, ∀ k ∈ (edgesOf s q crane).map Edge.key, k.1 = crane := by
    intro crane k hk
    rw [key_edgesOf] at hk
    split_ifs at hk
    · obtain ⟨ts, -, rfl⟩ := List.mem_map.mp hk
      rfl
    · exact absurd hk List.not_mem_nil
  unfold edges
  rw [List.map_flatMap, List.nodup_flatMap]
  refine ⟨fun crane _ => ?_, hnodup.imp fun {c c'} hne k hk hk' => hne ?_⟩
  · rw [key_edgesOf]
    split_ifs
    · exact (h crane).map fun _ _ heq => (Prod.mk.inj heq).2
    · exact List.nodup_nil
  · rw [← hcrane c k hk, ← hcrane c' k hk']

theorem lookQuay_lastEdge {s : Shot} {q : Quay K} (hnodup : q.cranes.Nodup) {crane : String} (hcrane : crane ∈ q.cranes)
    (hwp : (s.scene.cranes crane).isSome = true) : (lookQuay s q).lastEdge crane =
      moved (beyond (EdgeFresh s.scene.now) (q.plc crane).moves (q.lastEdge crane)) (q.lastEdge crane) := by
  have hts : (edgesOf s q crane).map Edge.ts =
      beyond (EdgeFresh s.scene.now) (q.plc crane).moves (q.lastEdge crane) := by
    have hkeys := congrArg (List.map Prod.snd) (key_edgesOf s q crane)
    rw [if_pos hwp, List.map_map, List.map_map] at hkeys
    exact hkeys.trans (List.map_id _)
  show (edges s q).foldl bump q.lastEdge crane = _
  rw [foldl_bump, filter_edges hnodup hcrane, hts]

theorem lookQuay_lastEdge_of_not {s : Shot} {q : Quay K} {crane : String}
    (h : ¬ (crane ∈ q.cranes ∧ (s.scene.cranes crane).isSome = true)) : (lookQuay s q).lastEdge crane = q.lastEdge crane := by
  have hnone : (edges s q).filter (fun e => e.crane = crane) = [] := by
    refine List.filter_eq_nil_iff.mpr fun e he hcrane => h ?_
    have hmem := List.mem_map_of_mem (f := Edge.key) he
    rw [Edge.key, of_decide_eq_true hcrane] at hmem
    exact (mem_edges_key.mp hmem).imp_right And.left
  show (edges s q).foldl bump q.lastEdge crane = _
  rw [foldl_bump, hnone]
  rfl

/-! ## A crane -/

/-- A crane at the time `now`: its moves and its cursor, and the clock that both come from. -/
structure CraneInv (now : ℤ) (counted logged : ℤ → Prop) (e : Plc K) (seen : ℤ) : Prop where
  kept : Kept (EdgeFresh now) counted logged e.moves seen
  moves_le : ∀ t ∈ e.moves, t ≤ e.lastMoveMs
  last_le : e.lastMoveMs ≤ e.lastSeenMs
  seen_le : e.lastSeenMs ≤ now
  past : ∀ t, counted t → t ≤ e.lastMoveMs ∨ t < now
  cursor : seen ≤ e.lastMoveMs ∨ seen < now

variable {now : ℤ} {counted logged : ℤ → Prop} {e : Plc K} {seen : ℤ}

theorem EdgeFresh.earlier {now now' ts : ℤ} (h : EdgeFresh now' ts) (hle : now ≤ now') : EdgeFresh now ts :=
  (sub_le_sub_right hle ts).trans h

theorem CraneInv.age (h : CraneInv now counted logged e seen) {now' : ℤ} (hle : now ≤ now') :
    CraneInv now' counted logged e seen where
  kept := h.kept.age fun _ ht => ht.earlier hle
  moves_le := h.moves_le
  last_le := h.last_le
  seen_le := h.seen_le.trans hle
  past t ht := (h.past t ht).imp_right fun hlt => hlt.trans_le hle
  cursor := h.cursor.imp_right fun hlt => hlt.trans_le hle

/-- The pruner drops a crane: nothing that was counted is fresh any more. -/
theorem CraneInv.forget (h : CraneInv now counted logged e seen) (hpos : 0 < now)
    (hlost : ¬ now - LOST_AFTER_S * 1000 ≤ e.lastSeenMs) : CraneInv now counted logged (Api.Cranes.unseen : Plc K) seen := by
  have hlast := h.last_le
  unfold LOST_AFTER_S at hlost
  have hstale : ∀ t ∈ e.moves, ¬ EdgeFresh now t := by
    intro t ht hfresh
    have hmove := h.moves_le t ht
    unfold EdgeFresh EDGE_FRESH_MS at hfresh
    omega
  have hpast : ∀ x, x ≤ e.lastMoveMs ∨ x < now → x < now := by
    intro x hx
    omega
  refine ⟨h.kept.drop (List.nil_sublist _) fun t ht hfresh => absurd hfresh (hstale t ht), ?_, le_rfl, hpos.le, ?_, ?_⟩
  · exact fun t ht => absurd ht List.not_mem_nil
  · exact fun t ht => Or.inr (hpast t (h.past t ht))
  · exact Or.inr (hpast seen h.cursor)

theorem CraneInv.look (h : CraneInv now counted logged e seen) :
    CraneInv now counted (fun x => logged x ∨ x ∈ beyond (EdgeFresh now) e.moves seen) e
      (moved (beyond (EdgeFresh now) e.moves seen) seen) := by
  refine ⟨h.kept.look, h.moves_le, h.last_le, h.seen_le, h.past, ?_⟩
  rcases moved_mem (beyond (EdgeFresh now) e.moves seen) seen with heq | hmem
  · rw [heq]
    exact h.cursor
  · exact Or.inl (h.moves_le _ (List.mem_filter.mp hmem).1)

/-! ## The steps -/

def Ordered (inputs : List (Input K)) : Prop :=
  (inputs.map Input.now).Pairwise (· ≤ ·) ∧ ∀ i ∈ inputs, 0 < i.now

theorem Ordered.init {inputs : List (Input K)} {i : Input K} (h : Ordered (inputs ++ [i])) :
    Ordered inputs ∧ (∀ j ∈ inputs, j.now ≤ i.now) ∧ 0 < i.now := by
  obtain ⟨horder, hpos⟩ := h
  rw [List.map_append, List.pairwise_append] at horder
  refine ⟨⟨horder.1, fun j hj => hpos j (List.mem_append_left _ hj)⟩, fun j hj => ?_, hpos i (by simp)⟩
  exact horder.2.2 j.now (List.mem_map_of_mem hj) i.now (by simp)

/-- The cranes with an entry: none twice, and a crane without one is as if it had never been heard of. -/
structure QuayInv (q : Quay K) : Prop where
  nodup : q.cranes.Nodup
  absent : ∀ crane, crane ∉ q.cranes → q.plc crane = Api.Cranes.unseen

theorem mem_cranes {q : Quay K} (h : QuayInv q) {crane : String} {ts : ℤ} (hts : ts ∈ (q.plc crane).moves) :
    crane ∈ q.cranes := by
  by_contra hno
  rw [h.absent crane hno] at hts
  exact absurd hts List.not_mem_nil

variable [Field K] [LinearOrder K]

/-- `retain(|_, c| c.last_seen_ms >= cutoff)`. -/
def pruneQuay (now : ℤ) (q : Quay K) : Quay K :=
  let kept : String → Bool := fun crane => now - LOST_AFTER_S * 1000 ≤ (q.plc crane).lastSeenMs
  { q with plc := fun crane => if kept crane then q.plc crane else Api.Cranes.unseen, cranes := q.cranes.filter kept }

def frameQuay (f : String × Reading K) (q : Quay K) : Quay K :=
  { q with plc := ingestCtab q.plc f, cranes := if f.1 ∈ q.cranes then q.cranes else q.cranes ++ [f.1] }

def step : Input K → Quay K → List Edge × Quay K
  | .frame f, q => ([], frameQuay f q)
  | .prune now, q => ([], pruneQuay now q)
  | .look s, q => (edges s q, lookQuay s q)

def quayStart : Quay K := { plc := fun _ => Api.Cranes.unseen, cranes := [], lastEdge := fun _ => 0 }

/-- The quay after the inputs. -/
def after (inputs : List (Input K)) : Quay K := lastOf step inputs quayStart

/-- All rows of a run. -/
def log (inputs : List (Input K)) : List Edge := (runInputs step inputs quayStart).flatMap Prod.fst

/-- One of the frames counted a move of the crane at the time. -/
def Counted (inputs : List (Input K)) (crane : String) (ts : ℤ) : Prop :=
  ∃ before f rest, inputs = before ++ .frame f :: rest ∧ f.1 = crane ∧ Pushes ((after before).plc crane) f.2 ∧ f.2.now = ts

def Logged (inputs : List (Input K)) (crane : String) (ts : ℤ) : Prop := (crane, ts) ∈ (log inputs).map Edge.key

/-! ## One input more -/

theorem after_append (inputs : List (Input K)) (i : Input K) : after (inputs ++ [i]) = (step i (after inputs)).2 := by
  unfold after
  rw [lastOf_append]
  rfl

theorem log_append (inputs : List (Input K)) (i : Input K) :
    log (inputs ++ [i]) = log inputs ++ (step i (after inputs)).1 := by
  unfold log
  rw [runInputs_append, List.flatMap_append]
  show _ ++ ((step i (after inputs)).1 ++ []) = _
  rw [List.append_nil]

theorem logged_append {inputs : List (Input K)} {i : Input K} {crane : String} {ts : ℤ} :
    Logged (inputs ++ [i]) crane ts ↔ Logged inputs crane ts ∨ (crane, ts) ∈ (step i (after inputs)).1.map Edge.key := by
  unfold Logged
  rw [log_append, List.map_append, List.mem_append]

def Counts (q : Quay K) : Input K → String → ℤ → Prop
  | .frame f, crane, ts => f.1 = crane ∧ Pushes (q.plc crane) f.2 ∧ f.2.now = ts
  | .prune _, _, _ => False
  | .look _, _, _ => False

theorem counted_append {inputs : List (Input K)} {i : Input K} {crane : String} {ts : ℤ} :
    Counted (inputs ++ [i]) crane ts ↔ Counted inputs crane ts ∨ Counts (after inputs) i crane ts := by
  constructor
  · rintro ⟨before, f, rest, heq, hf⟩
    rcases List.eq_nil_or_concat rest with rfl | ⟨rest, i', rfl⟩
    · obtain ⟨rfl, hi⟩ := List.append_inj' heq rfl
      rw [List.singleton_inj.mp hi]
      exact Or.inr hf
    · rw [List.concat_eq_append, ← List.cons_append, ← List.append_assoc] at heq
      obtain ⟨hinputs, -⟩ := List.append_inj' heq rfl
      exact Or.inl ⟨before, f, rest, hinputs, hf⟩
  · intro h
    rcases h with ⟨before, f, rest, rfl, hf⟩ | h
    · exact ⟨before, f, rest ++ [i], by rw [List.append_assoc, List.cons_append], hf⟩
    · cases i with
      | frame f => exact ⟨inputs, f, [], rfl, h⟩
      | prune now => exact absurd h not_false
      | look s => exact absurd h not_false

theorem quayInv_step {q : Quay K} (h : QuayInv q) (i : Input K) : QuayInv (step i q).2 := by
  cases i with
  | look s => exact ⟨h.nodup, h.absent⟩
  | prune now =>
    refine ⟨h.nodup.filter _, fun crane hcrane => ?_⟩
    show (if _ then q.plc crane else Api.Cranes.unseen) = _
    split_ifs with hkept
    · exact h.absent crane fun hmem => hcrane (List.mem_filter.mpr ⟨hmem, hkept⟩)
    · rfl
  | frame f =>
    show QuayInv (frameQuay f q)
    have hcranes : f.1 ∈ (frameQuay f q).cranes ∧ (frameQuay f q).cranes.Nodup ∧ q.cranes ⊆ (frameQuay f q).cranes := by
      unfold frameQuay
      dsimp only
      split_ifs with hf
      · exact ⟨hf, h.nodup, List.Subset.refl _⟩
      · refine ⟨by simp, List.nodup_append.mpr ⟨h.nodup, List.nodup_singleton _, ?_⟩, List.subset_append_left _ _⟩
        rintro a ha b hb rfl
        exact hf (List.mem_singleton.mp hb ▸ ha)
    refine ⟨hcranes.2.1, fun crane hcrane => ?_⟩
    have hne : crane ≠ f.1 := fun heq => hcrane (heq ▸ hcranes.1)
    show ingestCtab q.plc f crane = _
    rw [ingestCtab, Function.update_of_ne hne]
    exact h.absent crane fun hmem => hcrane (hcranes.2.2 hmem)

theorem quayInv_after (inputs : List (Input K)) : QuayInv (after inputs) := by
  induction inputs using List.reverseRecOn with
  | nil => exact ⟨List.nodup_nil, fun _ _ => rfl⟩
  | append_singleton inputs i ih =>
    rw [after_append]
    exact quayInv_step ih i

/-! ## The readings of a crane -/

theorem mem_dropWhile_of_not {A : Type*} {p : A → Bool} {l : List A} {a : A} (ha : a ∈ l) (hp : p a = false) :
    a ∈ l.dropWhile p := by
  rw [← List.takeWhile_append_dropWhile (p := p) (l := l)] at ha
  refine (List.mem_append.mp ha).resolve_left fun hmem => ?_
  rw [List.mem_takeWhile_imp hmem] at hp
  exact absurd hp (by decide)

theorem CraneInv.push {r : Reading K} (h : CraneInv r.now counted logged e seen) (hpos : 0 < r.now) (hpush : Pushes e r) :
    CraneInv r.now (fun x => counted x ∨ x = r.now) logged (ingest e r) seen := by
  obtain ⟨hmoves, hlast⟩ := ingest_of_pushes hpush
  have hgap := hpush.2.2
  have hbefore : ∀ x, x ≤ e.lastMoveMs ∨ x < r.now → x < r.now := by
    intro x hx
    rcases hx with hx | hx
    · unfold sinceLast MIN_MOVE_GAP_MS at hgap
      split_ifs at hgap <;> omega
    · exact hx
  have hkept := (h.kept.push (fun x hx => hbefore x (h.past x hx)) (hbefore seen h.cursor)).drop
    (List.dropWhile_sublist fun f => decide (MOVE_WINDOW_MS < r.now - f)) fun t ht hfresh => by
      refine mem_dropWhile_of_not ht (decide_eq_false ?_)
      unfold EdgeFresh EDGE_FRESH_MS at hfresh
      unfold MOVE_WINDOW_MS
      omega
  rw [← hmoves] at hkept
  have hle : ∀ x, counted x ∨ x = r.now → x ≤ r.now := fun x hx => hx.elim (fun hx => (hbefore x (h.past x hx)).le) Eq.le
  refine ⟨hkept, fun t ht => ?_, hlast.le, le_rfl, fun t ht => Or.inl ?_, Or.inl ?_⟩
  · rw [hlast]
    exact hle t (hkept.queue_pushed t ht)
  · rw [hlast]
    exact hle t ht
  · rw [hlast]
    exact (hbefore seen h.cursor).le

theorem CraneInv.read {r : Reading K} (h : CraneInv r.now counted logged e seen) (hpush : ¬ Pushes e r) :
    CraneInv r.now counted logged (ingest e r) seen := by
  obtain ⟨hmoves, hlast⟩ := ingest_of_not_pushes hpush
  refine ⟨by rw [hmoves]; exact h.kept, ?_, ?_, le_rfl, ?_, ?_⟩
  · rw [hmoves, hlast]
    exact h.moves_le
  · rw [hlast]
    exact h.last_le.trans h.seen_le
  · rw [hlast]
    exact h.past
  · rw [hlast]
    exact h.cursor

theorem craneInv_frame {inputs : List (Input K)} {f : String × Reading K} {crane : String} (hpos : 0 < f.2.now)
    {logged : ℤ → Prop} (h : CraneInv f.2.now (Counted inputs crane) logged ((after inputs).plc crane) seen) :
    CraneInv f.2.now (Counted (inputs ++ [.frame f]) crane) logged (ingestCtab (after inputs).plc f crane) seen := by
  have hcounted : Counted (inputs ++ [.frame f]) crane =
      fun x => Counted inputs crane x ∨ f.1 = crane ∧ Pushes ((after inputs).plc crane) f.2 ∧ f.2.now = x :=
    funext fun x => propext counted_append
  rw [hcounted, ingestCtab]
  by_cases hcrane : crane = f.1
  · subst hcrane
    rw [Function.update_self]
    by_cases hpush : Pushes ((after inputs).plc f.1) f.2
    · simp only [hpush, true_and, eq_comm (a := f.2.now)]
      exact h.push hpos hpush
    · simp only [hpush, false_and, and_false, or_false]
      exact h.read hpush
  · rw [Function.update_of_ne hcrane]
    simp only [Ne.symm hcrane, false_and, or_false]
    exact h

theorem craneInv_look {inputs : List (Input K)} {s : Shot} {crane : String} {counted : ℤ → Prop}
    (h : CraneInv s.scene.now counted (Logged inputs crane) ((after inputs).plc crane) ((after inputs).lastEdge crane)) :
    CraneInv s.scene.now counted (Logged (inputs ++ [.look s]) crane) ((after inputs).plc crane)
      ((lookQuay s (after inputs)).lastEdge crane) := by
  have hlogged : Logged (inputs ++ [.look s]) crane =
      fun x => Logged inputs crane x ∨ (crane, x) ∈ (edges s (after inputs)).map Edge.key :=
    funext fun x => propext logged_append
  simp only [hlogged, mem_edges_key]
  by_cases hvisit : crane ∈ (after inputs).cranes ∧ (s.scene.cranes crane).isSome = true
  · rw [lookQuay_lastEdge (quayInv_after inputs).nodup hvisit.1 hvisit.2]
    simp only [hvisit.1, hvisit.2, true_and]
    exact h.look
  · rw [lookQuay_lastEdge_of_not hvisit]
    simp only [← and_assoc, hvisit, false_and, or_false]
    exact h

/-- **Every input keeps the moves and the cursor of every crane.** -/
theorem craneInv_step {inputs : List (Input K)} {i : Input K} {crane : String} (hpos : 0 < i.now)
    (h : CraneInv i.now (Counted inputs crane) (Logged inputs crane) ((after inputs).plc crane)
      ((after inputs).lastEdge crane)) :
    CraneInv i.now (Counted (inputs ++ [i]) crane) (Logged (inputs ++ [i]) crane) ((after (inputs ++ [i])).plc crane)
      ((after (inputs ++ [i])).lastEdge crane) := by
  have hcounted : (∀ x, ¬ Counts (after inputs) i crane x) → Counted (inputs ++ [i]) crane = Counted inputs crane :=
    fun hno => funext fun x => propext (counted_append.trans (or_iff_left (hno x)))
  have hlogged : (step i (after inputs)).1 = [] → Logged (inputs ++ [i]) crane = Logged inputs crane := by
    intro hno
    refine funext fun x => propext (logged_append.trans (or_iff_left ?_))
    rw [hno]
    exact List.not_mem_nil
  rw [after_append]
  cases i with
  | frame f =>
    rw [hlogged rfl]
    exact craneInv_frame hpos h
  | prune now =>
    rw [hlogged rfl, hcounted fun _ => not_false]
    show CraneInv now _ _ (if _ then (after inputs).plc crane else Api.Cranes.unseen) ((after inputs).lastEdge crane)
    split_ifs with hkept
    · exact h
    · exact h.forget hpos fun hle => hkept (decide_eq_true hle)
  | look s =>
    rw [hcounted fun _ => not_false]
    exact craneInv_look h

/-! ## Runs -/

/-- **After every run the moves and the cursor of every crane are as they should be**, at any time from then on. -/
theorem craneInv_after {inputs : List (Input K)} (h : Ordered inputs) {now : ℤ} (hnow : ∀ i ∈ inputs, i.now ≤ now)
    (hpos : 0 < now) (crane : String) :
    CraneInv now (Counted inputs crane) (Logged inputs crane) ((after inputs).plc crane) ((after inputs).lastEdge crane) := by
  induction inputs using List.reverseRecOn generalizing now with
  | nil =>
    have hcounted : ∀ t, ¬ Counted ([] : List (Input K)) crane t := by
      rintro t ⟨before, f, rest, heq, -⟩
      exact absurd heq (by simp)
    have hlogged : ∀ t, ¬ Logged ([] : List (Input K)) crane t := fun t ht => absurd ht List.not_mem_nil
    exact {
      kept := ⟨List.Pairwise.nil, fun t ht => absurd ht List.not_mem_nil, fun t ht => absurd ht (hcounted t),
        fun t ht => absurd ht (hlogged t), fun t ht => absurd ht (hcounted t)⟩
      moves_le := fun t ht => absurd ht List.not_mem_nil
      last_le := le_rfl
      seen_le := hpos.le
      past := fun t ht => absurd ht (hcounted t)
      cursor := Or.inl le_rfl }
  | append_singleton inputs i ih =>
    obtain ⟨hinit, hle, hipos⟩ := h.init
    exact (craneInv_step hipos (ih hinit hle hipos)).age (hnow i (by simp))

theorem nodup_log {inputs : List (Input K)} (h : Ordered inputs) : ((log inputs).map Edge.key).Nodup := by
  induction inputs using List.reverseRecOn with
  | nil => exact List.nodup_nil
  | append_singleton inputs i ih =>
    obtain ⟨hinit, hle, hpos⟩ := h.init
    rw [log_append, List.map_append]
    cases i with
    | frame f =>
      show (_ ++ []).Nodup
      rw [List.append_nil]
      exact ih hinit
    | prune now =>
      show (_ ++ []).Nodup
      rw [List.append_nil]
      exact ih hinit
    | look s =>
      refine List.nodup_append.mpr ⟨ih hinit, ?_, ?_⟩
      · exact nodup_edges (quayInv_after inputs).nodup fun crane => (craneInv_after hinit hle hpos crane).kept.nodup_beyond
      · rintro ⟨crane, ts⟩ hold _ hnew rfl
        have hcrane := craneInv_after hinit hle hpos crane
        exact hcrane.kept.apart ts (mem_edges_key.mp hnew).2.2 hold

/-- **The log of the pickups.** In every run no move is logged twice; a row is of a move that was counted before, is no older
than the limit, and names the nearest truck that stands loaded at the crane; and a move is logged as soon as a look comes in
time that knows the work point of its crane. -/
theorem handover_log {inputs : List (Input K)} (h : Ordered inputs) :
    ((log inputs).map Edge.key).Nodup ∧
      ∀ before s rest, inputs = before ++ .look s :: rest →
        (∀ e ∈ edges s (after before), Counted before e.crane e.ts ∧ s.scene.now - e.ts ≤ EDGE_FRESH_MS ∧
          ∃ cpos, s.scene.cranes e.crane = some cpos ∧ Attributed s cpos e) ∧
        ∀ crane ts, Counted before crane ts → (s.scene.cranes crane).isSome = true → s.scene.now - ts ≤ EDGE_FRESH_MS →
          Logged (before ++ [.look s]) crane ts := by
  refine ⟨nodup_log h, fun before s rest heq => ?_⟩
  have hfront : Ordered (before ++ [.look s]) := by
    rw [heq, ← List.singleton_append, ← List.append_assoc] at h
    obtain ⟨horder, hpos⟩ := h
    rw [List.map_append, List.pairwise_append] at horder
    exact ⟨horder.1, fun i hi => hpos i (List.mem_append_left _ hi)⟩
  obtain ⟨hinit, hle, hpos⟩ := hfront.init
  refine ⟨fun e he => ?_, fun crane ts hcounted hwp hfresh => ?_⟩
  · obtain ⟨crane, -, hof⟩ := List.mem_flatMap.mp he
    obtain ⟨cpos, hcpos, ts, hts, rfl⟩ := mem_edgesOf.mp hof
    obtain ⟨hcrane, hedge⟩ := Prod.mk.inj (edgeOf_key s cpos crane ts)
    obtain ⟨hmem, hbeyond⟩ := List.mem_filter.mp hts
    rw [hcrane, hedge]
    exact ⟨(craneInv_after hinit hle hpos crane).kept.queue_pushed ts hmem, (of_decide_eq_true hbeyond).2, cpos, hcpos,
      edgeOf_attributed s cpos crane ts⟩
  · have hkept := (craneInv_after hinit hle hpos crane).kept
    rcases hkept.complete hcounted hfresh with hold | hnew
    · exact logged_append.mpr (Or.inl hold)
    · have hentry := mem_cranes (quayInv_after before) (hkept.fresh_mem ts hcounted hfresh)
      exact logged_append.mpr (Or.inr (mem_edges_key.mpr ⟨hentry, hwp, hnew⟩))

/-- A crane picks a box up, and a look three seconds later finds nobody at it. -/
def pickup : List (Input ℚ) := [.frame ("C39", ⟨2000, some 5⟩)]

def emptyQuay : Shot where
  devices := []
  nodup := List.nodup_nil
  assigned := fun _ => none
  scene := { dist := fun a b => |a.1 - b.1| + |a.2 - b.2|, rtgs := [], plc := fun _ => none, cranes := fun _ => some (1, 2),
             centroids := fun _ => none, soonIdleGateM := 0, now := 5000 }

theorem handover_log_pickup : Logged (pickup ++ [.look emptyQuay]) "C39" 2000 := by
  have hordered : Ordered (pickup ++ [.look emptyQuay]) := by
    refine ⟨?_, fun i hi => ?_⟩
    · show [2000, 5000].Pairwise (fun a b : ℤ => a ≤ b)
      decide
    · simp only [pickup, List.cons_append, List.nil_append, List.mem_cons, List.not_mem_nil, or_false] at hi
      rcases hi with rfl | rfl <;> decide
  have hcounted : Counted pickup "C39" 2000 := by
    refine ⟨[], ("C39", ⟨2000, some 5⟩), [], rfl, rfl, ⟨rfl, rfl, by decide⟩, rfl⟩
  exact ((handover_log hordered).2 pickup emptyQuay [] rfl).2 "C39" 2000 hcounted rfl (by decide)

end TtAiops.Dispatch.Handover
