import Mathlib

/-!
# Shortest paths by a queue

The arcs of a network may have negative costs, as long as potentials on the nodes leave no open arc a negative reduced cost.
Nodes whose distance has become less wait in a queue, and each arc remembers nothing but the last improvement of its end: the
search ends, and what it leaves is a tree of shortest paths.

* `Network`, `search` : the network and the loop;
* `Feasible` : potentials;
* `Chain` : the arcs back to the source, by the parents of the nodes;
* `Inv`, `relaxOne_inv`, `scan_inv` : the labels are those of a tree, at least what the potentials allow, and every node that
  is not in the queue has improved its ends;
* `search_ends` : **with enough fuel the search ends, in a tree of shortest paths**.
-/

namespace TtAiops.Lib

/-- A distance is less than another, which may be that of a node not reached. -/
def less (a b : WithTop ℤ) : Bool := @decide (a < b) (WithTop.decidableLT a b)

@[simp] theorem less_iff {a b : WithTop ℤ} : less a b = true ↔ a < b := decide_eq_true_iff

theorem exists_of_add_le {a : WithTop ℤ} {c x : ℤ} (h : a + c ≤ x) : ∃ y : ℤ, a = y ∧ y + c ≤ x := by
  cases a with
  | top =>
    rw [WithTop.top_add] at h
    exact absurd (top_le_iff.mp h) WithTop.coe_ne_top
  | coe y => exact ⟨y, rfl, WithTop.coe_le_coe.mp h⟩

/-- The arcs out of a node; the end of an arc, its twin the other way, and its cost. -/
structure Network (V E : Type) where
  out : V → List E
  dst : E → V
  twin : E → E
  cost : E → ℤ

/-- The distance of every node so far, the arc by which it was found, and the nodes that wait. -/
structure Labels (V E : Type) where
  dist : V → WithTop ℤ
  pe : V → Option E
  inQ : V → Bool
  q : List V

namespace Network
variable {V E : Type} (N : Network V E)

/-- An arc begins where its twin ends. -/
def src (e : E) : V := N.dst (N.twin e)

/-- The arcs come in pairs, and each is listed where it begins. -/
structure WellFormed (nodes : Finset V) : Prop where
  twin_twin : ∀ e, N.twin (N.twin e) = e
  twin_ne : ∀ e, N.twin e ≠ e
  cost_twin : ∀ e, N.cost (N.twin e) = -N.cost e
  src_eq : ∀ v, ∀ e ∈ N.out v, N.src e = v
  nodup : ∀ v, (N.out v).Nodup
  twin_mem : ∀ v, ∀ e ∈ N.out v, N.twin e ∈ N.out (N.dst e)
  dst_mem : ∀ v, ∀ e ∈ N.out v, N.dst e ∈ nodes

/-! ## The search -/

section search
variable [DecidableEq V] (cap : E → ℤ)

/-- One arc out of a node with the distance `du`. -/
def relaxOne (du : WithTop ℤ) (st : Labels V E) (e : E) : Labels V E :=
  if 0 < cap e then
    let v := N.dst e
    let nd := du + (N.cost e : ℤ)
    if less nd (st.dist v) then
      { dist := Function.update st.dist v nd
        pe := Function.update st.pe v (some e)
        inQ := Function.update st.inQ v true
        q := if st.inQ v then st.q else st.q ++ [v] }
    else st
  else st

/-- The first node leaves the queue, and improves the ends of its arcs. -/
def scan (u : V) (q : List V) (st : Labels V E) : Labels V E :=
  (N.out u).foldl (N.relaxOne cap (st.dist u)) { st with inQ := Function.update st.inQ u false, q := q }

/-- The loop; `none` if the fuel is used up. -/
def search : ℕ → Labels V E → Option (Labels V E)
  | 0, _ => none
  | fuel + 1, st =>
    match st.q with
    | [] => some st
    | u :: q => search fuel (N.scan cap u q st)

def startAt (s : V) : Labels V E where
  dist := Function.update (fun _ => ⊤) s 0
  pe := fun _ => none
  inQ := Function.update (fun _ => false) s true
  q := [s]

end search

/-! ## What holds during the search -/

def Feasible (cap : E → ℤ) (π : V → ℤ) : Prop := ∀ v, ∀ e ∈ N.out v, 0 < cap e → π (N.dst e) ≤ π v + N.cost e

/-- The arcs from a node back to the source. -/
inductive Chain (pe : V → Option E) (s : V) : V → List E → Prop
  | nil : Chain pe s s []
  | cons {v : V} {e : E} {p : List E} : v ≠ s → pe v = some e → Chain pe s (N.src e) p → Chain pe s v (e :: p)

variable (cap : E → ℤ) (π : V → ℤ) (s : V)

/-- While the arcs `todo` of the node `u` are still to be tried. -/
structure Inv (u : V) (todo : List E) (st : Labels V E) : Prop where
  source : st.dist s = 0
  lower : ∀ v, ((π v - π s : ℤ) : WithTop ℤ) ≤ st.dist v
  queued : ∀ v, st.inQ v = true → v ∈ st.q
  reached : ∀ v ∈ st.q, st.dist v ≠ ⊤
  relaxed : ∀ v, st.inQ v = false → ∀ e ∈ N.out v, 0 < cap e → (v = u → e ∉ todo) →
    st.dist (N.dst e) ≤ st.dist v + (N.cost e : ℤ)
  parent : ∀ v e, st.pe v = some e → e ∈ N.out (N.src e) ∧ 0 < cap e ∧ N.dst e = v ∧
    st.dist (N.src e) + (N.cost e : ℤ) ≤ st.dist v
  chain : ∀ v, st.dist v ≠ ⊤ → ∃ p, N.Chain st.pe s v p

section relax
variable [DecidableEq V] {N cap π s} {nodes : Finset V} {u : V} {e : E} {todo : List E} {st : Labels V E} {d : ℤ}

def improved (N : Network V E) (st : Labels V E) (d : ℤ) (e : E) : Labels V E where
  dist := Function.update st.dist (N.dst e) (d + N.cost e : ℤ)
  pe := Function.update st.pe (N.dst e) (some e)
  inQ := Function.update st.inQ (N.dst e) true
  q := if st.inQ (N.dst e) then st.q else st.q ++ [N.dst e]

/-- An open arc improves its end or does not; a closed one does nothing. -/
theorem relaxOne_cases (N : Network V E) (cap : E → ℤ) (st : Labels V E) (d : ℤ) (e : E) :
    (N.relaxOne cap d st e = st ∧ (0 < cap e → st.dist (N.dst e) ≤ (d + N.cost e : ℤ))) ∨
      (0 < cap e ∧ ((d + N.cost e : ℤ) : WithTop ℤ) < st.dist (N.dst e) ∧ N.relaxOne cap d st e = N.improved st d e) := by
  unfold relaxOne
  split
  case isTrue hopen =>
    dsimp only
    rw [← WithTop.coe_add]
    by_cases hless : ((d + N.cost e : ℤ) : WithTop ℤ) < st.dist (N.dst e)
    · rw [if_pos (less_iff.mpr hless)]
      exact Or.inr ⟨hopen, hless, rfl⟩
    · rw [if_neg (fun h => hless (less_iff.mp h))]
      exact Or.inl ⟨rfl, fun _ => le_of_not_gt hless⟩
  case isFalse hopen => exact Or.inl ⟨rfl, fun h => absurd h hopen⟩

/-- A node whose reduced distance is below that of the improved one does not go back through it. -/
theorem Inv.chain_keep (h : N.Inv cap π s u todo st) (hπ : N.Feasible cap π) {v w : V} {e : Option E} {p : List E}
    (hw : N.Chain st.pe s w p) {x : ℤ} (hx : st.dist w = x) (hlt : ((x - π w + π v : ℤ) : WithTop ℤ) < st.dist v) :
    N.Chain (Function.update st.pe v e) s w p := by
  induction hw generalizing x with
  | nil => exact Chain.nil
  | @cons w e' p hws hpe hp ih =>
    obtain ⟨hmem, hopen, hdst, hle⟩ := h.parent w e' hpe
    have hne : w ≠ v := by
      rintro rfl
      rw [hx] at hlt
      have := WithTop.coe_lt_coe.mp hlt
      omega
    rw [hx] at hle
    obtain ⟨y, hy, hle'⟩ := exists_of_add_le hle
    have hreduced := hπ (N.src e') e' hmem hopen
    rw [hdst] at hreduced
    apply Chain.cons hws
    · rw [Function.update_of_ne hne]
      exact hpe
    · apply ih hy
      refine lt_of_le_of_lt ?_ hlt
      exact_mod_cast (by omega : y - π (N.src e') + π v ≤ x - π w + π v)

@[simp] theorem improved_dist_self : (N.improved st d e).dist (N.dst e) = (d + N.cost e : ℤ) := Function.update_self _ _ _

@[simp] theorem improved_pe_self : (N.improved st d e).pe (N.dst e) = some e := Function.update_self _ _ _

@[simp] theorem improved_inQ_self : (N.improved st d e).inQ (N.dst e) = true := Function.update_self _ _ _

theorem improved_dist_of_ne {v : V} (hv : v ≠ N.dst e) : (N.improved st d e).dist v = st.dist v := Function.update_of_ne hv _ _

theorem improved_pe_of_ne {v : V} (hv : v ≠ N.dst e) : (N.improved st d e).pe v = st.pe v := Function.update_of_ne hv _ _

theorem improved_inQ_of_ne {v : V} (hv : v ≠ N.dst e) : (N.improved st d e).inQ v = st.inQ v := Function.update_of_ne hv _ _

theorem mem_improved_q (hq : st.inQ (N.dst e) = true → N.dst e ∈ st.q) {v : V} :
    v ∈ (N.improved st d e).q ↔ v ∈ st.q ∨ v = N.dst e := by
  unfold improved
  dsimp only
  split
  case isTrue hin =>
    constructor
    · intro hv
      exact Or.inl hv
    · intro hv
      obtain hv | rfl := hv
      · exact hv
      · exact hq hin
  case isFalse => simp

theorem improved_dist_le (hlt : ((d + N.cost e : ℤ) : WithTop ℤ) < st.dist (N.dst e)) (v : V) :
    (N.improved st d e).dist v ≤ st.dist v := by
  by_cases hv : v = N.dst e
  · rw [hv, improved_dist_self]
    exact hlt.le
  · rw [improved_dist_of_ne hv]

omit [DecidableEq V] in
theorem Inv.lower_le (h : N.Inv cap π s u todo st) (hu : st.dist u = d) : π u - π s ≤ d := by
  have hlower := h.lower u
  rw [hu] at hlower
  exact WithTop.coe_le_coe.mp hlower

omit [DecidableEq V] in
/-- An arc that improves its end ends in another node, which is not the source. -/
theorem Inv.end_ne (h : N.Inv cap π s u todo st) (hπ : N.Feasible cap π) (he : e ∈ N.out u) (hu : st.dist u = d)
    (hopen : 0 < cap e) (hlt : ((d + N.cost e : ℤ) : WithTop ℤ) < st.dist (N.dst e)) : u ≠ N.dst e ∧ s ≠ N.dst e := by
  have hreduced := hπ u e he hopen
  have hlower := h.lower_le hu
  constructor
  · intro heq
    rw [← heq] at hreduced hlt
    rw [hu] at hlt
    have := WithTop.coe_lt_coe.mp hlt
    omega
  · intro heq
    rw [← heq] at hreduced hlt
    rw [h.source] at hlt
    have : d + N.cost e < 0 := by exact_mod_cast hlt
    omega

omit [DecidableEq V] in
theorem Inv.relaxed_rest (h : N.Inv cap π s u (e :: todo) st) {v : V} {e' : E} (hv : st.inQ v = false) (he' : e' ∈ N.out v)
    (hopen : 0 < cap e') (htodo : v = u → e' ∉ todo) (hne : ¬ (v = u ∧ e' = e)) :
    st.dist (N.dst e') ≤ st.dist v + (N.cost e' : ℤ) := by
  apply h.relaxed v hv e' he' hopen
  intro hvu hmem
  obtain rfl | hmem := List.mem_cons.mp hmem
  · exact hne ⟨hvu, rfl⟩
  · exact htodo hvu hmem

/-- The node that is scanned goes back as before, and the improved end over it; so do all that went back over that end. -/
theorem Inv.chain_improve (h : N.Inv cap π s u todo st) (hwf : N.WellFormed nodes) (hπ : N.Feasible cap π)
    (he : e ∈ N.out u) (hu : st.dist u = d) (hopen : 0 < cap e)
    (hlt : ((d + N.cost e : ℤ) : WithTop ℤ) < st.dist (N.dst e)) {v : V} (hv : (N.improved st d e).dist v ≠ ⊤) :
    ∃ p, N.Chain (N.improved st d e).pe s v p := by
  have hreduced := hπ u e he hopen
  have hend : ∃ p, N.Chain (N.improved st d e).pe s (N.dst e) p := by
    obtain ⟨p, hp⟩ := h.chain u (by rw [hu]; exact WithTop.coe_ne_top)
    refine ⟨e :: p, Chain.cons (h.end_ne hπ he hu hopen hlt).2.symm improved_pe_self ?_⟩
    rw [hwf.src_eq u e he]
    apply h.chain_keep hπ hp hu (lt_of_le_of_lt _ hlt)
    exact_mod_cast (by omega : d - π u + π (N.dst e) ≤ d + N.cost e)
  have hold : ∀ {w p}, N.Chain st.pe s w p → ∃ p', N.Chain (N.improved st d e).pe s w p' := by
    intro w p hp
    induction hp with
    | nil => exact ⟨[], Chain.nil⟩
    | @cons w e' p hws hpe _ ih =>
      by_cases hw : w = N.dst e
      · rw [hw]
        exact hend
      · obtain ⟨p', hp'⟩ := ih
        exact ⟨e' :: p', Chain.cons hws ((improved_pe_of_ne hw).trans hpe) hp'⟩
  by_cases hvd : v = N.dst e
  · rw [hvd]
    exact hend
  · rw [improved_dist_of_ne hvd] at hv
    obtain ⟨p, hp⟩ := h.chain v hv
    exact hold hp

theorem Inv.improve (h : N.Inv cap π s u (e :: todo) st) (hwf : N.WellFormed nodes) (hπ : N.Feasible cap π)
    (he : e ∈ N.out u) (hu : st.dist u = d) (hopen : 0 < cap e)
    (hlt : ((d + N.cost e : ℤ) : WithTop ℤ) < st.dist (N.dst e)) : N.Inv cap π s u todo (N.improved st d e) := by
  obtain ⟨hne, hnes⟩ := h.end_ne hπ he hu hopen hlt
  have hle := improved_dist_le hlt
  refine ⟨?_, ?_, ?_, ?_, ?_, ?_, fun v hv => h.chain_improve hwf hπ he hu hopen hlt hv⟩
  · rw [improved_dist_of_ne hnes]
    exact h.source
  · intro v
    by_cases hv : v = N.dst e
    · have hreduced := hπ u e he hopen
      have hlower := h.lower_le hu
      rw [hv, improved_dist_self]
      exact_mod_cast (by omega : π (N.dst e) - π s ≤ d + N.cost e)
    · rw [improved_dist_of_ne hv]
      exact h.lower v
  · intro v hv
    apply (mem_improved_q (h.queued _)).mpr
    by_cases hvd : v = N.dst e
    · exact Or.inr hvd
    · rw [improved_inQ_of_ne hvd] at hv
      exact Or.inl (h.queued v hv)
  · intro v hv
    obtain hv | rfl := (mem_improved_q (h.queued _)).mp hv
    · exact ne_top_of_le_ne_top (h.reached v hv) (hle v)
    · rw [improved_dist_self]
      exact WithTop.coe_ne_top
  · intro v hv e' he' hopen' htodo
    have hvd : v ≠ N.dst e := by
      rintro rfl
      rw [improved_inQ_self] at hv
      cases hv
    rw [improved_inQ_of_ne hvd] at hv
    rw [improved_dist_of_ne hvd]
    by_cases hee : v = u ∧ e' = e
    · obtain ⟨rfl, rfl⟩ := hee
      rw [improved_dist_self, hu]
      exact le_rfl
    · exact (hle _).trans (h.relaxed_rest hv he' hopen' htodo hee)
  · intro v e' hpe
    by_cases hv : v = N.dst e
    · subst hv
      obtain rfl := Option.some.inj (improved_pe_self.symm.trans hpe)
      have hsrc := hwf.src_eq u e he
      refine ⟨by rw [hsrc]; exact he, hopen, rfl, ?_⟩
      rw [hsrc, improved_dist_of_ne hne, hu, improved_dist_self]
      exact le_rfl
    · rw [improved_pe_of_ne hv] at hpe
      obtain ⟨hmem, hopen', hdst, hle'⟩ := h.parent v e' hpe
      refine ⟨hmem, hopen', hdst, ?_⟩
      rw [improved_dist_of_ne hv]
      exact (add_le_add_left (hle _) _).trans hle'

theorem relaxOne_inv (h : N.Inv cap π s u (e :: todo) st) (hwf : N.WellFormed nodes) (hπ : N.Feasible cap π)
    (he : e ∈ N.out u) (hu : st.dist u = d) :
    N.Inv cap π s u todo (N.relaxOne cap d st e) ∧ (N.relaxOne cap d st e).dist u = d := by
  obtain ⟨hsame, hle⟩ | ⟨hopen, hlt, himproved⟩ := relaxOne_cases N cap st d e
  · rw [hsame]
    refine ⟨⟨h.source, h.lower, h.queued, h.reached, ?_, h.parent, h.chain⟩, hu⟩
    intro v hv e' he' hopen' htodo
    by_cases hee : v = u ∧ e' = e
    · obtain ⟨rfl, rfl⟩ := hee
      rw [hu]
      exact hle hopen'
    · exact h.relaxed_rest hv he' hopen' htodo hee
  · rw [himproved]
    refine ⟨h.improve hwf hπ he hu hopen hlt, ?_⟩
    rw [improved_dist_of_ne (h.end_ne hπ he hu hopen hlt).1]
    exact hu

theorem relax_inv (h : N.Inv cap π s u todo st) (hwf : N.WellFormed nodes) (hπ : N.Feasible cap π)
    (htodo : ∀ e ∈ todo, e ∈ N.out u) (hu : st.dist u = d) : N.Inv cap π s u [] (todo.foldl (N.relaxOne cap d) st) := by
  induction todo generalizing st with
  | nil => exact h
  | cons e todo ih =>
    obtain ⟨h', hu'⟩ := relaxOne_inv h hwf hπ (htodo e (by simp)) hu
    rw [List.foldl_cons]
    exact ih h' (fun e' he' => htodo e' (by simp [he'])) hu'

omit [DecidableEq V] in
theorem Inv.idle (h : N.Inv cap π s u [] st) (v : V) : N.Inv cap π s v [] st :=
  ⟨h.source, h.lower, h.queued, h.reached, fun x hx e he hopen _ => h.relaxed x hx e he hopen fun _ => List.not_mem_nil,
    h.parent, h.chain⟩

/-- The first node has left the queue, and its arcs are still to be tried. -/
theorem scan_left (h : N.Inv cap π s s [] st) {q : List V} (hq : st.q = u :: q) :
    N.Inv cap π s u (N.out u) { st with inQ := Function.update st.inQ u false, q := q } := by
  refine ⟨h.source, h.lower, ?_, ?_, ?_, h.parent, h.chain⟩
  · intro v hv
    have hvu : v ≠ u := by
      rintro rfl
      simp at hv
    have hmem := h.queued v (by simpa [hvu] using hv)
    rw [hq] at hmem
    exact (List.mem_cons.mp hmem).resolve_left hvu
  · intro v hv
    exact h.reached v (by rw [hq]; exact List.mem_cons_of_mem u hv)
  · intro v hv e he hopen htodo
    by_cases hvu : v = u
    · subst hvu
      exact absurd he (htodo rfl)
    · exact h.relaxed v (by simpa [hvu] using hv) e he hopen fun _ => List.not_mem_nil

theorem scan_inv (h : N.Inv cap π s s [] st) (hwf : N.WellFormed nodes) (hπ : N.Feasible cap π) {q : List V}
    (hq : st.q = u :: q) : N.Inv cap π s s [] (N.scan cap u q st) := by
  obtain ⟨d, hd⟩ := WithTop.ne_top_iff_exists.mp (h.reached u (by simp [hq]))
  unfold scan
  rw [← hd]
  exact (relax_inv (scan_left h hq) hwf hπ (fun e he => he) hd.symm).idle s

end relax

/-! ## The end of the search -/

section ends
variable [DecidableEq V] {N cap π s} {nodes : Finset V} {u : V} {e : E} {todo : List E} {st : Labels V E} {d : ℤ}

/-- How many nodes are not reached, and how far the others may still come down. -/
def level (nodes : Finset V) (π : V → ℤ) (s : V) (st : Labels V E) : ℕ ×ₗ ℕ :=
  toLex ((nodes.filter fun v => st.dist v = ⊤).card, ∑ v ∈ nodes, ((st.dist v).untopD (π v - π s) - (π v - π s)).toNat)

theorem level_improved (hmem : N.dst e ∈ nodes) (hlower : π (N.dst e) - π s ≤ d + N.cost e)
    (hlt : ((d + N.cost e : ℤ) : WithTop ℤ) < st.dist (N.dst e)) :
    level nodes π s (N.improved st d e) < level nodes π s st := by
  unfold level
  rw [Prod.Lex.toLex_lt_toLex]
  dsimp only
  cases hdist : st.dist (N.dst e) with
  | top =>
    apply Or.inl
    apply Finset.card_lt_card
    apply (Finset.ssubset_iff_of_subset _).mpr
    · refine ⟨N.dst e, Finset.mem_filter.mpr ⟨hmem, hdist⟩, ?_⟩
      simp
    · intro v hv
      obtain ⟨hv, hv'⟩ := Finset.mem_filter.mp hv
      exact Finset.mem_filter.mpr ⟨hv, top_le_iff.mp (hv' ▸ improved_dist_le hlt v)⟩
  | coe x =>
    rw [hdist] at hlt
    have hlt' : d + N.cost e < x := WithTop.coe_lt_coe.mp hlt
    apply Or.inr
    constructor
    · congr 1
      apply Finset.filter_congr
      intro v _
      by_cases hv : v = N.dst e
      · rw [hv, hdist, improved_dist_self]
        simp
      · rw [improved_dist_of_ne hv]
    · apply Finset.sum_lt_sum
      · intro v _
        by_cases hv : v = N.dst e
        · rw [hv, hdist, improved_dist_self]
          show (d + N.cost e - _).toNat ≤ (x - _).toNat
          omega
        · rw [improved_dist_of_ne hv]
      · refine ⟨N.dst e, hmem, ?_⟩
        rw [hdist, improved_dist_self]
        show (d + N.cost e - _).toNat < (x - _).toNat
        omega

/-- Trying arcs leaves distances and queue as they are, or the level goes down. -/
theorem level_relax (h : N.Inv cap π s u todo st) (hwf : N.WellFormed nodes) (hπ : N.Feasible cap π)
    (htodo : ∀ e ∈ todo, e ∈ N.out u) (hu : st.dist u = d) :
    ((todo.foldl (N.relaxOne cap d) st).dist = st.dist ∧ (todo.foldl (N.relaxOne cap d) st).q = st.q) ∨
      level nodes π s (todo.foldl (N.relaxOne cap d) st) < level nodes π s st := by
  induction todo generalizing st with
  | nil => exact Or.inl ⟨rfl, rfl⟩
  | cons e todo ih =>
    have he := htodo e (by simp)
    obtain ⟨h', hu'⟩ := relaxOne_inv h hwf hπ he hu
    have hrest := ih h' (fun e' he' => htodo e' (by simp [he'])) hu'
    rw [List.foldl_cons]
    obtain ⟨hsame, _⟩ | ⟨hopen, hlt, himproved⟩ := relaxOne_cases N cap st d e
    · rw [hsame] at hrest ⊢
      exact hrest
    · apply Or.inr
      have hreduced := hπ u e he hopen
      have hlower := h.lower_le hu
      have hone : level nodes π s (N.relaxOne cap d st e) < level nodes π s st := by
        rw [himproved]
        exact level_improved (hwf.dst_mem u e he) (by omega) hlt
      obtain ⟨hdist, _⟩ | hrest := hrest
      · refine lt_of_le_of_lt (le_of_eq ?_) hone
        unfold level
        rw [hdist]
      · exact hrest.trans hone

theorem level_scan (h : N.Inv cap π s s [] st) (hwf : N.WellFormed nodes) (hπ : N.Feasible cap π) {q : List V}
    (hq : st.q = u :: q) : toLex (level nodes π s (N.scan cap u q st), (N.scan cap u q st).q.length)
      < toLex (level nodes π s st, st.q.length) := by
  obtain ⟨d, hd⟩ := WithTop.ne_top_iff_exists.mp (h.reached u (by simp [hq]))
  have hscan := level_relax (scan_left h hq) hwf hπ (fun e he => he) hd.symm
  rw [Prod.Lex.toLex_lt_toLex]
  unfold scan
  rw [← hd]
  obtain ⟨hdist, hqueue⟩ | hlt := hscan
  · apply Or.inr
    constructor
    · unfold level
      rw [hdist]
    · dsimp only
      rw [hqueue, hq]
      simp
  · exact Or.inl hlt

theorem search_ends (hwf : N.WellFormed nodes) (hπ : N.Feasible cap π) (h : N.Inv cap π s s [] st) :
    ∃ fuel end', N.search cap fuel st = some end' ∧ N.Inv cap π s s [] end' ∧ end'.q = [] := by
  generalize hm : toLex (level nodes π s st, st.q.length) = m
  induction m using WellFoundedLT.induction generalizing st with
  | ind m ih =>
    subst hm
    cases hq : st.q with
    | nil => exact ⟨1, st, by rw [search, hq], h, hq⟩
    | cons u q =>
      obtain ⟨fuel, end', hsearch, hend⟩ := ih _ (level_scan h hwf hπ hq) (scan_inv h hwf hπ hq) rfl
      exact ⟨fuel + 1, end', by rw [search, hq]; exact hsearch, hend⟩

theorem search_mono {fuel more : ℕ} {end' : Labels V E} (hle : fuel ≤ more) (h : N.search cap fuel st = some end') :
    N.search cap more st = some end' := by
  induction fuel generalizing st more with
  | zero => cases h
  | succ fuel ih =>
    obtain ⟨more, rfl⟩ : ∃ n, more = n + 1 := ⟨more - 1, by omega⟩
    rw [search] at h ⊢
    cases hq : st.q with
    | nil =>
      rw [hq] at h
      exact h
    | cons u q =>
      rw [hq] at h
      exact ih (by omega) h

variable (N cap π s) in
theorem startAt_inv : N.Inv cap π s s [] (startAt s) := by
  have hdist : ∀ v, (startAt s : Labels V E).dist v = if v = s then 0 else ⊤ := by
    intro v
    show (Function.update (fun _ => ⊤) s 0 : V → WithTop ℤ) v = _
    rw [Function.update_apply]
  have hinQ : ∀ v, (startAt s : Labels V E).inQ v = if v = s then true else false := by
    intro v
    show (Function.update (fun _ => false) s true : V → Bool) v = _
    rw [Function.update_apply]
  refine ⟨by simp [hdist], ?_, ?_, ?_, ?_, ?_, ?_⟩
  · intro v
    rw [hdist]
    split
    · rename_i hv
      rw [hv, sub_self]
      exact le_rfl
    · exact le_top
  · intro v hv
    rw [hinQ] at hv
    split at hv
    · rename_i hvs
      rw [hvs]
      exact List.mem_singleton_self s
    · cases hv
  · intro v hv
    rw [hdist, if_pos (List.mem_singleton.mp hv)]
    exact WithTop.zero_ne_top
  · intro v hv e _ _ _
    rw [hinQ] at hv
    split at hv
    · cases hv
    · rw [hdist v, if_neg ‹_›, WithTop.top_add]
      exact le_top
  · intro v e hpe
    cases hpe
  · intro v hv
    rw [hdist] at hv
    split at hv
    · rename_i hvs
      rw [hvs]
      exact ⟨[], Chain.nil⟩
    · exact absurd rfl hv

variable (N cap π s) in
/-- A tree of shortest paths: each parent arc is tight, and none is left to improve its end. -/
structure Shortest (st : Labels V E) : Prop where
  source : st.dist s = 0
  relaxed : ∀ v, ∀ e ∈ N.out v, 0 < cap e → st.dist (N.dst e) ≤ st.dist v + (N.cost e : ℤ)
  tight : ∀ v e, st.pe v = some e → e ∈ N.out (N.src e) ∧ 0 < cap e ∧ N.dst e = v ∧
    st.dist v = st.dist (N.src e) + (N.cost e : ℤ)
  chain : ∀ v, st.dist v ≠ ⊤ → ∃ p, N.Chain st.pe s v p

/-- **With enough fuel the search ends, in a tree of shortest paths.** -/
theorem search_shortest (hwf : N.WellFormed nodes) (hπ : N.Feasible cap π) :
    ∃ fuel end', (∀ more, fuel ≤ more → N.search cap more (startAt s) = some end') ∧ N.Shortest cap s end' := by
  obtain ⟨fuel, end', hsearch, h, hq⟩ := search_ends hwf hπ (startAt_inv N cap π s)
  have hrelaxed : ∀ v, ∀ e ∈ N.out v, 0 < cap e → end'.dist (N.dst e) ≤ end'.dist v + (N.cost e : ℤ) := by
    intro v e he hopen
    have hout : end'.inQ v = false := by
      by_contra hin
      have := h.queued v (by simpa using hin)
      rw [hq] at this
      exact absurd this List.not_mem_nil
    exact h.relaxed v hout e he hopen fun _ => List.not_mem_nil
  refine ⟨fuel, end', fun more hle => search_mono hle hsearch, h.source, hrelaxed, ?_, h.chain⟩
  intro v e hpe
  obtain ⟨hmem, hopen, hdst, hle⟩ := h.parent v e hpe
  refine ⟨hmem, hopen, hdst, le_antisymm ?_ hle⟩
  rw [← hdst]
  exact hrelaxed _ e hmem hopen

end ends

end Network

end TtAiops.Lib
