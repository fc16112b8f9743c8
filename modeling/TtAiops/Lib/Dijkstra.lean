import Mathlib

/-!
# Shortest paths with a heap that keeps old entries

A search from a source takes the earliest entry off a heap, passes over it if the node has a better time by now, and else
tries every edge out of the node; a node with a better time gets a new label and a new entry, and its old entries stay.

* `MinHeap`, `sortedHeap` : a heap of which only the least entry is known to come first, and a sorted list as one;
* `relax`, `search` : trying the edges out of a node, and the loop, up to a node at which it stops; `start` : its start;
* `Walk` : the directed walks from the source, with their times and lengths;
* `Inv` : the invariant, with the nodes that have been settled, the last first; `relaxOne_inv`, `pop_stale`, `pop_fresh` :
  it holds after every step;
* `frontier` : a walk ends in a settled node that is no later, or the heap has an entry that is no later;
* `search_some`, `search_exhausted`, `search_stopped` : **the search ends, and what it has found is the least time**;
* `Inv.induct` : what holds of the source and along the edges by which labels are made holds of every labelled node.
-/

namespace TtAiops.Lib.Dijkstra

variable {V T D L : Type}

/-- An edge to a node, with its time and its length. -/
structure Edge (V T D : Type) where
  dest : V
  time : T
  dist : D

/-- A heap that gives out an entry with the least first component; which of several is left open. -/
structure MinHeap (T V : Type) [LinearOrder T] where
  Heap : Type
  empty : Heap
  push : Heap → T × V → Heap
  pop : Heap → Option ((T × V) × Heap)
  items : Heap → Multiset (T × V)
  items_empty : items empty = 0
  items_push : ∀ h a, items (push h a) = a ::ₘ items h
  pop_none : ∀ h, pop h = none → items h = 0
  pop_some : ∀ h a h', pop h = some (a, h') → items h = a ::ₘ items h' ∧ ∀ b ∈ items h', a.1 ≤ b.1

def sortedHeap (T V : Type) [LinearOrder T] : MinHeap T V where
  Heap := {l : List (T × V) // l.Pairwise fun a b => a.1 ≤ b.1}
  empty := ⟨[], List.Pairwise.nil⟩
  push h a := ⟨h.1.orderedInsert (fun a b => a.1 ≤ b.1) a, by
    have : IsTrans (T × V) fun a b => a.1 ≤ b.1 := ⟨fun _ _ _ => le_trans⟩
    have : Std.Total fun a b : T × V => a.1 ≤ b.1 := ⟨fun a b => le_total a.1 b.1⟩
    exact h.2.orderedInsert a h.1⟩
  pop
    | ⟨[], _⟩ => none
    | ⟨a :: l, h⟩ => some (a, ⟨l, (List.pairwise_cons.mp h).2⟩)
  items h := (h.1 : Multiset (T × V))
  items_empty := rfl
  items_push h a := Multiset.coe_eq_coe.mpr (List.perm_orderedInsert _ a h.1)
  pop_none := by
    rintro ⟨l, hl⟩ hpop
    cases l with
    | nil => rfl
    | cons a l => exact absurd hpop (Option.some_ne_none _)
  pop_some := by
    rintro ⟨l, hl⟩ a h' hpop
    cases l with
    | nil => exact absurd hpop.symm (Option.some_ne_none _)
    | cons b l =>
      obtain ⟨rfl, rfl⟩ := Prod.mk_inj.mp (Option.some.inj hpop)
      exact ⟨rfl, (List.pairwise_cons.mp hl).1⟩

section Search

variable [DecidableEq V] [LinearOrder T] [AddCommMonoid T] (Q : MinHeap T V) (out : V → List (Edge V T D))
  (ext : L → V → D → L) (stop : V → Bool)

/-- The best time of every node so far, its label, and the heap. -/
structure State (L : Type) where
  best : V → WithTop T
  label : V → L
  heap : Q.Heap

variable {Q}

/-- An edge out of the node `v`, which has been taken off the heap with the time `c`. -/
def relaxOne (v : V) (c : T) (st : State Q L) (e : Edge V T D) : State Q L :=
  if (↑(c + e.time) : WithTop T) < st.best e.dest then
    { best := Function.update st.best e.dest ↑(c + e.time)
      label := Function.update st.label e.dest (ext (st.label v) v e.dist)
      heap := Q.push st.heap (c + e.time, e.dest) }
  else st

/-- All edges out of the node. -/
def relax (v : V) (c : T) (st : State Q L) : State Q L := (out v).foldl (relaxOne ext v c) st

/-- The loop: what it has stopped at, if not at the end of the heap, and the state then; `none` if the fuel is used up. -/
def search : ℕ → State Q L → Option (Option (T × V) × State Q L)
  | 0, _ => none
  | fuel + 1, st =>
    match Q.pop st.heap with
    | none => some (none, st)
    | some ((c, v), heap) =>
      if stop v then some (some (c, v), { st with heap := heap })
      else if st.best v < c then search fuel { st with heap := heap }
      else search fuel (relax out ext v c { st with heap := heap })

/-- The start at the source `s`; every node has the label `l`. -/
def start (Q : MinHeap T V) (s : V) (l : L) : State Q L where
  best := Function.update (fun _ => ⊤) s 0
  label := fun _ => l
  heap := Q.push Q.empty (0, s)

end Search

section Walks

variable [AddCommMonoid T] [AddMonoid D] (out : V → List (Edge V T D)) (s : V)

/-- The directed walks from `s` to a node, with their time and length. -/
inductive Walk : V → T → D → Prop
  | nil : Walk s 0 0
  | snoc {v : V} {t : T} {d : D} {e : Edge V T D} : Walk v t d → e ∈ out v → Walk e.dest (t + e.time) (d + e.dist)

end Walks

section Invariant

variable [LinearOrder T] [AddCommMonoid T] {Q : MinHeap T V} (out : V → List (Edge V T D))
  (ext : L → V → D → L) (stop : V → Bool) (s : V) (l : L)

/-- The label of a node is that of the source, or made by an edge out of one of the nodes `S`. -/
def Stems (st : State Q L) (S : List V) (v : V) : Prop :=
  (v = s ∧ st.best v = 0 ∧ st.label v = l) ∨
    ∃ u ∈ S, ∃ e ∈ out u, e.dest = v ∧ st.best v = st.best u + e.time ∧ st.label v = ext (st.label u) u e.dist

/-- The invariant. The nodes `S` have been settled, the last first, by the time `c`; of the last the edges `todo` have still
to be tried. -/
structure Inv (S : List V) (c : T) (todo : List (Edge V T D)) (st : State Q L) : Prop where
  settled : S.Nodup
  zero_le : 0 ≤ c
  source : st.best s = 0
  nodup : (Q.items st.heap).Nodup
  le_entry : ∀ x u, (x, u) ∈ Q.items st.heap → st.best u ≤ x
  open_entry : ∀ u ∉ S, ∀ x : T, st.best u = x → (x, u) ∈ Q.items st.heap
  closed_entry : ∀ u ∈ S, ∀ x, (x, u) ∈ Q.items st.heap → st.best u < x
  floor : ∀ x u, (x, u) ∈ Q.items st.heap → c ≤ x
  closed_le : ∀ u ∈ S, st.best u ≤ c
  relaxed : ∀ u ∈ S, ∀ e ∈ out u, (S.head? = some u ∧ e ∈ todo) ∨ st.best e.dest ≤ st.best u + e.time
  closed_stem : ∀ u S', u :: S' <:+ S → Stems out ext s l st S' u
  open_stem : ∀ u ∉ S, st.best u ≠ ⊤ → Stems out ext s l st S u
  go_on : ∀ u ∈ S, stop u = false

variable {out ext stop s l} {S : List V} {c : T} {todo : List (Edge V T D)} {st : State Q L} {v : V}

theorem Stems.mono {S' : List V} (h : Stems out ext s l st S v) (hsub : ∀ u ∈ S, u ∈ S') : Stems out ext s l st S' v := by
  rcases h with h | ⟨u, hu, h⟩
  · exact Or.inl h
  · exact Or.inr ⟨u, hsub u hu, h⟩

/-- A label is made as before, if the state has not changed at the node nor at the nodes `S`. -/
theorem Stems.congr {st' : State Q L} (h : Stems out ext s l st S v) (hbest : ∀ u, u = v ∨ u ∈ S → st'.best u = st.best u)
    (hlabel : ∀ u, u = v ∨ u ∈ S → st'.label u = st.label u) : Stems out ext s l st' S v := by
  unfold Stems
  rw [hbest v (Or.inl rfl), hlabel v (Or.inl rfl)]
  rcases h with h | ⟨u, hu, e, he, hdest, hb, hl⟩
  · exact Or.inl h
  · refine Or.inr ⟨u, hu, e, he, hdest, ?_, ?_⟩
    · rw [hbest u (Or.inr hu)]
      exact hb
    · rw [hlabel u (Or.inr hu)]
      exact hl

theorem Inv.closed_ne_top (h : Inv out ext stop s l S c todo st) {u : V} (hu : u ∈ S) : st.best u ≠ ⊤ :=
  ne_top_of_le_ne_top (WithTop.coe_ne_top) (h.closed_le u hu)

theorem Inv.tried {e : Edge V T D} (h : Inv out ext stop s l (v :: S) c (e :: todo) st)
    (hdone : st.best e.dest ≤ st.best v + e.time) : Inv out ext stop s l (v :: S) c todo st := by
  refine ⟨h.settled, h.zero_le, h.source, h.nodup, h.le_entry, h.open_entry, h.closed_entry, h.floor, h.closed_le, ?_,
    h.closed_stem, h.open_stem, h.go_on⟩
  intro u hu e' he'
  rcases h.relaxed u hu e' he' with ⟨hhead, htodo⟩ | hdone'
  · rcases List.mem_cons.mp htodo with rfl | htodo
    · obtain rfl : v = u := Option.some.inj hhead
      exact Or.inr hdone
    · exact Or.inl ⟨hhead, htodo⟩
  · exact Or.inr hdone'

theorem Inv.source_label (h : Inv out ext stop s l S c todo st) : st.label s = l := by
  have hfirst : ∀ v, Stems out ext s l st [] v → v = s ∧ st.label v = l := by
    rintro v (⟨hv, -, hl⟩ | ⟨u, hu, -⟩)
    · exact ⟨hv, hl⟩
    · exact absurd hu List.not_mem_nil
  rcases List.eq_nil_or_concat S with rfl | ⟨S', u, rfl⟩
  · exact (hfirst s (h.open_stem s List.not_mem_nil (by simp [h.source]))).2
  · obtain ⟨rfl, hl⟩ := hfirst u (h.closed_stem u [] (by simp))
    exact hl

/-- **What holds of the source and along the edges by which labels are made holds of every labelled node.** -/
theorem Inv.induct (h : Inv out ext stop s l S c todo st) {P : V → Prop} (hs : st.label s = l → P s)
    (hstep : ∀ u v, ∀ e ∈ out u, e.dest = v → st.best v = st.best u + e.time → st.label v = ext (st.label u) u e.dist →
      st.best u ≠ ⊤ → P u → P v)
    (hv : st.best v ≠ ⊤) : P v := by
  have hstems : ∀ S' v, (∀ u ∈ S', st.best u ≠ ⊤ ∧ P u) → Stems out ext s l st S' v → P v := by
    rintro S' v hS' (⟨rfl, -, hl⟩ | ⟨u, hu, e, he, hdest, hbest, hlabel⟩)
    · exact hs hl
    · exact hstep u v e he hdest hbest hlabel (hS' u hu).1 (hS' u hu).2
  have hclosed : ∀ S', S' <:+ S → ∀ u ∈ S', P u := by
    intro S'
    induction S' with
    | nil => exact fun _ u hu => absurd hu List.not_mem_nil
    | cons w S' ih =>
      intro hsuffix u hu
      have hrest : S' <:+ S := (List.suffix_cons w S').trans hsuffix
      rcases List.mem_cons.mp hu with rfl | hu
      · exact hstems S' u (fun x hx => ⟨h.closed_ne_top (hrest.subset hx), ih hrest x hx⟩) (h.closed_stem u S' hsuffix)
      · exact ih hrest u hu
  by_cases hmem : v ∈ S
  · exact hclosed S List.suffix_rfl v hmem
  · exact hstems S v (fun u hu => ⟨h.closed_ne_top hu, hclosed S List.suffix_rfl u hu⟩) (h.open_stem v hmem hv)

end Invariant

section Pops

variable [LinearOrder T] [AddCommMonoid T] {Q : MinHeap T V} {out : V → List (Edge V T D)} {ext : L → V → D → L}
  {stop : V → Bool} {s : V} {l : L} {S : List V} {c c' : T} {st : State Q L} {v : V} {heap : Q.Heap}

theorem Inv.floor_le (h : Inv out ext stop s l S c [] st) (hpop : Q.pop st.heap = some ((c', v), heap)) : c ≤ c' := by
  apply h.floor c' v
  rw [(Q.pop_some _ _ _ hpop).1]
  exact Multiset.mem_cons_self _ _

/-- **An old entry is passed over.** -/
theorem pop_stale (h : Inv out ext stop s l S c [] st) (hpop : Q.pop st.heap = some ((c', v), heap))
    (hstale : st.best v < c') : Inv out ext stop s l S c' [] { st with heap := heap } := by
  obtain ⟨hitems, hleast⟩ := Q.pop_some _ _ _ hpop
  have hcc := h.floor_le hpop
  have hsub : ∀ a ∈ Q.items heap, a ∈ Q.items st.heap := fun a ha => by
    rw [hitems]
    exact Multiset.mem_cons_of_mem ha
  refine ⟨h.settled, h.zero_le.trans hcc, h.source, ?_, fun x u hin => h.le_entry x u (hsub _ hin), ?_,
    fun u hu x hin => h.closed_entry u hu x (hsub _ hin), fun x u hin => hleast (x, u) hin,
    fun u hu => (h.closed_le u hu).trans (WithTop.coe_le_coe.mpr hcc), h.relaxed, h.closed_stem, h.open_stem, h.go_on⟩
  · have hnodup := h.nodup
    rw [hitems] at hnodup
    exact (Multiset.nodup_cons.mp hnodup).2
  · intro u hu x hx
    have hin := h.open_entry u hu x hx
    rw [hitems] at hin
    rcases Multiset.mem_cons.mp hin with heq | hin
    · obtain ⟨rfl, rfl⟩ := Prod.mk_inj.mp heq
      exact absurd hx hstale.ne
    · exact hin

/-- The node of an entry that is not old has not been settled, and the entry has its best time. -/
theorem Inv.fresh (h : Inv out ext stop s l S c [] st) (hpop : Q.pop st.heap = some ((c', v), heap))
    (hfresh : ¬ st.best v < c') : v ∉ S ∧ st.best v = c' := by
  have hin : (c', v) ∈ Q.items st.heap := by
    rw [(Q.pop_some _ _ _ hpop).1]
    exact Multiset.mem_cons_self _ _
  exact ⟨fun hv => hfresh (h.closed_entry v hv c' hin), le_antisymm (h.le_entry c' v hin) (not_lt.mp hfresh)⟩

/-- **A node is settled.** -/
theorem pop_fresh (h : Inv out ext stop s l S c [] st) (hpop : Q.pop st.heap = some ((c', v), heap))
    (hfresh : ¬ st.best v < c') (hgo : stop v = false) :
    Inv out ext stop s l (v :: S) c' (out v) { st with heap := heap } := by
  obtain ⟨hitems, hleast⟩ := Q.pop_some _ _ _ hpop
  obtain ⟨hopen, hbest⟩ := h.fresh hpop hfresh
  have hcc := h.floor_le hpop
  have hsub : ∀ a ∈ Q.items heap, a ∈ Q.items st.heap := fun a ha => by
    rw [hitems]
    exact Multiset.mem_cons_of_mem ha
  have hnodup := h.nodup
  rw [hitems] at hnodup
  obtain ⟨hgone, hnodup'⟩ := Multiset.nodup_cons.mp hnodup
  refine ⟨List.nodup_cons.mpr ⟨hopen, h.settled⟩, h.zero_le.trans hcc, h.source, hnodup',
    fun x u hin => h.le_entry x u (hsub _ hin), ?_, ?_,
    fun x u hin => hleast (x, u) hin, ?_, ?_, ?_, ?_, List.forall_mem_cons.mpr ⟨hgo, h.go_on⟩⟩
  · intro u hu x hx
    have hin := h.open_entry u (fun hu' => hu (List.mem_cons_of_mem _ hu')) x hx
    rw [hitems] at hin
    rcases Multiset.mem_cons.mp hin with heq | hin
    · obtain ⟨rfl, rfl⟩ := Prod.mk_inj.mp heq
      exact absurd List.mem_cons_self hu
    · exact hin
  · intro u hu x hin
    rcases List.mem_cons.mp hu with rfl | hu
    · -- the entry with the best time is gone, and there was only one
      refine lt_of_le_of_ne (h.le_entry x u (hsub _ hin)) fun heq => hgone ?_
      have hx : c' = x := WithTop.coe_inj.mp (hbest.symm.trans heq)
      rw [hx]
      exact hin
    · exact h.closed_entry u hu x (hsub _ hin)
  · intro u hu
    rcases List.mem_cons.mp hu with rfl | hu
    · exact hbest.le
    · exact (h.closed_le u hu).trans (WithTop.coe_le_coe.mpr hcc)
  · intro u hu e he
    rcases List.mem_cons.mp hu with rfl | hu
    · exact Or.inl ⟨rfl, he⟩
    · rcases h.relaxed u hu e he with ⟨-, hnil⟩ | hdone
      · exact absurd hnil List.not_mem_nil
      · exact Or.inr hdone
  · intro u S' hsuffix
    rcases List.suffix_cons_iff.mp hsuffix with heq | hsuffix
    · obtain ⟨rfl, rfl⟩ := List.cons.inj heq
      exact h.open_stem u hopen (by rw [hbest]; exact WithTop.coe_ne_top)
    · exact h.closed_stem u S' hsuffix
  · intro u hu htop
    exact (h.open_stem u (fun hu' => hu (List.mem_cons_of_mem _ hu')) htop).mono fun w hw => List.mem_cons_of_mem _ hw

/-- The entry at which the search stops has the best time of its node. -/
theorem Inv.stopped (h : Inv out ext stop s l S c [] st) (hpop : Q.pop st.heap = some ((c', v), heap))
    (hstop : stop v = true) : v ∉ S ∧ st.best v = c' := by
  obtain ⟨hitems, hleast⟩ := Q.pop_some _ _ _ hpop
  have hopen : v ∉ S := fun hv => by
    rw [h.go_on v hv] at hstop
    exact absurd hstop Bool.false_ne_true
  have hle : st.best v ≤ c' := by
    apply h.le_entry c' v
    rw [hitems]
    exact Multiset.mem_cons_self _ _
  obtain ⟨x, hx⟩ := WithTop.ne_top_iff_exists.mp (ne_top_of_le_ne_top WithTop.coe_ne_top hle)
  have hin := h.open_entry v hopen x hx.symm
  rw [hitems] at hin
  rcases Multiset.mem_cons.mp hin with heq | hin
  · rw [← hx, (Prod.mk_inj.mp heq).1]
    exact ⟨hopen, rfl⟩
  · refine ⟨hopen, le_antisymm hle ?_⟩
    rw [← hx]
    exact WithTop.coe_le_coe.mpr (hleast _ hin)

/-- Every best time is the time of a walk; what holds of the labels and the lengths along the edges holds of its length. -/
theorem Inv.walk [AddMonoid D] (h : Inv out ext stop s l S c todo st) {R : L → D → Prop} (hsource : R l 0)
    (hstep : ∀ lab u d, ∀ e ∈ out u, R lab d → R (ext lab u e.dist) (d + e.dist)) (hv : st.best v ≠ ⊤) :
    ∃ (t : T) (d : D), st.best v = t ∧ R (st.label v) d ∧ Walk out s v t d := by
  refine h.induct (P := fun v => ∃ (t : T) (d : D), st.best v = t ∧ R (st.label v) d ∧ Walk out s v t d) ?_ ?_ hv
  · intro hl
    refine ⟨0, 0, h.source, ?_, Walk.nil⟩
    rw [hl]
    exact hsource
  · rintro u v e he rfl hbest hlabel - ⟨t, d, ht, hR, hwalk⟩
    refine ⟨t + e.time, d + e.dist, ?_, ?_, hwalk.snoc he⟩
    · rw [hbest, ht, WithTop.coe_add]
    · rw [hlabel]
      exact hstep _ u d e he hR

end Pops

section Walks

variable [LinearOrder T] [AddCommMonoid T] [IsOrderedAddMonoid T] [AddMonoid D] {Q : MinHeap T V} {out : V → List (Edge V T D)}
  {ext : L → V → D → L} {stop : V → Bool} {s : V} {l : L} {S : List V} {c : T} {st : State Q L} {v : V} {t : T} {d : D}

/-- **The frontier**: a walk ends in a settled node whose best time is no later, or there is an entry that is no later. -/
theorem frontier (hnonneg : ∀ v, ∀ e ∈ out v, 0 ≤ e.time) (h : Inv out ext stop s l S c [] st)
    (hwalk : Walk out s v t d) : (v ∈ S ∧ st.best v ≤ t) ∨ ∃ x u, (x, u) ∈ Q.items st.heap ∧ x ≤ t := by
  induction hwalk with
  | nil =>
    by_cases hs : s ∈ S
    · exact Or.inl ⟨hs, h.source.le⟩
    · exact Or.inr ⟨0, s, h.open_entry s hs 0 h.source, le_rfl⟩
  | @snoc v t d e _ he ih =>
    have hle : t ≤ t + e.time := le_add_of_nonneg_right (hnonneg v e he)
    rcases ih with ⟨hv, hbest⟩ | ⟨x, u, hin, hx⟩
    · have hdest : st.best e.dest ≤ ↑(t + e.time) := by
        rcases h.relaxed v hv e he with ⟨-, hnil⟩ | hdone
        · exact absurd hnil List.not_mem_nil
        · rw [WithTop.coe_add]
          exact hdone.trans (add_le_add hbest le_rfl)
      by_cases hin : e.dest ∈ S
      · exact Or.inl ⟨hin, hdest⟩
      · obtain ⟨x, hx⟩ := WithTop.ne_top_iff_exists.mp (ne_top_of_le_ne_top WithTop.coe_ne_top hdest)
        refine Or.inr ⟨x, e.dest, h.open_entry _ hin x hx.symm, ?_⟩
        rw [← hx] at hdest
        exact WithTop.coe_le_coe.mp hdest
    · exact Or.inr ⟨x, u, hin, hx.trans hle⟩

/-- **At the end of the heap the best times are the least**, and a node without one cannot be reached. -/
theorem search_exhausted (hnonneg : ∀ v, ∀ e ∈ out v, 0 ≤ e.time) (h : Inv out ext stop s l S c [] st)
    (hempty : Q.items st.heap = 0)  (hwalk : Walk out s v t d) : v ∈ S ∧ st.best v ≤ t := by
  rcases frontier hnonneg h hwalk with hsettled | ⟨x, u, hin, -⟩
  · exact hsettled
  · rw [hempty] at hin
    exact absurd hin (Multiset.notMem_zero _)

/-- **Where the search stops, the time of the entry is the least.** -/
theorem search_stopped (hnonneg : ∀ v, ∀ e ∈ out v, 0 ≤ e.time) (h : Inv out ext stop s l S c [] st) {x : T}
    {heap : Q.Heap} (hpop : Q.pop st.heap = some ((x, v), heap)) (hstop : stop v = true)
    (hwalk : Walk out s v t d) : x ≤ t := by
  obtain ⟨hitems, hleast⟩ := Q.pop_some _ _ _ hpop
  rcases frontier hnonneg h hwalk with ⟨hsettled, -⟩ | ⟨y, u, hin, hy⟩
  · exact absurd hsettled (h.stopped hpop hstop).1
  · rw [hitems] at hin
    rcases Multiset.mem_cons.mp hin with heq | hin
    · rw [← (Prod.mk_inj.mp heq).1]
      exact hy
    · exact (hleast _ hin).trans hy

end Walks

section Improve

variable [DecidableEq V] [LinearOrder T] {Q : MinHeap T V} {st : State Q L} {u w : V} {x : T} {lab : L}

/-- The node `u` gets a better time and a new label. -/
def State.improve (st : State Q L) (u : V) (x : T) (lab : L) : State Q L where
  best := Function.update st.best u x
  label := Function.update st.label u lab
  heap := Q.push st.heap (x, u)

@[simp] theorem improve_best_self : (st.improve u x lab).best u = x := Function.update_self ..

@[simp] theorem improve_label_self : (st.improve u x lab).label u = lab := Function.update_self ..

theorem improve_best_of_ne (h : w ≠ u) : (st.improve u x lab).best w = st.best w := Function.update_of_ne h _ _

theorem improve_label_of_ne (h : w ≠ u) : (st.improve u x lab).label w = st.label w := Function.update_of_ne h _ _

theorem improve_best_le (hlt : ↑x < st.best u) (lab : L) (w : V) : (st.improve u x lab).best w ≤ st.best w := by
  by_cases hw : w = u
  · rw [hw, improve_best_self]
    exact hlt.le
  · rw [improve_best_of_ne hw]

theorem mem_items_improve {y : T} :
    (y, w) ∈ Q.items (st.improve u x lab).heap ↔ (y = x ∧ w = u) ∨ (y, w) ∈ Q.items st.heap := by
  show (y, w) ∈ Q.items (Q.push st.heap (x, u)) ↔ _
  rw [Q.items_push, Multiset.mem_cons, Prod.mk_inj]

theorem Stems.improve [AddCommMonoid T] {out : V → List (Edge V T D)} {ext : L → V → D → L} {s : V} {l : L} {S : List V}
    (h : Stems out ext s l st S w) (hne : ∀ y, y = w ∨ y ∈ S → y ≠ u) :
    Stems out ext s l (st.improve u x lab) S w :=
  h.congr (fun y hy => improve_best_of_ne (hne y hy)) fun y hy => improve_label_of_ne (hne y hy)

end Improve

section Steps

variable [DecidableEq V] [LinearOrder T] [AddCommMonoid T] [IsOrderedAddMonoid T] {Q : MinHeap T V}
  {out : V → List (Edge V T D)} {ext : L → V → D → L} {stop : V → Bool} {s : V} {l : L} {S : List V} {c : T}
  {todo : List (Edge V T D)} {st : State Q L} {v : V}

theorem Inv.improve {e : Edge V T D} (he : e ∈ out v) (hnonneg : 0 ≤ e.time)
    (h : Inv out ext stop s l (v :: S) c todo st) (hbest : st.best v = c) (hlt : ↑(c + e.time) < st.best e.dest) :
    Inv out ext stop s l (v :: S) c todo (st.improve e.dest (c + e.time) (ext (st.label v) v e.dist)) := by
  have hge : (c : WithTop T) ≤ ↑(c + e.time) := WithTop.coe_le_coe.mpr (le_add_of_nonneg_right hnonneg)
  -- a settled node cannot get a better time any more
  have hopen : e.dest ∉ v :: S := fun hin => absurd (hlt.trans_le (h.closed_le _ hin)) (not_lt.mpr hge)
  have hne : ∀ u ∈ v :: S, u ≠ e.dest := fun u hu heq => hopen (heq ▸ hu)
  have hle := improve_best_le hlt (ext (st.label v) v e.dist)
  refine ⟨h.settled, h.zero_le, ?_, ?_, ?_, ?_, ?_, ?_, ?_, ?_, ?_, ?_, h.go_on⟩
  · have hs : s ≠ e.dest := by
      intro hs
      rw [← hs, h.source, ← WithTop.coe_zero] at hlt
      exact absurd (WithTop.coe_lt_coe.mp hlt) (not_lt.mpr (add_nonneg h.zero_le hnonneg))
    rw [improve_best_of_ne hs]
    exact h.source
  · show (Q.items (Q.push st.heap (c + e.time, e.dest))).Nodup
    rw [Q.items_push]
    refine Multiset.nodup_cons.mpr ⟨fun hin => ?_, h.nodup⟩
    exact absurd (h.le_entry _ _ hin) (not_le.mpr hlt)
  · intro x u hin
    rcases mem_items_improve.mp hin with ⟨rfl, rfl⟩ | hin
    · exact improve_best_self.le
    · exact (hle u).trans (h.le_entry x u hin)
  · intro u hu x hx
    apply mem_items_improve.mpr
    by_cases hdest : u = e.dest
    · rw [hdest, improve_best_self] at hx
      exact Or.inl ⟨(WithTop.coe_inj.mp hx).symm, hdest⟩
    · rw [improve_best_of_ne hdest] at hx
      exact Or.inr (h.open_entry u hu x hx)
  · intro u hu x hin
    rw [improve_best_of_ne (hne u hu)]
    rcases mem_items_improve.mp hin with ⟨-, hdest⟩ | hin
    · exact absurd hdest (hne u hu)
    · exact h.closed_entry u hu x hin
  · intro x u hin
    rcases mem_items_improve.mp hin with ⟨rfl, -⟩ | hin
    · exact le_add_of_nonneg_right hnonneg
    · exact h.floor x u hin
  · exact fun u hu => (hle u).trans (h.closed_le u hu)
  · intro u hu e' he'
    rw [improve_best_of_ne (hne u hu)]
    exact (h.relaxed u hu e' he').imp_right (hle e'.dest).trans
  · intro u S' hsuffix
    apply (h.closed_stem u S' hsuffix).improve
    intro w hw
    exact hne w (hsuffix.subset (List.mem_cons.mpr hw))
  · intro u hu htop
    by_cases hdest : u = e.dest
    · refine Or.inr ⟨v, List.mem_cons_self, e, he, hdest.symm, ?_, ?_⟩
      · rw [hdest, improve_best_self, improve_best_of_ne (hne v List.mem_cons_self), hbest, WithTop.coe_add]
      · rw [hdest, improve_label_self, improve_label_of_ne (hne v List.mem_cons_self)]
    · rw [improve_best_of_ne hdest] at htop
      apply (h.open_stem u hu htop).improve
      intro w hw
      rcases hw with rfl | hw
      · exact hdest
      · exact hne w hw

/-- **Trying one edge keeps the invariant.** -/
theorem relaxOne_inv {e : Edge V T D} (he : e ∈ out v) (hnonneg : 0 ≤ e.time)
    (h : Inv out ext stop s l (v :: S) c (e :: todo) st) (hbest : st.best v = c) :
    Inv out ext stop s l (v :: S) c todo (relaxOne ext v c st e) ∧ (relaxOne ext v c st e).best v = c := by
  unfold relaxOne
  split_ifs with hlt
  · have hne : v ≠ e.dest := by
      intro heq
      rw [← heq, hbest] at hlt
      exact absurd (WithTop.coe_lt_coe.mp hlt) (not_lt.mpr (le_add_of_nonneg_right hnonneg))
    have hbest' : (st.improve e.dest (c + e.time) (ext (st.label v) v e.dist)).best v = c :=
      (improve_best_of_ne hne).trans hbest
    refine ⟨(h.improve he hnonneg hbest hlt).tried ?_, hbest'⟩
    rw [hbest', improve_best_self, WithTop.coe_add]
  · refine ⟨h.tried ?_, hbest⟩
    rw [hbest, ← WithTop.coe_add]
    exact not_lt.mp hlt

theorem relax_inv (hnonneg : ∀ e ∈ out v, 0 ≤ e.time) (h : Inv out ext stop s l (v :: S) c (out v) st)
    (hbest : st.best v = c) : Inv out ext stop s l (v :: S) c [] (relax out ext v c st) := by
  have hfold : ∀ es : List (Edge V T D), (∀ e ∈ es, e ∈ out v) → ∀ st : State Q L,
      Inv out ext stop s l (v :: S) c es st → st.best v = c →
      Inv out ext stop s l (v :: S) c [] (es.foldl (relaxOne ext v c) st) := by
    intro es
    induction es with
    | nil => exact fun _ st h _ => h
    | cons e es ih =>
      intro hsub st h hbest
      have he := hsub e List.mem_cons_self
      obtain ⟨h', hbest'⟩ := relaxOne_inv he (hnonneg e he) h hbest
      exact ih (fun e' he' => hsub e' (List.mem_cons_of_mem _ he')) _ h' hbest'
  exact hfold (out v) (fun _ he => he) st h hbest

end Steps

section Loop

variable [DecidableEq V] [LinearOrder T] [AddCommMonoid T] {Q : MinHeap T V} {out : V → List (Edge V T D)}
  {ext : L → V → D → L} {stop : V → Bool} {s : V} {l : L} {S : List V} {c : T} {st : State Q L} {v : V}

theorem items_start (s : V) (l : L) : Q.items (start Q s l).heap = {(0, s)} := by
  show Q.items (Q.push Q.empty (0, s)) = _
  rw [Q.items_push, Q.items_empty]
  rfl

variable (out ext stop) in
theorem start_inv (s : V) (l : L) : Inv out ext stop s l [] 0 [] (start Q s l) := by
  have hitems := items_start (Q := Q) s l
  have hbest : ∀ u, (start Q s l).best u = if u = s then 0 else ⊤ := fun u => by
    show Function.update (fun _ => (⊤ : WithTop T)) s 0 u = _
    rw [Function.update_apply]
  refine ⟨List.nodup_nil, le_rfl, by rw [hbest, if_pos rfl], ?_, ?_, ?_, by simp, ?_, by simp, by simp, ?_, ?_, by simp⟩
  · rw [hitems]
    exact Multiset.nodup_singleton _
  · intro x u hin
    rw [hitems, Multiset.mem_singleton] at hin
    obtain ⟨rfl, rfl⟩ := Prod.mk_inj.mp hin
    rw [hbest, if_pos rfl]
    exact le_rfl
  · intro u _ x hx
    rw [hbest] at hx
    split_ifs at hx with hu
    · rw [hitems, Multiset.mem_singleton, hu]
      rw [← WithTop.coe_zero, WithTop.coe_inj] at hx
      rw [hx]
    · exact absurd hx.symm WithTop.coe_ne_top
  · intro x u hin
    rw [hitems, Multiset.mem_singleton] at hin
    exact (Prod.mk_inj.mp hin).1.ge
  · intro u S' hsuffix
    exact absurd (List.suffix_nil.mp hsuffix) (List.cons_ne_nil _ _)
  · intro u _ htop
    rw [hbest] at htop
    split_ifs at htop with hu
    · refine Or.inl ⟨hu, ?_, rfl⟩
      rw [hbest, if_pos hu]
    · exact absurd rfl htop

variable (out ext) in
theorem card_relax (v : V) (c : T) (st : State Q L) :
    (Q.items (relax out ext v c st).heap).card ≤ (Q.items st.heap).card + (out v).length := by
  unfold relax
  induction out v generalizing st with
  | nil => exact le_rfl
  | cons e es ih =>
    have hone : (Q.items (relaxOne ext v c st e).heap).card ≤ (Q.items st.heap).card + 1 := by
      unfold relaxOne
      split_ifs
      · show (Q.items (Q.push st.heap _)).card ≤ _
        rw [Q.items_push, Multiset.card_cons]
      · exact Nat.le_succ _
    have hrest := ih (relaxOne ext v c st e)
    rw [List.foldl_cons, List.length_cons]
    omega

variable [Fintype V]

/-- An upper bound for how often an entry can still be taken off the heap. -/
def owed (out : V → List (Edge V T D)) (S : List V) (st : State Q L) : ℕ :=
  (Q.items st.heap).card + ∑ u ∈ Finset.univ.filter (· ∉ S), (out u).length

theorem owed_start (s : V) (l : L) : owed out [] (start Q s l) = 1 + ∑ u, (out u).length := by
  unfold owed
  rw [items_start, Multiset.card_singleton]
  congr 1
  simp

variable (out) in
omit [LinearOrder T] [AddCommMonoid T] in
theorem owed_settle (hopen : v ∉ S) : ∑ u ∈ Finset.univ.filter (· ∉ v :: S), (out u).length + (out v).length =
    ∑ u ∈ Finset.univ.filter (· ∉ S), (out u).length := by
  have hset : Finset.univ.filter (· ∉ S) = insert v (Finset.univ.filter (· ∉ v :: S)) := by
    ext u
    by_cases hu : u = v
    · simp [hu, hopen]
    · simp [hu]
  rw [hset, Finset.sum_insert (by simp), add_comm]

/-- **The search ends**, at the end of the heap or at a node where it stops, in a state that the invariant describes. -/
theorem search_some [IsOrderedAddMonoid T] (hnonneg : ∀ v, ∀ e ∈ out v, 0 ≤ e.time) {fuel : ℕ} (h : Inv out ext stop s l S c [] st)
    (hfuel : owed out S st < fuel) : ∃ (S' : List V) (c' : T) (st' : State Q L), Inv out ext stop s l S' c' [] st' ∧
      ((Q.items st'.heap = 0 ∧ search out ext stop fuel st = some (none, st')) ∨
        ∃ x v heap, Q.pop st'.heap = some ((x, v), heap) ∧ stop v = true ∧
          search out ext stop fuel st = some (some (x, v), { st' with heap := heap })) := by
  induction fuel generalizing S c st with
  | zero => exact absurd hfuel (Nat.not_lt_zero _)
  | succ fuel ih =>
    unfold search
    cases hpop : Q.pop st.heap with
    | none => exact ⟨S, c, st, h, Or.inl ⟨Q.pop_none _ hpop, rfl⟩⟩
    | some a =>
      obtain ⟨⟨x, v⟩, heap⟩ := a
      dsimp only
      have hcard : (Q.items st.heap).card = (Q.items heap).card + 1 := by
        rw [(Q.pop_some _ _ _ hpop).1, Multiset.card_cons]
      unfold owed at hfuel
      by_cases hstop : stop v = true
      · rw [if_pos hstop]
        exact ⟨S, c, st, h, Or.inr ⟨x, v, heap, hpop, hstop, rfl⟩⟩
      · rw [if_neg hstop]
        by_cases hstale : st.best v < x
        · rw [if_pos hstale]
          apply ih (pop_stale h hpop hstale)
          show (Q.items heap).card + _ < fuel
          omega
        · rw [if_neg hstale]
          have hsettled := pop_fresh h hpop hstale (Bool.eq_false_iff.mpr hstop)
          obtain ⟨hopen, hbest⟩ := h.fresh hpop hstale
          apply ih (relax_inv (hnonneg v) hsettled hbest)
          have hpushed := card_relax out ext v x { st with heap := heap }
          have hpaid := owed_settle out hopen
          unfold owed
          dsimp only at hpushed
          omega

end Loop

end TtAiops.Lib.Dijkstra
