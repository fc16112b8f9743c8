import TtAiops.Lib.Spfa

/-!
# Flows of minimum cost

Round by round a shortest path to the target is looked for among the open arcs, and as much as it can take is moved from its
arcs to their twins. The distances of a round give the potentials of the next one, so no round meets a negative reduced cost.

* `back`, `bottleneck`, `push`, `rounds` : the program;
* `Valid` : what is right about a flow;
* `Chain.nodup`, `push_apply`, `excess_push`, `spent_push` : a path has no node twice; what is pushed along it;
* `feasible_push` : the potentials of the next round;
* `rounds_end` : **with enough fuel the rounds end, in a valid flow after which the target cannot be reached**.
-/

namespace TtAiops.Lib.Network
variable {V E : Type} (N : Network V E)

/-! ## The rounds -/

/-- What an arc still takes, and what the flow costs and carries. -/
structure Flow (E : Type) where
  cap : E → ℤ
  totalCost : ℤ
  totalFlow : ℤ

section program
variable [DecidableEq V] [DecidableEq E]

/-- The arcs from a node back to the source, by the parents; `none` if a node has none or the fuel is used up. -/
def back (pe : V → Option E) (s : V) : ℕ → V → Option (List E)
  | 0, _ => none
  | fuel + 1, v => if v = s then some [] else (pe v).bind fun e => (back pe s fuel (N.src e)).map (e :: ·)

/-- What the path takes; `big` is what an empty one does. -/
def bottleneck (cap : E → ℤ) (big : ℤ) (path : List E) : ℤ := path.foldl (fun f e => min f (cap e)) big

/-- One arc gives `f` to its twin. -/
def pushOne (f : ℤ) (cap : E → ℤ) (e : E) : E → ℤ :=
  let cap := Function.update cap e (cap e - f)
  Function.update cap (N.twin e) (cap (N.twin e) + f)

/-- The arcs of a path do. -/
def push (f : ℤ) (cap : E → ℤ) (path : List E) : E → ℤ := path.foldl (N.pushOne f) cap

/-- The rounds, until the target cannot be reached; `none` if the fuel of the rounds or of a search is used up. -/
def rounds (s t : V) (big : ℤ) (fuel : ℕ) : ℕ → Flow E → Option (Flow E)
  | 0, _ => none
  | k + 1, fl =>
    match N.search fl.cap fuel (startAt s) with
    | none => none
    | some st =>
      if st.dist t = ⊤ then some fl
      else
        match N.back st.pe s fuel t with
        | none => none
        | some path =>
          let f := bottleneck fl.cap big path
          rounds s t big fuel k ⟨N.push f fl.cap path, fl.totalCost + f * (st.dist t).untopD 0, fl.totalFlow + f⟩

/-- What has gone out of a node more than into it. -/
def excess (cap₀ cap : E → ℤ) (v : V) : ℤ := ∑ e ∈ (N.out v).toFinset, (cap₀ e - cap e)

/-- What the flow costs, each arc counted with its twin. -/
def spent (nodes : Finset V) (cap₀ cap : E → ℤ) : ℤ := ∑ v ∈ nodes, ∑ e ∈ (N.out v).toFinset, N.cost e * (cap₀ e - cap e)

/-- A flow that costs and carries what it says, and could not be cheaper. -/
structure Valid (nodes : Finset V) (cap₀ : E → ℤ) (s t : V) (fl : Flow E) : Prop where
  nonneg : ∀ e, 0 ≤ fl.cap e
  pair : ∀ e, fl.cap e + fl.cap (N.twin e) = cap₀ e + cap₀ (N.twin e)
  excess : ∀ v, N.excess cap₀ fl.cap v = fl.totalFlow * ((if v = s then 1 else 0) - (if v = t then 1 else 0))
  spent : N.spent nodes cap₀ fl.cap = 2 * fl.totalCost
  potential : ∃ π, N.Feasible fl.cap π

end program

/-! ## The path -/

section path
variable {N} {nodes : Finset V} {pe : V → Option E} {cap : E → ℤ} {s v w : V} {p : List E}

theorem Chain.unique {p' : List E} (h : N.Chain pe s v p) (h' : N.Chain pe s v p') : p = p' := by
  induction h generalizing p' with
  | nil =>
    cases h' with
    | nil => rfl
    | cons hne _ _ => exact absurd rfl hne
  | cons hne hpe _ ih =>
    cases h' with
    | nil => exact absurd rfl hne
    | cons _ hpe' hrest =>
      obtain rfl := Option.some.inj (hpe.symm.trans hpe')
      rw [ih hrest]

/-- The rest of a path is the path from the node at which it begins. -/
theorem Chain.from_mem [DecidableEq V] {st : Labels V E} (hst : N.Shortest cap s st) (h : N.Chain st.pe s v p) {e : E} (he : e ∈ p) :
    ∃ q, N.Chain st.pe s (N.dst e) (e :: q) ∧ (e :: q).length ≤ p.length := by
  induction h with
  | nil => exact absurd he List.not_mem_nil
  | @cons v e' p hne hpe hp ih =>
    obtain rfl | he := List.mem_cons.mp he
    · refine ⟨p, ?_, le_rfl⟩
      rw [(hst.tight v e hpe).2.2.1]
      exact Chain.cons hne hpe hp
    · obtain ⟨q, hq, hlen⟩ := ih he
      exact ⟨q, hq, hlen.trans (by simp)⟩

theorem Chain.nodup [DecidableEq V] {st : Labels V E} (hst : N.Shortest cap s st) (h : N.Chain st.pe s v p) : p.Nodup := by
  induction h with
  | nil => exact List.nodup_nil
  | @cons v e p hne hpe hp ih =>
    apply List.nodup_cons.mpr
    refine ⟨?_, ih⟩
    intro he
    obtain ⟨q, hq, hlen⟩ := hp.from_mem hst he
    rw [(hst.tight v e hpe).2.2.1] at hq
    have := hq.unique (Chain.cons hne hpe hp)
    rw [this, List.length_cons] at hlen
    omega

theorem Chain.mem [DecidableEq V] {st : Labels V E} (hst : N.Shortest cap s st) (h : N.Chain st.pe s v p) {e : E} (he : e ∈ p) :
    e ∈ N.out (N.src e) ∧ 0 < cap e ∧ st.dist (N.dst e) = st.dist (N.src e) + (N.cost e : ℤ) := by
  obtain ⟨q, hq, _⟩ := h.from_mem hst he
  cases hq with
  | cons _ hpe _ =>
    obtain ⟨hmem, hopen, _, htight⟩ := hst.tight _ e hpe
    exact ⟨hmem, hopen, htight⟩

theorem Chain.back_eq [DecidableEq V] (h : N.Chain pe s v p) {fuel : ℕ} (hfuel : p.length < fuel) : N.back pe s fuel v = some p := by
  induction h generalizing fuel with
  | nil =>
    obtain ⟨fuel, rfl⟩ : ∃ n, fuel = n + 1 := ⟨fuel - 1, by simp at hfuel; omega⟩
    rw [back, if_pos rfl]
  | @cons v e p hne hpe _ ih =>
    rw [List.length_cons] at hfuel
    obtain ⟨fuel, rfl⟩ : ∃ n, fuel = n + 1 := ⟨fuel - 1, by omega⟩
    rw [back, if_neg hne, hpe, Option.bind_some, ih (by omega)]
    rfl

theorem Chain.cost_sum [DecidableEq V] {st : Labels V E} (hst : N.Shortest cap s st) (h : N.Chain st.pe s v p) :
    st.dist v = ((p.map N.cost).sum : ℤ) := by
  induction h with
  | nil =>
    rw [hst.source]
    rfl
  | @cons v e p _ hpe _ ih =>
    rw [(hst.tight v e hpe).2.2.2, ih, List.map_cons, List.sum_cons, ← WithTop.coe_add, add_comm]

end path

/-! ## What is pushed -/

section push
variable [DecidableEq V] [DecidableEq E] {N} {nodes : Finset V} {cap cap₀ : E → ℤ} {s t v : V} {p : List E} {f : ℤ} {a : E}

omit [DecidableEq V] [DecidableEq E] in
theorem bottleneck_spec (hcap : ∀ e ∈ p, 0 < cap e) {big : ℤ} (hbig : 0 < big) :
    0 < bottleneck cap big p ∧ ∀ e ∈ p, bottleneck cap big p ≤ cap e := by
  have hle : ∀ {p : List E} {big : ℤ}, bottleneck cap big p ≤ big := by
    intro p
    induction p with
    | nil => exact le_rfl
    | cons e p ih => exact ih.trans (min_le_left _ _)
  induction p generalizing big with
  | nil => exact ⟨hbig, fun e he => absurd he List.not_mem_nil⟩
  | cons e p ih =>
    obtain ⟨hpos, hrest⟩ := ih (fun e' he' => hcap e' (by simp [he'])) (lt_min hbig (hcap e (by simp)))
    refine ⟨hpos, ?_⟩
    intro e' he'
    obtain rfl | he' := List.mem_cons.mp he'
    · show bottleneck cap (min big (cap e')) p ≤ cap e'
      exact hle.trans (min_le_right _ _)
    · exact hrest e' he'

omit [DecidableEq V] in
theorem pushOne_apply (hwf : N.WellFormed nodes) (f : ℤ) (cap : E → ℤ) (a e : E) :
    N.pushOne f cap a e = cap e - (if e = a then f else 0) + (if e = N.twin a then f else 0) := by
  have hne := hwf.twin_ne a
  unfold pushOne
  rw [Function.update_apply, Function.update_of_ne hne]
  by_cases he : e = N.twin a
  · subst he
    rw [if_pos rfl, if_pos rfl, if_neg hne]
    omega
  · rw [if_neg he, if_neg he, Function.update_apply]
    by_cases hea : e = a
    · rw [if_pos hea, if_pos hea, hea]
      omega
    · rw [if_neg hea, if_neg hea]
      omega

omit [DecidableEq V] in
theorem push_apply (hwf : N.WellFormed nodes) (f : ℤ) (cap : E → ℤ) (p : List E) (e : E) :
    N.push f cap p e = cap e - f * p.count e + f * p.count (N.twin e) := by
  induction p generalizing cap with
  | nil => simp [push]
  | cons a p ih =>
    have htwin : e = N.twin a ↔ a = N.twin e := by
      constructor
      · intro h
        rw [h, hwf.twin_twin]
      · intro h
        rw [h, hwf.twin_twin]
    show N.push f (N.pushOne f cap a) p e = _
    rw [ih, pushOne_apply hwf, List.count_cons, List.count_cons]
    simp only [beq_iff_eq, ← htwin, eq_comm (a := a) (b := e)]
    split_ifs <;> push_cast <;> ring

omit [DecidableEq V] in
theorem push_pair (hwf : N.WellFormed nodes) (f : ℤ) (cap : E → ℤ) (p : List E) (e : E) :
    N.push f cap p e + N.push f cap p (N.twin e) = cap e + cap (N.twin e) := by
  rw [push_apply hwf, push_apply hwf, hwf.twin_twin]
  ring

omit [DecidableEq V] in
theorem push_nonneg (hwf : N.WellFormed nodes) (hcap : ∀ e, 0 ≤ cap e) (hp : p.Nodup) (hf : 0 ≤ f) (hle : ∀ e ∈ p, f ≤ cap e)
    (e : E) : 0 ≤ N.push f cap p e := by
  have hback : 0 ≤ f * p.count (N.twin e) := mul_nonneg hf (Int.natCast_nonneg _)
  rw [push_apply hwf]
  by_cases he : e ∈ p
  · rw [List.count_eq_one_of_mem hp he]
    have := hle e he
    push_cast
    omega
  · rw [List.count_eq_zero_of_not_mem he]
    have := hcap e
    push_cast
    omega

omit [DecidableEq V] in
theorem WellFormed.mem_out_iff (hwf : N.WellFormed nodes) (ha : a ∈ N.out (N.src a)) :
    a ∈ (N.out v).toFinset ↔ v = N.src a := by
  rw [List.mem_toFinset]
  constructor
  · intro h
    exact (hwf.src_eq v a h).symm
  · intro h
    rw [h]
    exact ha

omit [DecidableEq V] in
theorem WellFormed.twin_mem_out_iff (hwf : N.WellFormed nodes) (ha : a ∈ N.out (N.src a)) :
    N.twin a ∈ (N.out v).toFinset ↔ v = N.dst a := by
  rw [List.mem_toFinset]
  constructor
  · intro h
    have := hwf.src_eq v _ h
    rw [src, hwf.twin_twin] at this
    exact this.symm
  · intro h
    rw [h]
    exact hwf.twin_mem _ a ha

/-- Of two arcs that begin and end at a node, one goes out and the other's twin does. -/
theorem excess_pushOne (hwf : N.WellFormed nodes) (ha : a ∈ N.out (N.src a)) :
    N.excess cap₀ (N.pushOne f cap a) v
      = N.excess cap₀ cap v + f * ((if v = N.src a then 1 else 0) - (if v = N.dst a then 1 else 0)) := by
  unfold excess
  have hsplit : ∀ e, cap₀ e - N.pushOne f cap a e
      = (cap₀ e - cap e) + ((if e = a then f else 0) - (if e = N.twin a then f else 0)) := by
    intro e
    rw [pushOne_apply hwf]
    ring
  simp only [hsplit, Finset.sum_add_distrib, Finset.sum_sub_distrib, Finset.sum_ite_eq', hwf.mem_out_iff ha,
    hwf.twin_mem_out_iff ha]
  split_ifs <;> ring

theorem excess_push (hwf : N.WellFormed nodes) {st : Labels V E} {cap' : E → ℤ} (hst : N.Shortest cap' s st)
    (hp : N.Chain st.pe s t p) (v : V) : N.excess cap₀ (N.push f cap p) v
      = N.excess cap₀ cap v + f * ((if v = s then 1 else 0) - (if v = t then 1 else 0)) := by
  induction hp generalizing cap with
  | nil =>
    show N.excess cap₀ cap v = _
    ring
  | @cons t e p _ hpe _ ih =>
    obtain ⟨hmem, _, hdst, _⟩ := hst.tight t e hpe
    show N.excess cap₀ (N.push f (N.pushOne f cap e) p) v = _
    rw [ih, excess_pushOne hwf hmem, hdst]
    ring

theorem spent_pushOne (hwf : N.WellFormed nodes) (ha : a ∈ N.out (N.src a)) :
    N.spent nodes cap₀ (N.pushOne f cap a) = N.spent nodes cap₀ cap + 2 * (f * N.cost a) := by
  have hsrc : N.src a ∈ nodes := hwf.dst_mem _ _ (hwf.twin_mem _ a ha)
  have hdst : N.dst a ∈ nodes := hwf.dst_mem _ a ha
  unfold spent
  have hsplit : ∀ e, N.cost e * (cap₀ e - N.pushOne f cap a e)
      = N.cost e * (cap₀ e - cap e) + ((if e = a then f * N.cost a else 0) + (if e = N.twin a then f * N.cost a else 0)) := by
    intro e
    rw [pushOne_apply hwf]
    have hcost := hwf.cost_twin a
    split_ifs with h h' h'
    · exact absurd (h'.symm.trans h) (hwf.twin_ne a)
    · rw [h]
      ring
    · rw [h', hcost]
      ring
    · ring
  simp only [hsplit, Finset.sum_add_distrib, Finset.sum_ite_eq', hwf.mem_out_iff ha, hwf.twin_mem_out_iff ha,
    hsrc, hdst, if_true]
  ring

theorem spent_push (hwf : N.WellFormed nodes) {st : Labels V E} {cap' : E → ℤ} (hst : N.Shortest cap' s st)
    (hp : N.Chain st.pe s t p) :
    N.spent nodes cap₀ (N.push f cap p) = N.spent nodes cap₀ cap + 2 * (f * (p.map N.cost).sum) := by
  induction hp generalizing cap with
  | nil =>
    show N.spent nodes cap₀ cap = _
    simp
  | @cons t e p _ hpe _ ih =>
    show N.spent nodes cap₀ (N.push f (N.pushOne f cap e) p) = _
    rw [ih, spent_pushOne hwf (hst.tight t e hpe).1, List.map_cons, List.sum_cons]
    ring

end push

/-! ## The potentials of the next round -/

section potentials
variable [DecidableEq V] [DecidableEq E] {N} {nodes : Finset V} {cap cap₀ : E → ℤ} {π : V → ℤ} {s t v : V} {p : List E}
  {st : Labels V E} {f d : ℤ}

omit [DecidableEq E] in
theorem Chain.reduced_le (hπ : N.Feasible cap π) (hst : N.Shortest cap s st) (hp : N.Chain st.pe s t p) (hd : st.dist t = d)
    {a : E} (ha : a ∈ p) {x : ℤ} (hx : st.dist (N.dst a) = x) : x - π (N.dst a) ≤ d - π t := by
  induction hp generalizing d with
  | nil => exact absurd ha List.not_mem_nil
  | @cons t e p _ hpe hp ih =>
    obtain ⟨hmem, hopen, hdst, htight⟩ := hst.tight t e hpe
    obtain rfl | ha := List.mem_cons.mp ha
    · rw [hdst] at hx ⊢
      rw [hx] at hd
      exact le_of_eq (by rw [WithTop.coe_inj.mp hd])
    · have hsrc := hp.cost_sum hst
      rw [hd, hsrc] at htight
      have htight' : d = (p.map N.cost).sum + N.cost e := WithTop.coe_inj.mp htight
      have hreduced := hπ _ e hmem hopen
      rw [hdst] at hreduced
      have := ih hsrc ha
      omega

/-- The distances, cut off where the reduced distance is that of the target. -/
def nextPotential (π : V → ℤ) (st : Labels V E) (bound : ℤ) (v : V) : ℤ :=
  min ((st.dist v).untopD (π v + bound)) (π v + bound)

omit [DecidableEq V] [DecidableEq E] in
theorem nextPotential_le {bound x : ℤ} (hx : st.dist v = x) : nextPotential π st bound v ≤ x := by
  unfold nextPotential
  rw [hx]
  exact min_le_left _ _

omit [DecidableEq V] [DecidableEq E] in
theorem nextPotential_cases (π : V → ℤ) (st : Labels V E) (bound : ℤ) (v : V) :
    st.dist v = nextPotential π st bound v ∨ nextPotential π st bound v = π v + bound := by
  unfold nextPotential
  cases st.dist v with
  | top => exact Or.inr (min_self _)
  | coe x =>
    obtain h | h := min_choice x (π v + bound)
    · exact Or.inl (congrArg _ h.symm)
    · exact Or.inr h

omit [DecidableEq V] [DecidableEq E] in
theorem nextPotential_open (hπ : N.Feasible cap π) (hst : N.Shortest cap s st) (bound : ℤ) {e : E} (he : e ∈ N.out v)
    (hopen : 0 < cap e) : nextPotential π st bound (N.dst e) ≤ nextPotential π st bound v + N.cost e := by
  obtain h | h := nextPotential_cases π st bound v
  · have hrelaxed := hst.relaxed v e he hopen
    rw [h, ← WithTop.coe_add] at hrelaxed
    obtain ⟨x, hx⟩ := WithTop.ne_top_iff_exists.mp (ne_top_of_le_ne_top WithTop.coe_ne_top hrelaxed)
    rw [← hx] at hrelaxed
    exact (nextPotential_le hx.symm).trans (WithTop.coe_le_coe.mp hrelaxed)
  · have hreduced := hπ v e he hopen
    rw [h]
    exact (min_le_right _ _).trans (by omega)

/-- An arc that is opened by the push is the twin of a tight one: its reduced cost is zero. -/
theorem feasible_push (hwf : N.WellFormed nodes) (hπ : N.Feasible cap π) (hst : N.Shortest cap s st)
    (hp : N.Chain st.pe s t p) (hd : st.dist t = d) (hf : 0 ≤ f) :
    N.Feasible (N.push f cap p) (nextPotential π st (d - π t)) := by
  intro v e he hopen
  by_cases hold : 0 < cap e
  · exact nextPotential_open hπ hst _ he hold
  · have htwin : N.twin e ∈ p := by
      by_contra hnot
      rw [push_apply hwf, List.count_eq_zero_of_not_mem hnot] at hopen
      have : 0 ≤ f * p.count e := mul_nonneg hf (Int.natCast_nonneg _)
      push_cast at hopen
      omega
    obtain ⟨hmem, hopen', htight⟩ := hp.mem hst htwin
    have hsrc : N.src (N.twin e) = N.dst e := by rw [src, hwf.twin_twin]
    have hdst : N.dst (N.twin e) = v := hwf.src_eq v e he
    obtain ⟨q, hq, _⟩ := hp.from_mem hst htwin
    have hx := hq.cost_sum hst
    have hreduced := hp.reduced_le hπ hst hd htwin hx
    generalize (List.map N.cost (N.twin e :: q)).sum = x at hx hreduced
    rw [hdst] at hx hreduced htight
    rw [hsrc, hwf.cost_twin, hx] at htight
    have hv : nextPotential π st (d - π t) v = x := by
      unfold nextPotential
      rw [hx]
      show min x (π v + (d - π t)) = x
      exact min_eq_left (by omega)
    obtain ⟨y, hy, hle⟩ := exists_of_add_le htight.ge
    rw [hy] at htight
    have htight' : x = y + -N.cost e := WithTop.coe_inj.mp (by exact_mod_cast htight)
    have hnext : nextPotential π st (d - π t) (N.dst e) ≤ y := nextPotential_le hy
    omega

end potentials

/-! ## The end of the rounds -/

section ends
variable [DecidableEq V] [DecidableEq E] {N} {nodes : Finset V} {cap₀ : E → ℤ} {s t : V} {fl : Flow E} {big : ℤ}

omit [DecidableEq V] in
theorem excess_self (cap : E → ℤ) (v : V) : N.excess cap cap v = 0 := by
  unfold excess
  exact Finset.sum_eq_zero fun e _ => sub_self _

/-- Nothing flows: that is valid where no open arc has a negative cost. -/
theorem valid_start (hcap : ∀ e, 0 ≤ cap₀ e) (hcost : ∀ v, ∀ e ∈ N.out v, 0 < cap₀ e → 0 ≤ N.cost e) :
    N.Valid nodes cap₀ s t ⟨cap₀, 0, 0⟩ := by
  refine ⟨hcap, fun e => rfl, ?_, ?_, fun _ => 0, ?_⟩
  · intro v
    rw [excess_self, zero_mul]
  · unfold spent
    simp
  · intro v e he hopen
    show 0 ≤ 0 + N.cost e
    rw [zero_add]
    exact hcost v e he hopen

/-- A round that finds a path leaves a valid flow, which carries more. -/
theorem Valid.augment (h : N.Valid nodes cap₀ s t fl) (hwf : N.WellFormed nodes) {st : Labels V E}
    (hst : N.Shortest fl.cap s st) {p : List E} (hp : N.Chain st.pe s t p) (hbig : 0 < big) {d : ℤ} (hd : st.dist t = d) :
    N.Valid nodes cap₀ s t ⟨N.push (bottleneck fl.cap big p) fl.cap p, fl.totalCost + bottleneck fl.cap big p * d,
        fl.totalFlow + bottleneck fl.cap big p⟩ ∧ 0 < bottleneck fl.cap big p := by
  obtain ⟨hpos, hle⟩ := bottleneck_spec (fun e he => (hp.mem hst he).2.1) hbig
  generalize bottleneck fl.cap big p = f at hpos hle
  obtain ⟨π, hπ⟩ := h.potential
  refine ⟨⟨?_, ?_, ?_, ?_, ?_⟩, hpos⟩
  · intro e
    exact push_nonneg hwf h.nonneg (hp.nodup hst) hpos.le hle e
  · intro e
    rw [push_pair hwf]
    exact h.pair e
  · intro v
    rw [excess_push hwf hst hp, h.excess]
    ring
  · have hsum : d = (p.map N.cost).sum := WithTop.coe_inj.mp (hd.symm.trans (hp.cost_sum hst))
    rw [spent_push hwf hst hp, h.spent, hsum]
    ring
  · exact ⟨_, feasible_push hwf hπ hst hp hd hpos.le⟩

theorem Valid.totalFlow_le (h : N.Valid nodes cap₀ s t fl) (hst : s ≠ t) :
    fl.totalFlow ≤ ∑ e ∈ (N.out s).toFinset, cap₀ e := by
  have hexcess := h.excess s
  rw [if_pos rfl, if_neg hst, sub_zero, mul_one] at hexcess
  rw [← hexcess]
  apply Finset.sum_le_sum
  intro e _
  have := h.nonneg e
  omega

variable (N nodes cap₀ s t) in
/-- A valid flow after which no open arc leads out of a set with the source to the target. -/
structure Done (fl : Flow E) : Prop where
  valid : N.Valid nodes cap₀ s t fl
  cut : ∃ reached : V → Prop, reached s ∧ ¬ reached t ∧ ∀ v, reached v → ∀ e ∈ N.out v, 0 < fl.cap e → reached (N.dst e)

/-- **With enough fuel the rounds end**, in a valid flow after which the target cannot be reached. -/
theorem rounds_end (hwf : N.WellFormed nodes) (hst : s ≠ t) (hbig : 0 < big) (h : N.Valid nodes cap₀ s t fl) :
    ∃ fuel end', (∀ more k, fuel ≤ more → fuel ≤ k → N.rounds s t big more k fl = some end') ∧ N.Done nodes cap₀ s t end' := by
  generalize hm : (∑ e ∈ (N.out s).toFinset, cap₀ e - fl.totalFlow).toNat = m
  induction m using Nat.strongRecOn generalizing fl with
  | ind m ih =>
    obtain ⟨π, hπ⟩ := h.potential
    obtain ⟨fuel, st, hsearch, hshort⟩ := search_shortest (s := s) hwf hπ
    by_cases hd : st.dist t = ⊤
    · refine ⟨fuel + 1, fl, ?_, h, fun v => st.dist v ≠ ⊤, ?_, fun hne => hne hd, ?_⟩
      · intro more k hmore hk
        obtain ⟨k, rfl⟩ : ∃ n, k = n + 1 := ⟨k - 1, by omega⟩
        rw [rounds, hsearch more (by omega)]
        exact if_pos hd
      · show st.dist s ≠ ⊤
        rw [hshort.source]
        exact WithTop.zero_ne_top
      · intro v hv e he hopen
        obtain ⟨x, hx⟩ := WithTop.ne_top_iff_exists.mp hv
        have hle := hshort.relaxed v e he hopen
        rw [← hx, ← WithTop.coe_add] at hle
        exact ne_top_of_le_ne_top WithTop.coe_ne_top hle
    · obtain ⟨p, hp⟩ := hshort.chain t hd
      obtain ⟨d, hd'⟩ := WithTop.ne_top_iff_exists.mp hd
      obtain ⟨hvalid, hpos⟩ := h.augment hwf hshort hp hbig hd'.symm
      have hbound := hvalid.totalFlow_le hst
      dsimp only at hbound
      obtain ⟨fuel', end', hend, hdone⟩ := ih _ (by dsimp only; omega) hvalid rfl
      refine ⟨fuel + fuel' + p.length + 1, end', ?_, hdone⟩
      intro more k hmore hk
      obtain ⟨k, rfl⟩ : ∃ n, k = n + 1 := ⟨k - 1, by omega⟩
      rw [rounds, hsearch more (by omega)]
      dsimp only
      rw [if_neg hd, hp.back_eq (by omega)]
      dsimp only
      rw [← hd', WithTop.untopD_coe]
      exact hend more k (by omega) (by omega)

end ends

end TtAiops.Lib.Network
