import TtAiops.Lib.Flows
import TtAiops.Lib.Ints

/-!
# The flow of minimum cost (`Mcmf` in `livemap.rs`)

The arcs are numbered as they are added, in pairs: the twin of the arc `e` is `e ^ 1`. Vectors are functions of the index.

* `Mcmf`, `add`, `run` : the program; the search, the way back and the push are those of the library;
* `Built`, `built_add` : what is known of a network that is made by adding arcs;
* `Built.wellFormed` : it is a network whose arcs come in pairs;
* `Built.excess`, `Built.spent` : what goes out of a node and what it costs, pair by pair;
* `run_ends` : **where no arc has a negative cost, the run ends, and its result could not be cheaper**.
-/

namespace TtAiops.Fair
open TtAiops.Lib

/-! ## The program -/

/-- `Mcmf`; `dst` is its `to`, and `len` the length of it. A distance of `i64::MAX` is `⊤`: no sum of travel times comes near. -/
structure Mcmf where
  len : ℕ
  dst : ℕ → ℕ
  cap : ℕ → ℤ
  cost : ℕ → ℤ
  head : ℕ → List ℕ

def Mcmf.new : Mcmf := ⟨0, fun _ => 0, fun _ => 0, fun _ => 0, fun _ => []⟩

/-- `add`: an arc and its twin. -/
def Mcmf.add (g : Mcmf) (u v : ℕ) (cap cost : ℤ) : Mcmf :=
  let e := g.len
  let head := Function.update g.head u (g.head u ++ [e])
  { len := e + 2
    dst := Function.update (Function.update g.dst e v) (e + 1) u
    cap := Function.update (Function.update g.cap e cap) (e + 1) 0
    cost := Function.update (Function.update g.cost e cost) (e + 1) (-cost)
    head := Function.update head v (head v ++ [e + 1]) }

/-- The arcs as the search sees them. -/
def Mcmf.net (g : Mcmf) : Network ℕ ℕ := ⟨g.head, g.dst, fun e => e ^^^ 1, g.cost⟩

/-- `run`: the network that is left, the cost and the flow; `none` if the fuel is used up. -/
def Mcmf.run (g : Mcmf) (fuel s t : ℕ) : Option (Mcmf × ℤ × ℤ) :=
  (g.net.rounds s t i64Max fuel fuel ⟨g.cap, 0, 0⟩).map fun fl => ({ g with cap := fl.cap }, fl.totalCost, fl.totalFlow)

/-! ## A network that is made by adding arcs -/

/-- What is handed to `add`. -/
structure Added where
  u : ℕ
  v : ℕ
  cap : ℤ
  cost : ℤ

/-- The first `k` arcs of `es` have been added. -/
structure Built (es : ℕ → Added) (k : ℕ) (g : Mcmf) : Prop where
  len : g.len = 2 * k
  fwd : ∀ i < k, g.dst (2 * i) = (es i).v ∧ g.cap (2 * i) = (es i).cap ∧ g.cost (2 * i) = (es i).cost
  bwd : ∀ i < k, g.dst (2 * i + 1) = (es i).u ∧ g.cap (2 * i + 1) = 0 ∧ g.cost (2 * i + 1) = -(es i).cost
  blank : ∀ e, 2 * k ≤ e → g.cap e = 0 ∧ g.cost e = 0
  mem : ∀ v e, e ∈ g.head v ↔ ∃ i < k, (e = 2 * i ∧ (es i).u = v) ∨ (e = 2 * i + 1 ∧ (es i).v = v)
  nodup : ∀ v, (g.head v).Nodup

variable {es : ℕ → Added} {k : ℕ} {g : Mcmf}

theorem built_new (es : ℕ → Added) : Built es 0 Mcmf.new :=
  ⟨rfl, fun i hi => absurd hi (Nat.not_lt_zero i), fun i hi => absurd hi (Nat.not_lt_zero i), fun _ _ => ⟨rfl, rfl⟩,
    fun v e => by simp [Mcmf.new], fun _ => List.nodup_nil⟩

theorem mem_head_add (u v : ℕ) (cap cost : ℤ) (x e : ℕ) : e ∈ (g.add u v cap cost).head x ↔
    e ∈ g.head x ∨ (e = g.len ∧ u = x) ∨ (e = g.len + 1 ∧ v = x) := by
  unfold Mcmf.add
  dsimp only
  rw [Function.update_apply]
  by_cases hv : x = v
  · subst hv
    rw [if_pos rfl, List.mem_append, Function.update_apply]
    by_cases hu : x = u
    · subst hu
      simp [or_assoc]
    · simp [hu, Ne.symm hu]
  · rw [if_neg hv, Function.update_apply]
    by_cases hu : x = u
    · subst hu
      simp [Ne.symm hv]
    · simp [hu, Ne.symm hu, Ne.symm hv]

/-! ### What a vector has after two pushes -/

section pushes
variable {α : Type} (f : ℕ → α) (n : ℕ) (a b : α)

theorem update_two_left : Function.update (Function.update f n a) (n + 1) b n = a := by
  rw [Function.update_of_ne (Nat.lt_succ_self n).ne, Function.update_self]

theorem update_two_right : Function.update (Function.update f n a) (n + 1) b (n + 1) = b := Function.update_self _ _ _

theorem update_two_of_ne {x : ℕ} (h : x ≠ n) (h' : x ≠ n + 1) : Function.update (Function.update f n a) (n + 1) b x = f x := by
  rw [Function.update_of_ne h', Function.update_of_ne h]

end pushes

/-- Numbers that are handed out one after the other stand in their lists once. -/
theorem nodup_push {head : ℕ → List ℕ} {n : ℕ} (h : ∀ x, (head x).Nodup ∧ ∀ e ∈ head x, e < n) (u x : ℕ) :
    (Function.update head u (head u ++ [n]) x).Nodup ∧ ∀ e ∈ Function.update head u (head u ++ [n]) x, e < n + 1 := by
  rw [Function.update_apply]
  split
  · constructor
    · refine List.Nodup.append (h u).1 (List.nodup_singleton n) ?_
      intro e he he'
      have := (h u).2 e he
      rw [List.mem_singleton.mp he'] at this
      exact lt_irrefl n this
    · intro e he
      obtain he | he := List.mem_append.mp he
      · have := (h u).2 e he
        omega
      · rw [List.mem_singleton.mp he]
        exact Nat.lt_succ_self n
  · exact ⟨(h x).1, fun e he => ((h x).2 e he).trans (Nat.lt_succ_self n)⟩

theorem add_of_lt (u v : ℕ) (cap cost : ℤ) {e : ℕ} (he : e < g.len) :
    (g.add u v cap cost).dst e = g.dst e ∧ (g.add u v cap cost).cap e = g.cap e ∧
      (g.add u v cap cost).cost e = g.cost e := by
  have hne : e ≠ g.len := he.ne
  have hne' : e ≠ g.len + 1 := (he.trans (Nat.lt_succ_self _)).ne
  exact ⟨update_two_of_ne _ _ _ _ hne hne', update_two_of_ne _ _ _ _ hne hne', update_two_of_ne _ _ _ _ hne hne'⟩

theorem built_add (h : Built es k g) {u v : ℕ} {cap cost : ℤ} (hes : es k = ⟨u, v, cap, cost⟩) :
    Built es (k + 1) (g.add u v cap cost) := by
  have hlen := h.len
  have hlast : ∀ i < k + 1, ¬ i < k → i = k := fun i hi hik => by omega
  refine ⟨by show g.len + 2 = _; omega, ?_, ?_, ?_, ?_, ?_⟩
  · intro i hi
    by_cases hik : i < k
    · obtain ⟨hdst, hcap, hcost⟩ := add_of_lt (g := g) u v cap cost (e := 2 * i) (by omega)
      rw [hdst, hcap, hcost]
      exact h.fwd i hik
    · obtain rfl := hlast i hi hik
      unfold Mcmf.add
      dsimp only
      rw [hlen, update_two_left, update_two_left, update_two_left, hes]
      exact ⟨rfl, rfl, rfl⟩
  · intro i hi
    by_cases hik : i < k
    · obtain ⟨hdst, hcap, hcost⟩ := add_of_lt (g := g) u v cap cost (e := 2 * i + 1) (by omega)
      rw [hdst, hcap, hcost]
      exact h.bwd i hik
    · obtain rfl := hlast i hi hik
      unfold Mcmf.add
      dsimp only
      rw [hlen, update_two_right, update_two_right, update_two_right, hes]
      exact ⟨rfl, rfl, rfl⟩
  · intro e he
    unfold Mcmf.add
    dsimp only
    rw [hlen, update_two_of_ne _ _ _ _ (by omega) (by omega), update_two_of_ne _ _ _ _ (by omega) (by omega)]
    exact h.blank e (by omega)
  · intro x e
    rw [mem_head_add, h.mem, hlen]
    constructor
    · intro he
      obtain ⟨i, hi, he⟩ | ⟨he, hx⟩ | ⟨he, hx⟩ := he
      · exact ⟨i, by omega, he⟩
      · exact ⟨k, by omega, Or.inl ⟨he, by rw [hes]; exact hx⟩⟩
      · exact ⟨k, by omega, Or.inr ⟨he, by rw [hes]; exact hx⟩⟩
    · intro ⟨i, hi, he⟩
      by_cases hik : i < k
      · exact Or.inl ⟨i, hik, he⟩
      · obtain rfl := hlast i hi hik
        rw [hes] at he
        exact Or.inr he
  · have hfresh : ∀ x, (g.head x).Nodup ∧ ∀ e ∈ g.head x, e < g.len := by
      refine fun x => ⟨h.nodup x, fun e he => ?_⟩
      obtain ⟨i, hi, he⟩ := (h.mem x e).mp he
      omega
    exact fun x => (nodup_push (nodup_push hfresh u) v x).1

/-! ## Its arcs come in pairs -/

theorem xor_even (i : ℕ) : 2 * i ^^^ 1 = 2 * i + 1 := Nat.xor_one_of_even (even_two_mul i)

theorem xor_odd (i : ℕ) : (2 * i + 1) ^^^ 1 = 2 * i := by
  rw [← xor_even, Nat.xor_xor_cancel_right]

theorem even_or_odd_index (e : ℕ) : ∃ i, e = 2 * i ∨ e = 2 * i + 1 := ⟨e / 2, by omega⟩

theorem Built.wellFormed (h : Built es k g) {n : ℕ} (hn : ∀ i < k, (es i).u < n ∧ (es i).v < n) :
    g.net.WellFormed (Finset.range n) := by
  refine ⟨fun e => Nat.xor_xor_cancel_right e 1, ?_, ?_, ?_, h.nodup, ?_, ?_⟩
  · intro e
    show e ^^^ 1 ≠ e
    obtain ⟨i, rfl | rfl⟩ := even_or_odd_index e
    · rw [xor_even]
      omega
    · rw [xor_odd]
      omega
  · intro e
    show g.cost (e ^^^ 1) = -g.cost e
    obtain ⟨i, he⟩ := even_or_odd_index e
    by_cases hi : i < k
    · have hfwd := (h.fwd i hi).2.2
      have hbwd := (h.bwd i hi).2.2
      obtain rfl | rfl := he
      · rw [xor_even, hfwd, hbwd]
      · rw [xor_odd, hfwd, hbwd, neg_neg]
    · have hfwd := (h.blank (2 * i) (by omega)).2
      have hbwd := (h.blank (2 * i + 1) (by omega)).2
      obtain rfl | rfl := he
      · rw [xor_even, hfwd, hbwd, neg_zero]
      · rw [xor_odd, hfwd, hbwd, neg_zero]
  · intro v e he
    show g.dst (e ^^^ 1) = v
    obtain ⟨i, hi, ⟨rfl, hv⟩ | ⟨rfl, hv⟩⟩ := (h.mem v e).mp he
    · rw [xor_even, (h.bwd i hi).1, hv]
    · rw [xor_odd, (h.fwd i hi).1, hv]
  · intro v e he
    show e ^^^ 1 ∈ g.head (g.dst e)
    obtain ⟨i, hi, ⟨rfl, _⟩ | ⟨rfl, _⟩⟩ := (h.mem v e).mp he
    · rw [xor_even, (h.fwd i hi).1]
      exact (h.mem _ _).mpr ⟨i, hi, Or.inr ⟨rfl, rfl⟩⟩
    · rw [xor_odd, (h.bwd i hi).1]
      exact (h.mem _ _).mpr ⟨i, hi, Or.inl ⟨rfl, rfl⟩⟩
  · intro v e he
    show g.dst e ∈ Finset.range n
    obtain ⟨i, hi, ⟨rfl, _⟩ | ⟨rfl, _⟩⟩ := (h.mem v e).mp he
    · rw [(h.fwd i hi).1]
      exact Finset.mem_range.mpr (hn i hi).2
    · rw [(h.bwd i hi).1]
      exact Finset.mem_range.mpr (hn i hi).1

/-! ## The flow, pair by pair -/

theorem sum_range_two_mul (f : ℕ → ℤ) (k : ℕ) :
    ∑ e ∈ Finset.range (2 * k), f e = ∑ i ∈ Finset.range k, (f (2 * i) + f (2 * i + 1)) := by
  induction k with
  | zero => rfl
  | succ k ih =>
    rw [show 2 * (k + 1) = 2 * k + 1 + 1 by omega, Finset.sum_range_succ, Finset.sum_range_succ, ih, Finset.sum_range_succ]
    ring

theorem Built.toFinset (h : Built es k g) (v : ℕ) :
    (g.head v).toFinset = (Finset.range (2 * k)).filter fun e => g.dst (e ^^^ 1) = v := by
  ext e
  rw [List.mem_toFinset, h.mem, Finset.mem_filter, Finset.mem_range]
  constructor
  · intro ⟨i, hi, he⟩
    obtain ⟨rfl, hv⟩ | ⟨rfl, hv⟩ := he
    · rw [xor_even, (h.bwd i hi).1]
      exact ⟨by omega, hv⟩
    · rw [xor_odd, (h.fwd i hi).1]
      exact ⟨by omega, hv⟩
  · intro ⟨he, hv⟩
    obtain ⟨i, rfl | rfl⟩ := even_or_odd_index e
    · rw [xor_even, (h.bwd i (by omega)).1] at hv
      exact ⟨i, by omega, Or.inl ⟨rfl, hv⟩⟩
    · rw [xor_odd, (h.fwd i (by omega)).1] at hv
      exact ⟨i, by omega, Or.inr ⟨rfl, hv⟩⟩

theorem gain_eq (h : Built es k g) {cap : ℕ → ℤ} (hpair : ∀ e, cap e + cap (e ^^^ 1) = g.cap e + g.cap (e ^^^ 1)) {i : ℕ}
    (hi : i < k) : g.cap (2 * i) - cap (2 * i) = cap (2 * i + 1) ∧ g.cap (2 * i + 1) - cap (2 * i + 1) = -cap (2 * i + 1) := by
  have hp := hpair (2 * i)
  have hbwd := (h.bwd i hi).2.1
  rw [xor_even] at hp
  constructor
  · omega
  · omega

theorem Built.excess_eq (h : Built es k g) {cap : ℕ → ℤ} (hpair : ∀ e, cap e + cap (e ^^^ 1) = g.cap e + g.cap (e ^^^ 1))
    (v : ℕ) : g.net.excess g.cap cap v = ∑ i ∈ Finset.range k,
      ((if (es i).u = v then cap (2 * i + 1) else 0) - (if (es i).v = v then cap (2 * i + 1) else 0)) := by
  show ∑ e ∈ (g.head v).toFinset, (g.cap e - cap e) = _
  rw [h.toFinset, Finset.sum_filter, sum_range_two_mul]
  apply Finset.sum_congr rfl
  intro i hi
  have hi := Finset.mem_range.mp hi
  obtain ⟨hfwd, hbwd⟩ := gain_eq h hpair hi
  rw [xor_even, xor_odd, (h.bwd i hi).1, (h.fwd i hi).1, hfwd, hbwd]
  split_ifs <;> ring

theorem Built.spent_eq (h : Built es k g) {cap : ℕ → ℤ} (hpair : ∀ e, cap e + cap (e ^^^ 1) = g.cap e + g.cap (e ^^^ 1))
    {n : ℕ} (hn : ∀ i < k, (es i).u < n ∧ (es i).v < n) :
    g.net.spent (Finset.range n) g.cap cap = 2 * ∑ i ∈ Finset.range k, (es i).cost * cap (2 * i + 1) := by
  show ∑ v ∈ Finset.range n, ∑ e ∈ (g.head v).toFinset, g.cost e * (g.cap e - cap e) = _
  simp only [h.toFinset]
  rw [Finset.sum_fiberwise_of_maps_to, sum_range_two_mul, Finset.mul_sum]
  · apply Finset.sum_congr rfl
    intro i hi
    have hi := Finset.mem_range.mp hi
    obtain ⟨hfwd, hbwd⟩ := gain_eq h hpair hi
    rw [(h.fwd i hi).2.2, (h.bwd i hi).2.2, hfwd, hbwd]
    ring
  · intro e he
    have he := Finset.mem_range.mp he
    obtain ⟨i, rfl | rfl⟩ := even_or_odd_index e
    · rw [xor_even, (h.bwd i (by omega)).1]
      exact Finset.mem_range.mpr (hn i (by omega)).1
    · rw [xor_odd, (h.fwd i (by omega)).1]
      exact Finset.mem_range.mpr (hn i (by omega)).2

/-! ## The run -/

/-- **Where no arc has a negative cost, the run ends**, whatever fuel it has above some amount. -/
theorem run_ends (h : Built es k g) {n : ℕ} (hn : ∀ i < k, (es i).u < n ∧ (es i).v < n)
    (hes : ∀ i < k, 0 ≤ (es i).cap ∧ 0 ≤ (es i).cost) {s t : ℕ} (hst : s ≠ t) :
    ∃ fuel fl, (∀ more, fuel ≤ more → g.run more s t = some ({ g with cap := fl.cap }, fl.totalCost, fl.totalFlow)) ∧
      g.net.Done (Finset.range n) g.cap s t fl := by
  have hcap : ∀ e, 0 ≤ g.cap e := by
    intro e
    obtain ⟨i, he⟩ := even_or_odd_index e
    by_cases hi : i < k
    · obtain rfl | rfl := he
      · rw [(h.fwd i hi).2.1]
        exact (hes i hi).1
      · rw [(h.bwd i hi).2.1]
    · rw [(h.blank e (by omega)).1]
  have hcost : ∀ v, ∀ e ∈ g.net.out v, 0 < g.cap e → 0 ≤ g.net.cost e := by
    intro v e he hopen
    show 0 ≤ g.cost e
    obtain ⟨i, hi, ⟨rfl, _⟩ | ⟨rfl, _⟩⟩ := (h.mem v e).mp he
    · rw [(h.fwd i hi).2.2]
      exact (hes i hi).2
    · rw [(h.bwd i hi).2.1] at hopen
      exact absurd hopen (lt_irrefl 0)
  obtain ⟨fuel, fl, hrounds, hdone⟩ := Network.rounds_end (h.wellFormed hn) hst (show 0 < i64Max by decide)
    (Network.valid_start hcap hcost)
  refine ⟨fuel, fl, ?_, hdone⟩
  intro more hmore
  rw [Mcmf.run, hrounds more more hmore hmore, Option.map_some]

end TtAiops.Fair
