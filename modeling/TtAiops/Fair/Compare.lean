import TtAiops.Fair.Mcmf
import TtAiops.Lib.Assignment

/-!
# The fair comparison (`livemap.rs`)

Trucks that were free in the same minute are given the works of that minute again, at the least sum of the travel times, and
the sum is compared with that of the assignment that was made.

* `Batch`, `network`, `sigma`, `compare` : the program, for one minute;
* `built_network` : the arcs of the network in the order in which they are added;
* `Carried`, `carried_of_done` : when the run ends, every truck has one saturated arc to a work, and every work one from a truck;
* `Matching`, `compare_sound` : **the run carries one unit for each truck, and the works read back are a permutation whose
  cost is the reported one and the least of all, so not above that of the assignment that was made**.
-/

namespace TtAiops.Fair
open TtAiops.Lib

/-! ## The program -/

/-- The pairs of a minute: how long the truck of the pair `i` takes to the work of the pair `j`. -/
structure Batch where
  m : ℕ
  cost : ℕ → ℕ → ℤ
  nonneg : ∀ i < m, ∀ j < m, 0 ≤ cost i j

variable (b : Batch)

/-- `t`; `s` is the node 0, the trucks are `1 + i`, and the works `1 + m + j`. -/
def Batch.target : ℕ := 2 * b.m + 1

/-- The arcs from `s` and to `t`, and then those from every truck to every work. -/
def network : Mcmf :=
  let ends := (List.range b.m).foldl (fun g i => (g.add 0 (1 + i) 1 0).add (1 + b.m + i) b.target 1 0) Mcmf.new
  (List.range b.m).foldl (fun g i =>
    (List.range b.m).foldl (fun g j => g.add (1 + i) (1 + b.m + j) 1 (b.cost i j)) g) ends

/-- The work of a truck: that of its first saturated arc to a work. -/
def readBack (g : Mcmf) (i : ℕ) : ℕ :=
  match (g.head (1 + i)).find? fun e => 1 + b.m ≤ g.dst e ∧ g.dst e < 1 + 2 * b.m ∧ g.cap e = 0 with
  | some e => g.dst e - (1 + b.m)
  | none => i

/-- `sigma`: as it was, if there is one pair only or not all trucks are matched. -/
def sigma (fuel : ℕ) : Option (List ℕ) :=
  if 1 < b.m then
    ((network b).run fuel 0 b.target).map fun r =>
      if (b.m : ℤ) ≤ r.2.2 then (List.range b.m).map (readBack b r.1) else List.range b.m
  else some (List.range b.m)

structure Compared where
  tosTotal : ℤ
  ourTotal : ℤ
  same : ℕ
  deriving DecidableEq

/-- The sums of the assignment that was made and of ours, and how many pairs are as they were. -/
def compare (fuel : ℕ) : Option Compared :=
  (sigma b fuel).map fun sigma =>
    { tosTotal := ((List.range b.m).map fun i => b.cost i i).sum
      ourTotal := ((List.range b.m).map fun i => b.cost i (sigma.getD i 0)).sum
      same := (List.range b.m).countP fun i => sigma.getD i 0 = i }

/-! ## The arcs of the network -/

/-- The arcs in the order in which they are added. -/
def arcs (k : ℕ) : Added :=
  if k < 2 * b.m then
    if k % 2 = 0 then ⟨0, 1 + k / 2, 1, 0⟩ else ⟨1 + b.m + k / 2, b.target, 1, 0⟩
  else ⟨1 + (k - 2 * b.m) / b.m, 1 + b.m + (k - 2 * b.m) % b.m, 1, b.cost ((k - 2 * b.m) / b.m) ((k - 2 * b.m) % b.m)⟩

variable {b}

theorem arcs_source {i : ℕ} (hi : i < b.m) : arcs b (2 * i) = ⟨0, 1 + i, 1, 0⟩ := by
  unfold arcs
  rw [if_pos (by omega), if_pos (by omega), show 2 * i / 2 = i by omega]

theorem arcs_target {j : ℕ} (hj : j < b.m) : arcs b (2 * j + 1) = ⟨1 + b.m + j, b.target, 1, 0⟩ := by
  unfold arcs
  rw [if_pos (by omega), if_neg (by omega), show (2 * j + 1) / 2 = j by omega]

theorem arcs_pair (i : ℕ) {j : ℕ} (hj : j < b.m) :
    arcs b (2 * b.m + (b.m * i + j)) = ⟨1 + i, 1 + b.m + j, 1, b.cost i j⟩ := by
  unfold arcs
  rw [if_neg (by omega), show 2 * b.m + (b.m * i + j) - 2 * b.m = b.m * i + j by omega,
    Nat.mul_add_div (by omega), Nat.div_eq_of_lt hj, Nat.mul_add_mod, Nat.mod_eq_of_lt hj, add_zero]

/-- A loop over a range keeps what each of its steps takes one further. -/
theorem foldl_range {α : Type} {P : ℕ → α → Prop} {f : α → ℕ → α} {n : ℕ} {a : α} (ha : P 0 a)
    (hstep : ∀ i < n, ∀ a, P i a → P (i + 1) (f a i)) : P n ((List.range n).foldl f a) := by
  induction n with
  | zero => exact ha
  | succ n ih =>
    rw [List.range_succ, List.foldl_append]
    exact hstep n (Nat.lt_succ_self n) _ (ih fun i hi => hstep i (by omega))

theorem built_network : Built (arcs b) (2 * b.m + b.m * b.m) (network b) := by
  unfold network
  apply foldl_range (P := fun i g => Built (arcs b) (2 * b.m + b.m * i) g)
  · apply foldl_range (P := fun i g => Built (arcs b) (2 * i) g)
    · exact built_new _
    · intro i hi g hg
      exact built_add (built_add hg (arcs_source hi)) (arcs_target hi)
  · intro i hi g hg
    have hrow := foldl_range (P := fun j g => Built (arcs b) (2 * b.m + (b.m * i + j)) g) (n := b.m)
      (f := fun g j => g.add (1 + i) (1 + b.m + j) 1 (b.cost i j)) hg
      (fun j hj g hg => built_add hg (arcs_pair i hj))
    rw [Nat.mul_succ]
    exact hrow

/-- Every arc is from the source to a truck, from a work to the target, or from a truck to a work. -/
theorem arcs_cases {k : ℕ} (hk : k < 2 * b.m + b.m * b.m) : (∃ i < b.m, k = 2 * i) ∨ (∃ j < b.m, k = 2 * j + 1) ∨
    ∃ i < b.m, ∃ j < b.m, k = 2 * b.m + (b.m * i + j) := by
  by_cases hends : k < 2 * b.m
  · by_cases heven : k % 2 = 0
    · exact Or.inl ⟨k / 2, by omega, by omega⟩
    · exact Or.inr (Or.inl ⟨k / 2, by omega, by omega⟩)
  · have hm : 0 < b.m := by
      by_contra hm
      rw [show b.m = 0 by omega] at hk
      omega
    have hdiv := Nat.div_add_mod (k - 2 * b.m) b.m
    refine Or.inr (Or.inr ⟨(k - 2 * b.m) / b.m, ?_, (k - 2 * b.m) % b.m, Nat.mod_lt _ hm, by omega⟩)
    exact Nat.div_lt_of_lt_mul (by omega)

theorem arcs_range : ∀ k < 2 * b.m + b.m * b.m, (arcs b k).u < 2 * b.m + 2 ∧ (arcs b k).v < 2 * b.m + 2 := by
  intro k hk
  obtain ⟨i, hi, rfl⟩ | ⟨j, hj, rfl⟩ | ⟨i, hi, j, hj, rfl⟩ := arcs_cases hk
  · rw [arcs_source hi]
    dsimp only
    omega
  · rw [arcs_target hj]
    dsimp only [Batch.target]
    omega
  · rw [arcs_pair i hj]
    dsimp only
    omega

theorem arcs_nonneg : ∀ k < 2 * b.m + b.m * b.m, 0 ≤ (arcs b k).cap ∧ 0 ≤ (arcs b k).cost := by
  intro k hk
  obtain ⟨i, hi, rfl⟩ | ⟨j, hj, rfl⟩ | ⟨i, hi, j, hj, rfl⟩ := arcs_cases hk
  · rw [arcs_source hi]
    exact ⟨zero_le_one, le_rfl⟩
  · rw [arcs_target hj]
    exact ⟨zero_le_one, le_rfl⟩
  · rw [arcs_pair i hj]
    exact ⟨zero_le_one, b.nonneg i hi j hj⟩

theorem sum_arcs (m : ℕ) (f : ℕ → ℤ) : ∑ k ∈ Finset.range (2 * m + m * m), f k
    = ∑ i ∈ Finset.range m, (f (2 * i) + f (2 * i + 1))
      + ∑ i ∈ Finset.range m, ∑ j ∈ Finset.range m, f (2 * m + (m * i + j)) := by
  have hrows : ∀ a, ∑ p ∈ Finset.range (m * a), f (2 * m + p)
      = ∑ i ∈ Finset.range a, ∑ j ∈ Finset.range m, f (2 * m + (m * i + j)) := by
    intro a
    induction a with
    | zero => rfl
    | succ a ih => rw [Nat.mul_succ, Finset.sum_range_add, ih, Finset.sum_range_succ]
  rw [Finset.sum_range_add, sum_range_two_mul, hrows]

/-! ## What the arcs carry -/

def fromSource (cap : ℕ → ℤ) (i : ℕ) : ℤ := cap (2 * (2 * i) + 1)

def toTarget (cap : ℕ → ℤ) (j : ℕ) : ℤ := cap (2 * (2 * j + 1) + 1)

variable (b) in
def between (cap : ℕ → ℤ) (i j : ℕ) : ℤ := cap (2 * (2 * b.m + (b.m * i + j)) + 1)

section carried
variable {cap : ℕ → ℤ} (hpair : ∀ e, cap e + cap (e ^^^ 1) = (network b).cap e + (network b).cap (e ^^^ 1))
include hpair

theorem excess_kinds (v : ℕ) : (network b).net.excess (network b).cap cap v
    = ∑ i ∈ Finset.range b.m, (((if 0 = v then fromSource cap i else 0) - (if 1 + i = v then fromSource cap i else 0))
        + ((if 1 + b.m + i = v then toTarget cap i else 0) - (if b.target = v then toTarget cap i else 0)))
      + ∑ i ∈ Finset.range b.m, ∑ j ∈ Finset.range b.m,
        ((if 1 + i = v then between b cap i j else 0) - (if 1 + b.m + j = v then between b cap i j else 0)) := by
  rw [built_network.excess_eq hpair, sum_arcs]
  congr 1
  · apply Finset.sum_congr rfl
    intro i hi
    rw [arcs_source (Finset.mem_range.mp hi), arcs_target (Finset.mem_range.mp hi)]
    rfl
  · apply Finset.sum_congr rfl
    intro i _
    apply Finset.sum_congr rfl
    intro j hj
    rw [arcs_pair i (Finset.mem_range.mp hj)]
    rfl

theorem excess_source : (network b).net.excess (network b).cap cap 0 = ∑ i ∈ Finset.range b.m, fromSource cap i := by
  rw [excess_kinds hpair]
  simp [Batch.target]

theorem excess_truck {i : ℕ} (hi : i < b.m) : (network b).net.excess (network b).cap cap (1 + i)
    = ∑ j ∈ Finset.range b.m, between b cap i j - fromSource cap i := by
  have htarget : ¬ b.target = 1 + i := by unfold Batch.target; omega
  rw [excess_kinds hpair, Finset.sum_eq_single_of_mem i (Finset.mem_range.mpr hi),
    Finset.sum_eq_single_of_mem i (Finset.mem_range.mpr hi)]
  · rw [if_neg (by omega), if_pos rfl, if_neg (by omega), if_neg htarget]
    have hpairs : ∀ j ∈ Finset.range b.m, ((if 1 + i = 1 + i then between b cap i j else 0)
        - (if 1 + b.m + j = 1 + i then between b cap i j else 0)) = between b cap i j := by
      intro j _
      rw [if_pos rfl, if_neg (by omega), sub_zero]
    rw [Finset.sum_congr rfl hpairs]
    ring
  · intro x _ hne
    apply Finset.sum_eq_zero
    intro j _
    rw [if_neg (by omega), if_neg (by omega), sub_zero]
  · intro x _ hne
    rw [if_neg (by omega), if_neg (by omega), if_neg (by omega), if_neg htarget]
    ring

theorem excess_work {j : ℕ} (hj : j < b.m) : (network b).net.excess (network b).cap cap (1 + b.m + j)
    = toTarget cap j - ∑ i ∈ Finset.range b.m, between b cap i j := by
  have htarget : ¬ b.target = 1 + b.m + j := by unfold Batch.target; omega
  rw [excess_kinds hpair, Finset.sum_eq_single_of_mem j (Finset.mem_range.mpr hj)]
  · rw [if_neg (by omega), if_neg (by omega), if_pos rfl, if_neg htarget]
    have hpairs : ∀ i ∈ Finset.range b.m, ∑ x ∈ Finset.range b.m, ((if 1 + i = 1 + b.m + j then between b cap i x else 0)
        - (if 1 + b.m + x = 1 + b.m + j then between b cap i x else 0)) = -between b cap i j := by
      intro i hi
      have hi := Finset.mem_range.mp hi
      rw [Finset.sum_eq_single_of_mem j (Finset.mem_range.mpr hj)]
      · rw [if_neg (by omega), if_pos rfl, zero_sub]
      · intro x _ hne
        rw [if_neg (by omega), if_neg (by omega), sub_zero]
    rw [Finset.sum_congr rfl hpairs, Finset.sum_neg_distrib]
    ring
  · intro x hx hne
    have hx := Finset.mem_range.mp hx
    rw [if_neg (by omega), if_neg (by omega), if_neg (by omega), if_neg htarget]
    ring

theorem spent_between : (network b).net.spent (Finset.range (2 * b.m + 2)) (network b).cap cap
    = 2 * ∑ i ∈ Finset.range b.m, ∑ j ∈ Finset.range b.m, b.cost i j * between b cap i j := by
  rw [built_network.spent_eq hpair arcs_range, sum_arcs]
  congr 1
  have hends : ∀ i ∈ Finset.range b.m, (arcs b (2 * i)).cost * cap (2 * (2 * i) + 1)
      + (arcs b (2 * i + 1)).cost * cap (2 * (2 * i + 1) + 1) = 0 := by
    intro i hi
    rw [arcs_source (Finset.mem_range.mp hi), arcs_target (Finset.mem_range.mp hi)]
    ring
  rw [Finset.sum_eq_zero hends, zero_add]
  apply Finset.sum_congr rfl
  intro i _
  apply Finset.sum_congr rfl
  intro j hj
  rw [arcs_pair i (Finset.mem_range.mp hj)]
  rfl

theorem unit_arc {k : ℕ} (hk : k < 2 * b.m + b.m * b.m) : cap (2 * k) + cap (2 * k + 1) = 1 := by
  have hp := hpair (2 * k)
  have hcap : (arcs b k).cap = 1 := by
    obtain ⟨i, hi, rfl⟩ | ⟨j, hj, rfl⟩ | ⟨i, hi, j, hj, rfl⟩ := arcs_cases hk
    · rw [arcs_source hi]
    · rw [arcs_target hj]
    · rw [arcs_pair i hj]
  rw [xor_even, (built_network.fwd k hk).2.1, (built_network.bwd k hk).2.1, hcap] at hp
  exact hp

end carried

variable (b) in
/-- Every truck has one work and every work one truck, at what the flow costs; and the potentials prove that it is the least. -/
structure Carried (cap : ℕ → ℤ) (totalCost : ℤ) : Prop where
  unit : ∀ i < b.m, ∀ j < b.m, between b cap i j = 0 ∨ between b cap i j = 1
  row : ∀ i < b.m, ∑ j ∈ Finset.range b.m, between b cap i j = 1
  col : ∀ j < b.m, ∑ i ∈ Finset.range b.m, between b cap i j ≤ 1
  cost : ∑ i ∈ Finset.range b.m, ∑ j ∈ Finset.range b.m, b.cost i j * between b cap i j = totalCost
  potential : ∃ u v : ℕ → ℤ, ∀ i < b.m, ∀ j < b.m,
    (between b cap i j = 0 → v j ≤ u i + b.cost i j) ∧ (between b cap i j = 1 → u i ≤ v j - b.cost i j)

theorem pair_index {i j : ℕ} (hi : i < b.m) (hj : j < b.m) : 2 * b.m + (b.m * i + j) < 2 * b.m + b.m * b.m := by
  have : b.m * (i + 1) ≤ b.m * b.m := Nat.mul_le_mul_left _ hi
  rw [Nat.mul_succ] at this
  omega

section done
variable {fl : Network.Flow ℕ} (h : (network b).net.Done (Finset.range (2 * b.m + 2)) (network b).cap 0 b.target fl)
include h

theorem carried_unit {k : ℕ} (hk : k < 2 * b.m + b.m * b.m) : fl.cap (2 * k + 1) = 0 ∨ fl.cap (2 * k + 1) = 1 := by
  have hunit := unit_arc h.valid.pair hk
  have hfwd := h.valid.nonneg (2 * k)
  have hbwd := h.valid.nonneg (2 * k + 1)
  omega

theorem row_sum {i : ℕ} (hi : i < b.m) : ∑ j ∈ Finset.range b.m, between b fl.cap i j = fromSource fl.cap i := by
  have hexcess := h.valid.excess (1 + i)
  have htarget : ¬ 1 + i = b.target := by unfold Batch.target; omega
  rw [excess_truck h.valid.pair hi, if_neg (by omega), if_neg htarget] at hexcess
  omega

theorem col_sum {j : ℕ} (hj : j < b.m) : ∑ i ∈ Finset.range b.m, between b fl.cap i j = toTarget fl.cap j := by
  have hexcess := h.valid.excess (1 + b.m + j)
  have htarget : ¬ 1 + b.m + j = b.target := by unfold Batch.target; omega
  rw [excess_work h.valid.pair hj, if_neg (by omega), if_neg htarget] at hexcess
  omega

theorem flow_eq : ∑ i ∈ Finset.range b.m, fromSource fl.cap i = fl.totalFlow := by
  have hexcess := h.valid.excess 0
  have htarget : ¬ 0 = b.target := by unfold Batch.target; omega
  rw [excess_source h.valid.pair, if_pos rfl, if_neg htarget] at hexcess
  omega

theorem fromSource_sum : ∑ i ∈ Finset.range b.m, fromSource fl.cap i = ∑ j ∈ Finset.range b.m, toTarget fl.cap j := by
  calc ∑ i ∈ Finset.range b.m, fromSource fl.cap i
      = ∑ i ∈ Finset.range b.m, ∑ j ∈ Finset.range b.m, between b fl.cap i j :=
        Finset.sum_congr rfl fun i hi => (row_sum h (Finset.mem_range.mp hi)).symm
    _ = ∑ j ∈ Finset.range b.m, ∑ i ∈ Finset.range b.m, between b fl.cap i j := Finset.sum_comm
    _ = ∑ j ∈ Finset.range b.m, toTarget fl.cap j :=
        Finset.sum_congr rfl fun j hj => col_sum h (Finset.mem_range.mp hj)

theorem reached_next {reached : ℕ → Prop}
    (hcut : ∀ v, reached v → ∀ e ∈ (network b).net.out v, 0 < fl.cap e → reached ((network b).net.dst e)) {k : ℕ}
    (hk : k < 2 * b.m + b.m * b.m) (hu : reached (arcs b k).u) (hzero : fl.cap (2 * k + 1) = 0) : reached (arcs b k).v := by
  have hmem : 2 * k ∈ (network b).head (arcs b k).u := (built_network.mem _ _).mpr ⟨k, hk, Or.inl ⟨rfl, rfl⟩⟩
  have hunit := unit_arc h.valid.pair hk
  have := hcut _ hu (2 * k) hmem (by omega)
  rw [show (network b).net.dst (2 * k) = (arcs b k).v from (built_network.fwd k hk).1] at this
  exact this

/-- When the target cannot be reached, every truck is matched: from one that is not, every work could be reached, and from a
work without a truck the target. -/
theorem fromSource_eq_one {i : ℕ} (hi : i < b.m) : fromSource fl.cap i = 1 := by
  obtain ⟨reached, hsource, htarget, hcut⟩ := h.cut
  by_contra hone
  have hzero : fromSource fl.cap i = 0 := (carried_unit h (by omega)).resolve_right hone
  have htruck : reached (1 + i) := by
    have := reached_next h hcut (k := 2 * i) (by omega) (by rw [arcs_source hi]; exact hsource) hzero
    rw [arcs_source hi] at this
    exact this
  have hnone : ∀ j ∈ Finset.range b.m, between b fl.cap i j = 0 := by
    apply (Finset.sum_eq_zero_iff_of_nonneg _).mp
    · rw [row_sum h hi, hzero]
    · intro j _
      exact h.valid.nonneg _
  have hwork : ∀ j ∈ Finset.range b.m, toTarget fl.cap j = 1 := by
    intro j hj
    have hj' := Finset.mem_range.mp hj
    have hreached : reached (1 + b.m + j) := by
      have := reached_next h hcut (pair_index hi hj') (by rw [arcs_pair i hj']; exact htruck) (hnone j hj)
      rw [arcs_pair i hj'] at this
      exact this
    by_contra hfree
    have hfree' : toTarget fl.cap j = 0 := (carried_unit h (by omega)).resolve_right hfree
    have := reached_next h hcut (k := 2 * j + 1) (by omega) (by rw [arcs_target hj']; exact hreached) hfree'
    rw [arcs_target hj'] at this
    exact htarget this
  have hall : ∑ x ∈ Finset.range b.m, fromSource fl.cap x = b.m := by
    rw [fromSource_sum h, Finset.sum_congr rfl hwork]
    simp
  have hless : ∑ x ∈ Finset.range b.m, fromSource fl.cap x < ∑ x ∈ Finset.range b.m, 1 := by
    apply Finset.sum_lt_sum
    · intro x hx
      have hx := Finset.mem_range.mp hx
      obtain h0 | h1 := carried_unit h (k := 2 * x) (by omega)
      · show fl.cap _ ≤ 1
        omega
      · exact h1.le
    · exact ⟨i, Finset.mem_range.mpr hi, by omega⟩
  rw [hall] at hless
  simp at hless

theorem potential_of_done : ∃ u v : ℕ → ℤ, ∀ i < b.m, ∀ j < b.m,
    (between b fl.cap i j = 0 → v j ≤ u i + b.cost i j) ∧ (between b fl.cap i j = 1 → u i ≤ v j - b.cost i j) := by
  obtain ⟨π, hπ⟩ := h.valid.potential
  refine ⟨fun i => π (1 + i), fun j => π (1 + b.m + j), ?_⟩
  intro i hi j hj
  have hk := pair_index hi hj
  have hfwd := built_network.fwd _ hk
  have hbwd := built_network.bwd _ hk
  rw [arcs_pair i hj] at hfwd hbwd
  constructor
  · intro hzero
    have hunit := unit_arc h.valid.pair hk
    have hmem : 2 * (2 * b.m + (b.m * i + j)) ∈ (network b).head (1 + i) :=
      (built_network.mem _ _).mpr ⟨_, hk, Or.inl ⟨rfl, by rw [arcs_pair i hj]⟩⟩
    have hreduced := hπ _ _ hmem (by unfold between at hzero; omega)
    rw [show (network b).net.dst _ = 1 + b.m + j from hfwd.1, show (network b).net.cost _ = b.cost i j from hfwd.2.2] at hreduced
    exact hreduced
  · intro hcarry
    have hmem : 2 * (2 * b.m + (b.m * i + j)) + 1 ∈ (network b).head (1 + b.m + j) :=
      (built_network.mem _ _).mpr ⟨_, hk, Or.inr ⟨rfl, by rw [arcs_pair i hj]⟩⟩
    have hreduced := hπ _ _ hmem (by unfold between at hcarry; omega)
    rw [show (network b).net.dst _ = 1 + i from hbwd.1, show (network b).net.cost _ = -b.cost i j from hbwd.2.2] at hreduced
    dsimp only
    omega

/-- When the run ends, every truck has one work and every work one truck. -/
theorem carried_of_done : fl.totalFlow = b.m ∧ Carried b fl.cap fl.totalCost := by
  have hone : ∀ i ∈ Finset.range b.m, fromSource fl.cap i = 1 := fun i hi => fromSource_eq_one h (Finset.mem_range.mp hi)
  refine ⟨?_, ?_, ?_, ?_, ?_, potential_of_done h⟩
  · rw [← flow_eq h, Finset.sum_congr rfl hone]
    simp
  · intro i hi j hj
    exact carried_unit h (pair_index hi hj)
  · intro i hi
    rw [row_sum h hi]
    exact fromSource_eq_one h hi
  · intro j hj
    rw [col_sum h hj]
    obtain h0 | h1 := carried_unit h (k := 2 * j + 1) (by omega)
    · exact h0.trans_le zero_le_one
    · exact h1.le
  · have hspent := h.valid.spent
    rw [spent_between h.valid.pair] at hspent
    omega

end done

/-! ## What is read back -/

/-- If whole numbers add up to no more than one, only one of them is one. -/
theorem eq_of_sum_le_one {s : Finset ℕ} {f : ℕ → ℤ} (hf : ∀ x ∈ s, 0 ≤ f x) (hsum : ∑ x ∈ s, f x ≤ 1) {x y : ℕ} (hx : x ∈ s)
    (hy : y ∈ s) (hfx : f x = 1) (hfy : f y = 1) : x = y := by
  by_contra hne
  have hpair : ({x, y} : Finset ℕ) ⊆ s := by
    intro z hz
    obtain rfl | hz := Finset.mem_insert.mp hz
    · exact hx
    · rw [Finset.mem_singleton.mp hz]
      exact hy
  have hle := Finset.sum_le_sum_of_subset_of_nonneg hpair fun z hz _ => hf z hz
  rw [Finset.sum_pair hne, hfx, hfy] at hle
  omega

section readBack
variable {g : Mcmf} {totalCost : ℤ} (hc : Carried b g.cap totalCost)
include hc

theorem between_nonneg {i j : ℕ} (hi : i < b.m) (hj : j < b.m) : 0 ≤ between b g.cap i j := by
  obtain h | h := hc.unit i hi j hj
  · omega
  · omega

theorem between_unique {i j j' : ℕ} (hi : i < b.m) (hj : j < b.m) (hj' : j' < b.m) (h : between b g.cap i j = 1)
    (h' : between b g.cap i j' = 1) : j = j' := by
  apply eq_of_sum_le_one _ (hc.row i hi).le (Finset.mem_range.mpr hj) (Finset.mem_range.mpr hj') h h'
  intro x hx
  exact between_nonneg hc hi (Finset.mem_range.mp hx)

theorem between_injective {i i' j : ℕ} (hi : i < b.m) (hi' : i' < b.m) (hj : j < b.m) (h : between b g.cap i j = 1)
    (h' : between b g.cap i' j = 1) : i = i' := by
  apply eq_of_sum_le_one (f := fun x => between b g.cap x j) _ (hc.col j hj) (Finset.mem_range.mpr hi)
    (Finset.mem_range.mpr hi') h h'
  intro x hx
  exact between_nonneg hc (Finset.mem_range.mp hx) hj

theorem exists_between {i : ℕ} (hi : i < b.m) : ∃ j < b.m, between b g.cap i j = 1 := by
  by_contra hnone
  have hzero : ∀ j ∈ Finset.range b.m, between b g.cap i j = 0 := by
    intro j hj
    have hj := Finset.mem_range.mp hj
    exact (hc.unit i hi j hj).resolve_right fun h => hnone ⟨j, hj, h⟩
  have hrow := hc.row i hi
  rw [Finset.sum_eq_zero hzero] at hrow
  omega

variable (hpair : ∀ e, g.cap e + g.cap (e ^^^ 1) = (network b).cap e + (network b).cap (e ^^^ 1))
  (hhead : g.head = (network b).head) (hdst : g.dst = (network b).dst)
include hpair hhead hdst

omit hc hpair hhead hdst in
/-- Of the arcs at a truck only its own lead to a node behind the trucks: the twin of the first one leads to the source. -/
theorem mem_head_truck {i e : ℕ} (hi : i < b.m) (hmem : e ∈ (network b).head (1 + i)) (hlow : 1 + b.m ≤ (network b).dst e) :
    ∃ j < b.m, e = 2 * (2 * b.m + (b.m * i + j)) ∧ (network b).dst e = 1 + b.m + j := by
  obtain ⟨k, hk, ⟨rfl, hu⟩ | ⟨rfl, hv⟩⟩ := (built_network.mem _ _).mp hmem
  · rw [(built_network.fwd k hk).1]
    obtain ⟨i', hi', rfl⟩ | ⟨j', hj', rfl⟩ | ⟨i', hi', j', hj', rfl⟩ := arcs_cases hk
    · rw [arcs_source hi'] at hu
      dsimp only at hu
      omega
    · rw [arcs_target hj'] at hu
      dsimp only at hu
      omega
    · rw [arcs_pair i' hj'] at hu ⊢
      dsimp only at hu
      obtain rfl : i' = i := by omega
      exact ⟨j', hj', rfl, rfl⟩
  · rw [(built_network.bwd k hk).1] at hlow
    obtain ⟨i', hi', rfl⟩ | ⟨j', hj', rfl⟩ | ⟨i', hi', j', hj', rfl⟩ := arcs_cases hk
    · rw [arcs_source hi'] at hlow
      dsimp only at hlow
      omega
    · rw [arcs_target hj'] at hv
      dsimp only [Batch.target] at hv
      omega
    · rw [arcs_pair i' hj'] at hv
      dsimp only at hv
      omega

theorem readBack_spec {i : ℕ} (hi : i < b.m) : readBack b g i < b.m ∧ between b g.cap i (readBack b g i) = 1 := by
  obtain ⟨j, hj, hcarry⟩ := exists_between hc hi
  have hindex := pair_index hi hj
  have hsat : g.cap (2 * (2 * b.m + (b.m * i + j))) = 0 := by
    have hunit := unit_arc hpair hindex
    unfold between at hcarry
    omega
  have hsome : ((g.head (1 + i)).find? fun e => 1 + b.m ≤ g.dst e ∧ g.dst e < 1 + 2 * b.m ∧ g.cap e = 0).isSome := by
    rw [List.find?_isSome]
    refine ⟨2 * (2 * b.m + (b.m * i + j)), ?_, ?_⟩
    · rw [hhead]
      exact (built_network.mem _ _).mpr ⟨_, hindex, Or.inl ⟨rfl, by rw [arcs_pair i hj]⟩⟩
    · rw [hdst, (built_network.fwd _ hindex).1, arcs_pair i hj]
      simp only [decide_eq_true_eq]
      exact ⟨by omega, by omega, hsat⟩
  obtain ⟨e, he⟩ := Option.isSome_iff_exists.mp hsome
  have hmem := List.mem_of_find?_eq_some he
  have hcond := List.find?_some he
  simp only [decide_eq_true_eq] at hcond
  obtain ⟨hlow, _, hzero⟩ := hcond
  rw [hhead] at hmem
  rw [hdst] at hlow
  have hread : readBack b g i = (network b).dst e - (1 + b.m) := by
    unfold readBack
    rw [he, hdst]
  obtain ⟨j', hj', rfl, hend⟩ := mem_head_truck hi hmem hlow
  have hunit := unit_arc hpair (pair_index hi hj')
  rw [hread, hend, Nat.add_sub_cancel_left]
  refine ⟨hj', ?_⟩
  unfold between
  omega

theorem readBack_perm : ((List.range b.m).map (readBack b g)).Perm (List.range b.m) := by
  have hspec : ∀ i < b.m, readBack b g i < b.m ∧ between b g.cap i (readBack b g i) = 1 := fun i hi =>
    readBack_spec hc hpair hhead hdst hi
  have hnodup : ((List.range b.m).map (readBack b g)).Nodup := by
    apply List.Nodup.map_on _ List.nodup_range
    intro i hi i' hi' heq
    have hi := List.mem_range.mp hi
    have hi' := List.mem_range.mp hi'
    apply between_injective hc hi hi' (hspec i hi).1 (hspec i hi).2
    rw [heq]
    exact (hspec i' hi').2
  have hsub : (List.range b.m).map (readBack b g) ⊆ List.range b.m := by
    intro j hj
    obtain ⟨i, hi, rfl⟩ := List.mem_map.mp hj
    exact List.mem_range.mpr (hspec i (List.mem_range.mp hi)).1
  exact (hnodup.subperm hsub).perm_of_length_le (by simp)

theorem readBack_cost : ∑ i ∈ Finset.range b.m, b.cost i (readBack b g i) = totalCost := by
  rw [← hc.cost]
  apply Finset.sum_congr rfl
  intro i hi
  have hi := Finset.mem_range.mp hi
  obtain ⟨hlt, hone⟩ := readBack_spec hc hpair hhead hdst hi
  rw [Finset.sum_eq_single_of_mem _ (Finset.mem_range.mpr hlt), hone, mul_one]
  intro j hj hne
  have hj := Finset.mem_range.mp hj
  obtain h | h := hc.unit i hi j hj
  · rw [h, mul_zero]
  · exact absurd (between_unique hc hi hj hlt h hone) hne

/-- No assignment of the works is cheaper: the potentials of the last round prove it. -/
theorem readBack_best {tau : ℕ → ℕ} (htau : ∀ i < b.m, tau i < b.m) (hinj : Set.InjOn tau (Finset.range b.m)) :
    ∑ i ∈ Finset.range b.m, b.cost i (readBack b g i) ≤ ∑ i ∈ Finset.range b.m, b.cost i (tau i) := by
  obtain ⟨u, v, huv⟩ := hc.potential
  have hspec : ∀ i ∈ Finset.range b.m, readBack b g i < b.m ∧ between b g.cap i (readBack b g i) = 1 := fun i hi =>
    readBack_spec hc hpair hhead hdst (Finset.mem_range.mp hi)
  have hbound : ∀ j ∈ Finset.range b.m, v j ≤ ∑ x ∈ Finset.range b.m, |v x| := fun j hj =>
    (le_abs_self _).trans (Finset.single_le_sum (fun x _ => abs_nonneg (v x)) hj)
  generalize ∑ x ∈ Finset.range b.m, |v x| = top at hbound
  have hread : Set.InjOn (readBack b g) (Finset.range b.m) := by
    intro i hi i' hi' heq
    obtain ⟨hlt, hone⟩ := hspec i hi
    apply between_injective hc (Finset.mem_range.mp hi) (Finset.mem_range.mp hi') hlt hone
    rw [heq]
    exact (hspec i' hi').2
  apply sum_le_of_potentials (Finset.range b.m) (Finset.range b.m)
    (u := fun i => b.cost i (readBack b g i) - v (readBack b g i) + top) (v := fun j => v j - top)
  · intro i hi j hj
    obtain ⟨hlt, hone⟩ := hspec i hi
    have hi := Finset.mem_range.mp hi
    have hj := Finset.mem_range.mp hj
    obtain h | h := hc.unit i hi j hj
    · have hfree := (huv i hi j hj).1 h
      have htight := (huv i hi _ hlt).2 hone
      omega
    · rw [between_unique hc hi hj hlt h hone]
      omega
  · intro j hj
    have := hbound j hj
    omega
  · intro i hi
    exact Finset.mem_range.mpr (hspec i hi).1
  · exact hread
  · intro i _
    ring
  · intro j hj hfree
    have hsurj : Set.SurjOn (readBack b g) (Finset.range b.m) (Finset.range b.m) :=
      Finset.surjOn_of_injOn_of_card_le _ (fun i hi => Finset.mem_coe.mpr (Finset.mem_range.mpr (hspec i hi).1)) hread le_rfl
    obtain ⟨i, hi, rfl⟩ := hsurj (Finset.mem_coe.mpr hj)
    exact absurd rfl (hfree i hi)
  · intro i hi
    exact Finset.mem_range.mpr (htau i (Finset.mem_range.mp hi))
  · exact hinj

end readBack

/-! ## The comparison -/

variable (b) in
/-- A permutation of the works with this cost, and none is cheaper. -/
structure Matching (totalCost : ℤ) (σ : List ℕ) : Prop where
  perm : σ.Perm (List.range b.m)
  cost : ∑ i ∈ Finset.range b.m, b.cost i (σ.getD i 0) = totalCost
  best : ∀ τ : List ℕ, τ.Perm (List.range b.m) →
    ∑ i ∈ Finset.range b.m, b.cost i (σ.getD i 0) ≤ ∑ i ∈ Finset.range b.m, b.cost i (τ.getD i 0)

theorem sum_list_range (f : ℕ → ℤ) (n : ℕ) : ((List.range n).map f).sum = ∑ i ∈ Finset.range n, f i := rfl

theorem getD_range {n i : ℕ} (hi : i < n) : (List.range n).getD i 0 = i := by simp [hi]

theorem matching_of_carried {g : Mcmf} {totalCost : ℤ} (hc : Carried b g.cap totalCost)
    (hpair : ∀ e, g.cap e + g.cap (e ^^^ 1) = (network b).cap e + (network b).cap (e ^^^ 1))
    (hhead : g.head = (network b).head) (hdst : g.dst = (network b).dst) :
    Matching b totalCost ((List.range b.m).map (readBack b g)) := by
  have hsum : ∑ i ∈ Finset.range b.m, b.cost i (((List.range b.m).map (readBack b g)).getD i 0)
      = ∑ i ∈ Finset.range b.m, b.cost i (readBack b g i) := by
    apply Finset.sum_congr rfl
    intro i hi
    have hi := Finset.mem_range.mp hi
    rw [List.getD_eq_getElem _ _ (by simpa using hi), List.getElem_map, List.getElem_range]
  refine ⟨readBack_perm hc hpair hhead hdst, ?_, ?_⟩
  · rw [hsum]
    exact readBack_cost hc hpair hhead hdst
  · intro τ hτ
    have hlen : τ.length = b.m := by rw [hτ.length_eq, List.length_range]
    rw [hsum]
    apply readBack_best hc hpair hhead hdst
    · intro i hi
      rw [List.getD_eq_getElem _ _ (by omega)]
      exact List.mem_range.mp (hτ.mem_iff.mp (List.getElem_mem _))
    · intro i hi i' hi' heq
      have hi := Finset.mem_range.mp hi
      have hi' := Finset.mem_range.mp hi'
      dsimp only at heq
      rw [List.getD_eq_getElem _ _ (by omega), List.getD_eq_getElem _ _ (by omega)] at heq
      exact (hτ.nodup_iff.mpr List.nodup_range).getElem_inj_iff.mp heq

/-- A least permutation is not dearer than the assignment that was made. -/
theorem Matching.le_tos {totalCost : ℤ} {σ : List ℕ} (h : Matching b totalCost σ) :
    totalCost ≤ ∑ i ∈ Finset.range b.m, b.cost i i := by
  have hbest := h.best (List.range b.m) (List.Perm.refl _)
  rw [h.cost] at hbest
  refine hbest.trans (le_of_eq ?_)
  apply Finset.sum_congr rfl
  intro i hi
  rw [getD_range (Finset.mem_range.mp hi)]

variable (b) in
/-- What is added up where the permutation has this cost. -/
def comparedAt (totalCost : ℤ) (σ : List ℕ) : Compared :=
  ⟨∑ i ∈ Finset.range b.m, b.cost i i, totalCost, (List.range b.m).countP fun i => σ.getD i 0 = i⟩

theorem compare_of_sigma {fuel : ℕ} {totalCost : ℤ} {σ : List ℕ} (hσ : sigma b fuel = some σ) (h : Matching b totalCost σ) :
    compare b fuel = some (comparedAt b totalCost σ) := by
  unfold compare comparedAt
  rw [hσ, Option.map_some, sum_list_range, sum_list_range, h.cost]

/-- The run of a batch ends, and `sigma` is what is read back, also where nothing is run. -/
theorem sigma_ends (b : Batch) : ∃ fuel g totalCost, Matching b totalCost ((List.range b.m).map (readBack b g)) ∧
    ∀ more, fuel ≤ more → (network b).run more 0 b.target = some (g, totalCost, (b.m : ℤ)) ∧
      sigma b more = some ((List.range b.m).map (readBack b g)) := by
  obtain ⟨fuel, fl, hrun, hdone⟩ := run_ends built_network arcs_range arcs_nonneg
    (show 0 ≠ b.target by unfold Batch.target; omega)
  obtain ⟨hflow, hcarried⟩ := carried_of_done hdone
  have hmatching := matching_of_carried (g := { network b with cap := fl.cap }) hcarried hdone.valid.pair rfl rfl
  refine ⟨fuel, _, fl.totalCost, hmatching, ?_⟩
  intro more hmore
  have hrun' := hrun more hmore
  rw [hflow] at hrun'
  refine ⟨hrun', ?_⟩
  unfold sigma
  rw [hrun']
  split
  · rw [Option.map_some, if_pos le_rfl]
  · have hperm := hmatching.perm
    obtain hm | hm : b.m = 0 ∨ b.m = 1 := by omega
    · rw [hm]
      rfl
    · rw [hm] at hperm ⊢
      exact congrArg some (List.perm_singleton.mp hperm).symm

/-- **The comparison is fair**: for every batch the run ends and carries one unit for each truck; the works read back are a
permutation whose cost is the reported one and the least of all, so not above that of the assignment that was made. -/
theorem compare_sound (b : Batch) : ∃ fuel g totalCost σ c,
    σ = (List.range b.m).map (readBack b g) ∧ Matching b totalCost σ ∧ c.ourTotal = totalCost ∧ c.ourTotal ≤ c.tosTotal ∧
      ∀ more, fuel ≤ more → (network b).run more 0 b.target = some (g, totalCost, (b.m : ℤ)) ∧ sigma b more = some σ ∧
        compare b more = some c := by
  obtain ⟨fuel, g, totalCost, hmatching, hends⟩ := sigma_ends b
  generalize hσ : (List.range b.m).map (readBack b g) = σ at hmatching hends
  refine ⟨fuel, g, totalCost, σ, comparedAt b totalCost σ, hσ.symm, hmatching, rfl, hmatching.le_tos, ?_⟩
  intro more hmore
  obtain ⟨hrun, hsigma⟩ := hends more hmore
  exact ⟨hrun, hsigma, compare_of_sigma hsigma hmatching⟩

def compareAll (fuel : ℕ) : List Batch → Option Compared
  | [] => some ⟨0, 0, 0⟩
  | b :: bs => (compare b fuel).bind fun c => (compareAll fuel bs).map fun rest =>
      ⟨c.tosTotal + rest.tosTotal, c.ourTotal + rest.ourTotal, c.same + rest.same⟩

theorem compareAll_saves (bs : List Batch) :
    ∃ fuel c, c.ourTotal ≤ c.tosTotal ∧ ∀ more, fuel ≤ more → compareAll more bs = some c := by
  induction bs with
  | nil => exact ⟨0, ⟨0, 0, 0⟩, le_rfl, fun _ _ => rfl⟩
  | cons b bs ih =>
    obtain ⟨fuel, c, hle, hall⟩ := ih
    obtain ⟨fuel', g, totalCost, hmatching, hends⟩ := sigma_ends b
    generalize (List.range b.m).map (readBack b g) = σ at hmatching hends
    refine ⟨fuel + fuel', ⟨_ + c.tosTotal, totalCost + c.ourTotal, (comparedAt b totalCost σ).same + c.same⟩,
      add_le_add hmatching.le_tos hle, ?_⟩
    intro more hmore
    rw [compareAll, compare_of_sigma (hends more (by omega)).2 hmatching, Option.bind_some, hall more (by omega)]
    rfl

/-- The nearest work is taken from the second truck, which has another one almost as near. -/
def twoTrucks : Batch where
  m := 2
  cost := fun i j => if i = 0 then (if j = 0 then 300 else 100) else (if j = 0 then 120 else 90)
  nonneg := by decide

example : sigma twoTrucks 10 = some [1, 0] ∧ compare twoTrucks 10 = some ⟨390, 220, 0⟩ := by decide +kernel

end TtAiops.Fair
