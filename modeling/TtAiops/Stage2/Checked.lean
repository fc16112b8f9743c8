import TtAiops.Lib.Ints
import TtAiops.Lib.Loops
import TtAiops.Stage2.Assign

/-!
# The assignment in integers of 64 bits (`hungarian`)

The same algorithm with a check at every step of the arithmetic: it stops with a fault where a number does not fit, where the
sentinel would be added to a potential, or where a loop is not over after as many turns as there are columns.

* `hungarianChecked` : the algorithm with its checks;
* `Budget` : what bounds the potential of the root, besides the invariants of the tree;
* `growStepChecked_eq`, `growTreeChecked_eq`, `augmentChecked_eq`, `insertRowChecked_eq` : no check of a loop fails;
* `hungarianChecked_optimal` : **the assignment ends without a fault, with a column for every row at the least total cost**.
-/

namespace TtAiops.Stage2
open TtAiops.Lib

/-- What stops the algorithm. -/
inductive Fault
  | assertion
  | overflow
  | infinite
  | endless

/-- A number, if it fits into 64 bits. -/
def fit (x : ℤ) : Except Fault ℤ := if InI64 x then .ok x else .error .overflow

/-- The potential `x` becomes, when `delta` is added to it or taken from it. -/
def moved (delta x : ℤ) : Except Fault ℤ := if inf ≤ delta then .error .infinite else fit x

/-- `cur = a[i0 - 1][j - 1] - u[i0] - v[j]`, and what the turn does with it. -/
def scanStepChecked (cost : ℕ → ℕ → ℤ) (t : Tables) (i0 : ℕ) (used : ℕ → Bool) (j0 : ℕ) (s : Scan) (j : ℕ) :
    Except Fault Scan :=
  if used j then .ok s
  else do
    let x ← fit (cost i0 j - t.u i0)
    let cur ← fit (x - t.v j)
    .ok (scanStep (fun _ => cur) used j0 s j)

def shiftStepChecked (delta : ℤ) (t : Tables) (j : ℕ) : Except Fault Tables :=
  if t.used j then do
    let u ← moved delta (t.u (t.p j) + delta)
    let v ← moved delta (t.v j - delta)
    .ok { t with u := Function.update t.u (t.p j) u, v := Function.update t.v j v }
  else do
    let x ← fit (t.minv j - delta)
    .ok { t with minv := Function.update t.minv j x }

def growStepChecked (cost : ℕ → ℕ → ℤ) (m : ℕ) (t : Tables) (j0 : ℕ) : Except Fault (Tables × ℕ) := do
  let used := Function.update t.used j0 true
  let i0 := t.p j0
  let s ← (List.range' 1 m).foldlM (scanStepChecked cost t i0 used j0) ⟨t.way, t.minv, inf, 0⟩
  let t' ← (List.range (m + 1)).foldlM (shiftStepChecked s.delta) { t with way := s.way, minv := s.minv, used := used }
  .ok (t', s.j1)

def growTreeChecked (cost : ℕ → ℕ → ℤ) (m : ℕ) : ℕ → Tables → ℕ → Except Fault (Tables × ℕ)
  | 0, _, _ => .error .endless
  | fuel + 1, t, j0 => do
    let r ← growStepChecked cost m t j0
    if r.1.p r.2 = 0 then .ok r else growTreeChecked cost m fuel r.1 r.2

def augmentChecked (way : ℕ → ℕ) : ℕ → (ℕ → ℕ) → ℕ → Except Fault (ℕ → ℕ)
  | 0, _, _ => .error .endless
  | fuel + 1, p, j0 =>
    let p' := Function.update p j0 (p (way j0))
    if way j0 = 0 then .ok p' else augmentChecked way fuel p' (way j0)

def insertRowChecked (cost : ℕ → ℕ → ℤ) (m : ℕ) (t : Tables) (i : ℕ) : Except Fault Tables := do
  let r ← growTreeChecked cost m (m + 1)
    { t with p := Function.update t.p 0 i, minv := fun _ => inf, used := fun _ => false } 0
  let p ← augmentChecked r.1.way (m + 1) r.1.p r.2
  .ok { r.1 with p := p }

/-- `hungarian`, with the check of every step. -/
def hungarianChecked (a : List (List ℤ)) : Except Fault (List ℕ) :=
  match a with
  | [] => .ok []
  | row :: _ =>
    if row.length < a.length then .error .assertion
    else do
      let t ← (List.range' 1 a.length).foldlM (insertRowChecked (entry a) row.length) emptyTables
      .ok (readRows t.p a.length row.length)

/-! ## The loops over the columns -/

theorem fit_eq {x : ℤ} (h : InI64 x) : fit x = .ok x := if_pos h

theorem moved_eq {delta x : ℤ} (hd : delta < inf) (h : InI64 x) :
    moved delta x = .ok x := by
  rw [moved, if_neg (not_le.mpr hd), fit_eq h]

section Steps

variable {cost : ℕ → ℕ → ℤ} {n m : ℕ} {M : ℤ} {i : ℕ} {t : Tables}

/-- The root and the row that is inserted have their potentials moved together, and no later row has one. -/
structure Budget (M : ℤ) (i : ℕ) (t : Tables) : Prop where
  root : -((i : ℤ) - 1) * M ≤ t.v 0 + t.u i
  root_nonpos : t.v 0 ≤ 0
  later : ∀ r, i < r → t.u r = 0

theorem scanChecked_eq {i0 j0 : ℕ} {used : ℕ → Bool}
    (hfit : ∀ j, 1 ≤ j → j ≤ m → used j = false → fit (cost i0 j - t.u i0) = .ok (cost i0 j - t.u i0) ∧
      fit (cost i0 j - t.u i0 - t.v j) = .ok (cost i0 j - t.u i0 - t.v j)) :
    (List.range' 1 m).foldlM (scanStepChecked cost t i0 used j0) ⟨t.way, t.minv, inf, 0⟩ =
      .ok (scan (fun j => cost i0 j - t.u i0 - t.v j) used j0 m t.way t.minv) := by
  refine foldlM_eq_ok fun k hk => ?_
  rw [List.length_range'] at hk
  rw [List.getElem_range', scanStepChecked]
  cases hu : used (1 + 1 * k) with
  | true =>
    rw [if_pos rfl, scanStep, if_pos hu]
  | false =>
    obtain ⟨hx, hcur⟩ := hfit (1 + 1 * k) (by omega) (by omega) hu
    rw [if_neg Bool.false_ne_true, hx]
    show (fit (cost i0 (1 + 1 * k) - t.u i0 - t.v (1 + 1 * k))).bind _ = _
    rw [hcur]
    rfl

theorem shiftChecked_eq {delta : ℤ} (hd : delta < inf)
    (hinj : ∀ j ≤ m, ∀ k ≤ m, t.used j = true → t.used k = true → t.p j = t.p k → j = k)
    (hu : ∀ j ≤ m, t.used j = true → InI64 (t.u (t.p j) + delta))
    (hv : ∀ j ≤ m, t.used j = true → InI64 (t.v j - delta))
    (hminv : ∀ j ≤ m, t.used j = false → InI64 (t.minv j - delta)) :
    (List.range (m + 1)).foldlM (shiftStepChecked delta) t = .ok (shift delta m t) := by
  refine foldlM_eq_ok fun k hk => ?_
  rw [List.length_range] at hk
  have hupto : ShiftUpTo delta k t ((List.range k).foldl (shiftStep delta) t) := shiftUpTo_range hinj hk.le
  rw [List.take_range, min_eq_left hk.le, List.getElem_range]
  generalize (List.range k).foldl (shiftStep delta) t = t' at hupto ⊢
  have hsame : t'.used k = t.used k := by rw [hupto.used]
  rw [shiftStepChecked, shiftStep, hsame]
  cases hused : t.used k with
  | true =>
    have hrow : t'.u (t'.p k) = t.u (t.p k) := by
      rw [hupto.p]
      refine hupto.u_out _ fun j hj hj' he => ?_
      exact absurd (hinj j (by omega) k (by omega) hj' hused he) (by omega)
    have hcol : t'.v k = t.v k := hupto.v_out k fun hlt => absurd hlt (lt_irrefl k)
    rw [if_pos rfl, if_pos rfl, hrow, hcol, moved_eq hd (hu k (by omega) hused), moved_eq hd (hv k (by omega) hused)]
    rfl
  | false =>
    rw [if_neg Bool.false_ne_true, if_neg Bool.false_ne_true, hupto.minv_later k le_rfl, fit_eq (hminv k (by omega) hused)]
    rfl

theorem fit_of_le {x : ℤ} (hlo : -(4 * inf) ≤ x) (hhi : x ≤ 4 * inf) : InI64 x := by
  unfold inf at hlo hhi
  omega

section Turn

variable {rank : ℕ → ℕ} {c j1 : ℕ} {delta : ℤ}

theorem Scanned.minv_bounds (hs : Scanned cost m i rank c t delta j1) (h : Duals cost n m i t) (hc : Costs cost n m M)
    (hi : 1 ≤ i) (hin : i ≤ n) (him : i ≤ m) {j : ℕ} (hj : Outside t.used m j) :
    0 ≤ t.minv j ∧ t.minv j ≤ 2 * M := by
  obtain ⟨hw, he⟩ := hs.minv_eq j hj
  obtain ⟨hw1, hwn⟩ := Scanned.bounds h hi hin hs hw
  rw [he]
  exact ⟨h.feasible _ hw1 hwn j hj.1 hj.2.1, slack_le h hc hi hin him hw1 hwn hj.1 hj.2.1⟩

theorem Scanned.delta_bounds (hs : Scanned cost m i rank c t delta j1) (h : Duals cost n m i t) (hc : Costs cost n m M)
    (hi : 1 ≤ i) (hin : i ≤ n) (him : i ≤ m) : 0 ≤ delta ∧ delta ≤ 2 * M := by
  rw [hs.next.2]
  exact hs.minv_bounds h hc hi hin him hs.next.1

theorem scanChecked_of_duals (h : Duals cost n m i t) (hc : Costs cost n m M) (hi : 1 ≤ i) (hin : i ≤ n) (him : i ≤ m)
    {j0 : ℕ} (used : ℕ → Bool) (hrow : 1 ≤ t.p j0) (hrown : t.p j0 ≤ n) :
    (List.range' 1 m).foldlM (scanStepChecked cost t (t.p j0) used j0) ⟨t.way, t.minv, inf, 0⟩ =
      .ok (scan (fun j => cost (t.p j0) j - t.u (t.p j0) - t.v j) used j0 m t.way t.minv) := by
  refine scanChecked_eq fun j hj hjm _ => ?_
  have hM2 := hc.lt_inf
  have hcost := hc.nonneg (t.p j0) hrow hrown j hj hjm
  have hcostle := hc.le (t.p j0) hrow hrown j hj hjm
  have hu0 := h.u_nonneg (t.p j0)
  have hu := u_le h hc hi him hrow hrown
  have hv := neg_v_le h hc hi hin him hj hjm
  have hv0 := h.v_nonpos j hj hjm
  exact ⟨fit_eq (fit_of_le (by omega) (by omega)), fit_eq (fit_of_le (by omega) (by omega))⟩

/-- So are those that are moved; the one of the root has its budget. -/
theorem shiftChecked_of_scanned (hs : Scanned cost m i rank c t delta j1) (h : Duals cost n m i t) (hc : Costs cost n m M)
    (hn : (n + 1) * M < inf) (hi : 1 ≤ i) (hin : i ≤ n) (him : i ≤ m) (hb : Budget M i t) :
    (List.range (m + 1)).foldlM (shiftStepChecked delta) t = .ok (shift delta m t) := by
  obtain ⟨hd0, hd⟩ := hs.delta_bounds h hc hi hin him
  have hM2 := hc.lt_inf
  refine shiftChecked_eq (by omega) (tree_inj h hs.root hs.holds) (fun j hj hu => ?_) (fun j hj hu => ?_)
    fun j hj hu => ?_
  · obtain ⟨hr1, hrn⟩ := Scanned.bounds h hi hin hs hu
    have hu0 := h.u_nonneg (t.p j)
    have hule := u_le h hc hi him hr1 hrn
    exact fit_of_le (by omega) (by omega)
  · by_cases h0 : j = 0
    · subst h0
      have hroot := hb.root
      have hrow := u_le h hc hi him hi hin
      have hv0 : t.v 0 ≤ 0 := hb.root_nonpos
      have hiM : (i : ℤ) * M ≤ n * M := mul_le_mul_of_nonneg_right (by exact_mod_cast hin) (by omega)
      rw [neg_sub, sub_mul] at hroot
      rw [add_mul] at hn
      exact fit_of_le (by omega) (by omega)
    · have hv := neg_v_le h hc hi hin him (j := j) (by omega) hj
      have hv0 := h.v_nonpos j (by omega) hj
      exact fit_of_le (by omega) (by omega)
  · have h0 : j ≠ 0 := by
      rintro rfl
      rw [hs.root_used] at hu
      exact absurd hu (by decide)
    have hmj := hs.minv_bounds h hc hi hin him ⟨by omega, hj, hu⟩
    exact fit_of_le (by omega) (by omega)

theorem Budget.shift (hb : Budget M i t) (hs : Scanned cost m i rank c t delta j1) (h : Duals cost n m i t) (hi : 1 ≤ i)
    (hd : 0 ≤ delta) {t' : Tables} (hsh : ShiftSpec delta m t t') : Budget M i t' := by
  have hrow : TreeRow t m i := ⟨0, Nat.zero_le m, hs.root_used, hs.root⟩
  have hroot := hb.root
  have hv0 := hb.root_nonpos
  refine ⟨?_, ?_, fun r hr => ?_⟩
  · rw [hsh.v_in 0 (Nat.zero_le m) hs.root_used, hsh.u_in i hrow]
    omega
  · rw [hsh.v_in 0 (Nat.zero_le m) hs.root_used]
    omega
  · rw [hsh.u_out r ?_]
    · exact hb.later r hr
    · intro ⟨j, hj, hu, hpj⟩
      have hle := (row_bounds h hs.root hi hj (or_iff_not_imp_left.mpr (hs.holds j hu))).2
      omega

end Turn

/-- One turn of the loop passes its checks, and the potential of the root stays within its bounds. -/
theorem growStepChecked_eq (h : Duals cost n m i t) (hc : Costs cost n m M) (hn : (n + 1) * M < inf) (hi : 1 ≤ i)
    (hin : i ≤ n) (him : i ≤ m) {rank : ℕ → ℕ} {c j0 : ℕ} (ht : Tree cost m i rank c t j0) (hp : j0 = 0 ∨ t.p j0 ≠ 0)
    (hb : Budget M i t) :
    growStepChecked cost m t j0 = .ok (growStep cost m t j0) ∧ Budget M i (growStep cost m t j0).1 := by
  have hs := scanned_of_tree h hc hi hin him ht hp rfl rfl
  obtain ⟨hrow1, hrowi⟩ := row_bounds h ht.root hi ht.next_le hp
  have hscan := scanChecked_of_duals h hc hi hin him (Function.update t.used j0 true) hrow1 (hrowi.trans hin)
  set s := scan (fun j => cost (t.p j0) j - t.u (t.p j0) - t.v j) (Function.update t.used j0 true) j0 m t.way t.minv
  set t1 : Tables := { t with way := s.way, minv := s.minv, used := Function.update t.used j0 true }
  have h1 : Duals cost n m i t1 :=
    ⟨h.feasible, h.u_nonneg, h.v_nonpos, h.free, h.tight, h.below, h.inj, h.onto⟩
  have hb1 : Budget M i t1 := ⟨hb.root, hb.root_nonpos, hb.later⟩
  have hshift : (List.range (m + 1)).foldlM (shiftStepChecked s.delta) t1 = .ok (shift s.delta m t1) :=
    shiftChecked_of_scanned hs h1 hc hn hi hin him hb1
  have hsh : ShiftSpec s.delta m t1 (shift s.delta m t1) := shift_spec (tree_inj h1 hs.root hs.holds)
  refine ⟨?_, hb1.shift hs h1 hi (hs.delta_bounds h1 hc hi hin him).1 hsh⟩
  rw [growStepChecked]
  show ((List.range' 1 m).foldlM (scanStepChecked cost t (t.p j0) (Function.update t.used j0 true) j0)
    ⟨t.way, t.minv, inf, 0⟩).bind _ = _
  rw [hscan]
  show ((List.range (m + 1)).foldlM (shiftStepChecked s.delta) t1).bind _ = _
  rw [hshift]
  rfl

theorem growTreeChecked_eq (hc : Costs cost n m M) (hn : (n + 1) * M < inf) (hi : 1 ≤ i) (hin : i ≤ n) (him : i ≤ m) :
    ∀ (fuel : ℕ) (t : Tables) (j0 : ℕ) (rank : ℕ → ℕ) (c : ℕ), Duals cost n m i t → Tree cost m i rank c t j0 →
      (j0 = 0 ∨ t.p j0 ≠ 0) → m + 1 ≤ c + fuel → Budget M i t →
      growTreeChecked cost m fuel t j0 = .ok (growTree cost m fuel t j0) ∧ Budget M i (growTree cost m fuel t j0).1 := by
  intro fuel
  induction fuel with
  | zero =>
    intro t j0 rank c _ ht _ hfuel
    have := ht.count_le
    omega
  | succ fuel ih =>
    intro t j0 rank c h ht hp hfuel hb
    obtain ⟨hd, htree, hnext⟩ := growStep_spec h hc hi hin him ht hp
    obtain ⟨hstep, hb'⟩ := growStepChecked_eq h hc hn hi hin him ht hp hb
    rw [growTreeChecked, growTree, hstep]
    by_cases hfree : (growStep cost m t j0).1.p (growStep cost m t j0).2 = 0
    · rw [if_pos hfree]
      exact ⟨if_pos hfree, hb'⟩
    · rw [if_neg hfree]
      obtain ⟨hrest, hb''⟩ := ih _ _ _ _ hd htree (Or.inr hfree) (by omega) hb'
      exact ⟨(if_neg hfree).trans hrest, hb''⟩

theorem augmentChecked_eq {rank : ℕ → ℕ} {c j0 : ℕ} (ht : Tree cost m i rank c t j0) :
    ∀ (fuel : ℕ) (q : ℕ → ℕ) (j : ℕ), j ≠ 0 → (t.used j = true ∨ j = j0) → (t.used j = true → rank j < fuel) →
      (j = j0 → c < fuel) → augmentChecked t.way fuel q j = .ok (augment t.way fuel q j) := by
  intro fuel
  induction fuel with
  | zero =>
    intro q j _ hj hf hf'
    rcases hj with hj | hj
    · exact absurd (hf hj) (Nat.not_lt_zero _)
    · exact absurd (hf' hj) (Nat.not_lt_zero _)
  | succ fuel ih =>
    intro q j h0 hj hf hf'
    obtain ⟨hw, -, hrk⟩ := ht.up j h0 hj
    rw [augmentChecked, augment]
    by_cases hroot : t.way j = 0
    · rw [if_pos hroot, if_pos hroot]
    · rw [if_neg hroot, if_neg hroot]
      have hlt : rank (t.way j) < fuel := by
        rcases hj with hu | rfl
        · have := hrk hu; have := hf hu; omega
        · have := (ht.ranked _ hw).2; have := hf' rfl; omega
      refine ih _ _ hroot (Or.inl hw) (fun _ => hlt) fun he => ?_
      rw [he, ht.next_out] at hw
      exact absurd hw (by decide)

/-- Before row `i` its potential and those of the later rows are 0. -/
structure RowBudget (M : ℤ) (i : ℕ) (t : Tables) : Prop where
  root : -((i : ℤ) - 1) * M ≤ t.v 0
  root_nonpos : t.v 0 ≤ 0
  later : ∀ r, i ≤ r → t.u r = 0

theorem insertRowChecked_eq (hc : Costs cost n m M) (hn : (n + 1) * M < inf) (hi : 1 ≤ i) (hin : i ≤ n) (him : i ≤ m)
    (h : Duals cost n m i t) (hb : RowBudget M i t) :
    insertRowChecked cost m t i = .ok (insertRow cost m t i) ∧ RowBudget M (i + 1) (insertRow cost m t i) := by
  have hstart : Budget M i (startRow t i) := by
    refine ⟨?_, hb.root_nonpos, fun r hr => hb.later r hr.le⟩
    show _ ≤ t.v 0 + t.u i
    rw [hb.later i le_rfl, add_zero]
    exact hb.root
  obtain ⟨hgrow, hb'⟩ := growTreeChecked_eq hc hn hi hin him (m + 1) (startRow t i) 0 _ 0 (duals_startRow h) tree_startRow
    (Or.inl rfl) (by omega) hstart
  obtain ⟨rank, c, hd', ht', hj1, -⟩ :=
    growTree_spec hc hi hin him (m + 1) (startRow t i) 0 _ 0 (duals_startRow h) tree_startRow (Or.inl rfl) (by omega)
  have hback : augmentChecked (growTree cost m (m + 1) (startRow t i) 0).1.way (m + 1) _ _ = .ok _ :=
    augmentChecked_eq ht' (m + 1) (growTree cost m (m + 1) (startRow t i) 0).1.p _ (by omega) (Or.inr rfl)
      (fun hu => absurd (hu.symm.trans ht'.next_out) (by decide)) (fun _ => Nat.lt_succ_of_le ht'.count_le)
  refine ⟨?_, ?_, hb'.root_nonpos, fun r hr => hb'.later r hr⟩
  · show (growTreeChecked cost m (m + 1) (startRow t i) 0).bind _ = _
    rw [hgrow]
    show (augmentChecked (growTree cost m (m + 1) (startRow t i) 0).1.way (m + 1)
      (growTree cost m (m + 1) (startRow t i) 0).1.p (growTree cost m (m + 1) (startRow t i) 0).2).bind _ = _
    rw [hback]
    rfl
  · have hroot := hb'.root
    have hu := u_le hd' hc hi him hi hin
    show _ ≤ (growTree cost m (m + 1) (startRow t i) 0).1.v 0
    push_cast
    linarith

theorem rowBudget_emptyTables : RowBudget M 1 emptyTables :=
  ⟨by simp [emptyTables], le_rfl, fun _ _ => rfl⟩

theorem insertRowsChecked_eq (hc : Costs cost n m M) (hn : (n + 1) * M < inf) (hnm : n ≤ m) :
    (List.range' 1 n).foldlM (insertRowChecked cost m) emptyTables = .ok (insertRows cost n m) := by
  have hbudget : ∀ k ≤ n, RowBudget M (k + 1) ((List.range' 1 k).foldl (insertRow cost m) emptyTables) := by
    intro k
    induction k with
    | zero => exact fun _ => rowBudget_emptyTables
    | succ k ih =>
      intro hk
      have := (insertRowChecked_eq hc hn (i := k + 1) (by omega) hk (by omega) (insertRows_upTo hc hnm (by omega))
        (ih (by omega))).2
      rw [List.range'_concat, List.foldl_append]
      simpa [Nat.add_comm] using this
  refine foldlM_eq_ok fun k hk => ?_
  rw [List.length_range'] at hk
  have hrow := (insertRowChecked_eq hc hn (i := k + 1) (by omega) hk (by omega) (insertRows_upTo hc hnm hk.le)
    (hbudget k hk.le)).1
  rw [List.take_range'_of_length_ge hk.le, List.getElem_range', one_mul, add_comm 1 k]
  exact hrow

end Steps

/-! ## `hungarian` -/

/-- **The assignment ends without a fault**: every loop is over in time, every number fits into 64 bits and the sentinel is
added to no potential; and every row has a column of its own, at the least total cost. -/
theorem hungarianChecked_optimal {a : List (List ℤ)} {n m : ℕ} (h : CostMatrix a n m FORBIDDEN_COST) (hnm : n ≤ m)
    (hn : (n + 1) * FORBIDDEN_COST < inf) :
    ∃ ans, hungarianChecked a = .ok ans ∧ ans.length = n ∧ (∀ i < n, ans.getD i 0 < m) ∧
      (∀ i < n, ∀ k < n, ans.getD i 0 = ans.getD k 0 → i = k) ∧
      ∀ g : ℕ → ℕ, (∀ i < n, g i < m) → Set.InjOn g (Finset.range n) →
        ∑ i ∈ Finset.range n, costAt a i (ans.getD i 0) ≤ ∑ i ∈ Finset.range n, costAt a i (g i) := by
  refine ⟨hungarian a, ?_, hungarian_optimal h hnm (by decide)⟩
  obtain ⟨hrows, hcols, -⟩ := id h
  cases a with
  | nil => rfl
  | cons row rest =>
    have hm : row.length = m := hcols row List.mem_cons_self
    have hloop := insertRowsChecked_eq (h.costs (by decide)) hn hnm
    rw [hungarianChecked, hungarian, hrows, hm, if_neg (not_lt.mpr hnm), hloop]
    rfl

/-- The second row takes the cheap column from the first. -/
theorem hungarianChecked_two : ∃ ans, hungarianChecked [[1, 2, 4], [1, 5, 9]] = .ok ans ∧ ans.length = 2 ∧
    costAt [[1, 2, 4], [1, 5, 9]] 0 (ans.getD 0 0) + costAt [[1, 2, 4], [1, 5, 9]] 1 (ans.getD 1 0) ≤ 3 := by
  obtain ⟨ans, hans, hlen, -, -, hleast⟩ := hungarianChecked_optimal (a := [[1, 2, 4], [1, 5, 9]]) (n := 2) (m := 3)
    ⟨rfl, by decide, by decide⟩ (by decide) (by decide)
  have hsum := hleast (fun i => 1 - i) (fun i _ => by omega) (by decide +kernel)
  exact ⟨ans, hans, hlen, by simpa [Finset.sum_range_succ, costAt] using hsum⟩

end TtAiops.Stage2
