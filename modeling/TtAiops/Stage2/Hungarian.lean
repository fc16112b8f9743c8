import Mathlib
import TtAiops.Lib.Assignment

/-!
# The minimum-cost assignment (`hungarian`)

Rows are inserted one at a time. Inserting a row grows a tree of columns over pairs whose slack is zero, moving the
potentials until a free column is reached, and then shifts the rows along the path back to the root.

* `hungarian` : the algorithm, on a matrix with at most as many rows as columns;
* `scan_spec`, `shift_spec` : what the two loops over the columns compute;
* `Duals`, `Tree` : the invariants of the loop over the rows and of the loop that grows the tree;
* `growTree_spec`, `augment_spec`, `insertRow_spec` : a row is inserted, and the loops end by themselves;
* `hungarian_optimal` : every row gets a column of its own, at the least total cost.

Rows and columns are numbered from 1 in the tables, as in the source; column 0 is the root of the tree.
-/

namespace TtAiops.Stage2
open TtAiops.Lib

/-- `INF = i64::MAX / 4`. -/
def inf : ℤ := 2305843009213693951

/-- `a[i - 1][j - 1]`. -/
def entry (a : List (List ℤ)) (i j : ℕ) : ℤ := (a.getD (i - 1) []).getD (j - 1) 0

/-- The arrays of `hungarian`. -/
structure Tables where
  u : ℕ → ℤ
  v : ℕ → ℤ
  p : ℕ → ℕ
  way : ℕ → ℕ
  minv : ℕ → ℤ
  used : ℕ → Bool

/-- What the loop that looks for the next column writes. -/
structure Scan where
  way : ℕ → ℕ
  minv : ℕ → ℤ
  delta : ℤ
  j1 : ℕ

def scanStep (cur : ℕ → ℤ) (used : ℕ → Bool) (j0 : ℕ) (s : Scan) (j : ℕ) : Scan :=
  if used j then s
  else
    let s := if cur j < s.minv j then
      { s with minv := Function.update s.minv j (cur j), way := Function.update s.way j j0 } else s
    if s.minv j < s.delta then { s with delta := s.minv j, j1 := j } else s

def scan (cur : ℕ → ℤ) (used : ℕ → Bool) (j0 m : ℕ) (way : ℕ → ℕ) (minv : ℕ → ℤ) : Scan :=
  (List.range' 1 m).foldl (scanStep cur used j0) ⟨way, minv, inf, 0⟩

/-- The body of the loop that moves the potentials by `delta`. -/
def shiftStep (delta : ℤ) (t : Tables) (j : ℕ) : Tables :=
  if t.used j then
    { t with
      u := Function.update t.u (t.p j) (t.u (t.p j) + delta)
      v := Function.update t.v j (t.v j - delta) }
  else { t with minv := Function.update t.minv j (t.minv j - delta) }

def shift (delta : ℤ) (m : ℕ) (t : Tables) : Tables := (List.range (m + 1)).foldl (shiftStep delta) t

/-- One turn of the loop that grows the tree from column `j0`; the second part is the next column. -/
def growStep (cost : ℕ → ℕ → ℤ) (m : ℕ) (t : Tables) (j0 : ℕ) : Tables × ℕ :=
  let used := Function.update t.used j0 true
  let i0 := t.p j0
  let s := scan (fun j => cost i0 j - t.u i0 - t.v j) used j0 m t.way t.minv
  (shift s.delta m { t with way := s.way, minv := s.minv, used := used }, s.j1)

/-- The loop that grows the tree until it reaches a free column. Every turn marks one more of the `m + 1` columns. -/
def growTree (cost : ℕ → ℕ → ℤ) (m : ℕ) : ℕ → Tables → ℕ → Tables × ℕ
  | 0, t, j0 => (t, j0)
  | fuel + 1, t, j0 =>
    let r := growStep cost m t j0
    if r.1.p r.2 = 0 then r else growTree cost m fuel r.1 r.2

/-- The loop that shifts the rows along `way` back to column 0. -/
def augment (way : ℕ → ℕ) : ℕ → (ℕ → ℕ) → ℕ → (ℕ → ℕ)
  | 0, p, _ => p
  | fuel + 1, p, j0 =>
    let p' := Function.update p j0 (p (way j0))
    if way j0 = 0 then p' else augment way fuel p' (way j0)

def insertRow (cost : ℕ → ℕ → ℤ) (m : ℕ) (t : Tables) (i : ℕ) : Tables :=
  let start : Tables := { t with p := Function.update t.p 0 i, minv := fun _ => inf, used := fun _ => false }
  let r := growTree cost m (m + 1) start 0
  { r.1 with p := augment r.1.way (m + 1) r.1.p r.2 }

def emptyTables : Tables := ⟨fun _ => 0, fun _ => 0, fun _ => 0, fun _ => 0, fun _ => inf, fun _ => false⟩

def insertRows (cost : ℕ → ℕ → ℤ) (n m : ℕ) : Tables := (List.range' 1 n).foldl (insertRow cost m) emptyTables

/-- The loop that reads the columns of the rows off the table. -/
def readStep (p : ℕ → ℕ) (ans : List ℕ) (j : ℕ) : List ℕ := if p j ≠ 0 then ans.set (p j - 1) (j - 1) else ans

def readRows (p : ℕ → ℕ) (n m : ℕ) : List ℕ := (List.range' 1 m).foldl (readStep p) (List.replicate n 0)

/-- `hungarian`: the column of every row. -/
def hungarian (a : List (List ℤ)) : List ℕ :=
  match a with
  | [] => []
  | row :: _ => readRows (insertRows (entry a) a.length row.length).p a.length row.length

/-! ## The two loops over the columns -/

/-- The columns `1..m` that are not in the tree. -/
def Outside (used : ℕ → Bool) (m j : ℕ) : Prop := 1 ≤ j ∧ j ≤ m ∧ used j = false

structure ScanSpec (cur : ℕ → ℤ) (used : ℕ → Bool) (j0 m : ℕ) (way : ℕ → ℕ) (minv : ℕ → ℤ) (s : Scan) : Prop where
  minv_out : ∀ j, Outside used m j → s.minv j = min (minv j) (cur j)
  minv_in : ∀ j, ¬ Outside used m j → s.minv j = minv j
  way_new : ∀ j, Outside used m j → cur j < minv j → s.way j = j0
  way_old : ∀ j, (Outside used m j → minv j ≤ cur j) → s.way j = way j
  least : ∀ j, Outside used m j → s.delta ≤ s.minv j
  hit : (s.delta = inf ∧ s.j1 = 0) ∨ (Outside used m s.j1 ∧ s.delta = s.minv s.j1)

theorem outside_succ {used : ℕ → Bool} {m j : ℕ} :
    Outside used (m + 1) j ↔ Outside used m j ∨ (j = m + 1 ∧ used (m + 1) = false) := by
  unfold Outside
  constructor
  · rintro ⟨h1, h2, h3⟩
    rcases Nat.lt_or_ge m j with h | h
    · obtain rfl : j = m + 1 := by omega
      exact Or.inr ⟨rfl, h3⟩
    · exact Or.inl ⟨h1, h, h3⟩
  · rintro (⟨h1, h2, h3⟩ | ⟨rfl, h⟩)
    · exact ⟨h1, by omega, h3⟩
    · exact ⟨by omega, le_refl _, h⟩

theorem not_outside_succ_self {used : ℕ → Bool} {m : ℕ} : ¬ Outside used m (m + 1) :=
  fun h => absurd h.2.1 (by omega)

/-- The first half of a turn: the pair with the new row may be the cheapest for the column. -/
def touch (cur : ℕ → ℤ) (j0 : ℕ) (s : Scan) (j : ℕ) : Scan :=
  if cur j < s.minv j then { s with minv := Function.update s.minv j (cur j), way := Function.update s.way j j0 } else s

section Touch

variable {cur : ℕ → ℤ} {j0 j k : ℕ} {s : Scan}

theorem touch_minv : (touch cur j0 s j).minv j = min (s.minv j) (cur j) := by
  unfold touch
  split_ifs with hlt
  · rw [min_eq_right hlt.le]
    exact Function.update_self ..
  · exact (min_eq_left (not_lt.mp hlt)).symm

theorem touch_way : (touch cur j0 s j).way j = if cur j < s.minv j then j0 else s.way j := by
  unfold touch
  split_ifs
  · exact Function.update_self ..
  · rfl

theorem touch_of_ne (h : k ≠ j) : (touch cur j0 s j).minv k = s.minv k ∧ (touch cur j0 s j).way k = s.way k := by
  unfold touch
  split_ifs
  · exact ⟨Function.update_of_ne h .., Function.update_of_ne h ..⟩
  · exact ⟨rfl, rfl⟩

theorem touch_delta : (touch cur j0 s j).delta = s.delta ∧ (touch cur j0 s j).j1 = s.j1 := by
  unfold touch
  split_ifs <;> exact ⟨rfl, rfl⟩

end Touch

section ScanStep

variable {cur : ℕ → ℤ} {used : ℕ → Bool} {j0 m : ℕ} {way : ℕ → ℕ} {minv : ℕ → ℤ} {s : Scan}

theorem outside_succ_of_out (hu : used (m + 1) = false) {j : ℕ} :
    Outside used (m + 1) j ↔ Outside used m j ∨ j = m + 1 := by
  rw [outside_succ, hu]
  simp

theorem touch_minv_of_outside {j : ℕ} (hj : Outside used m j) : (touch cur j0 s (m + 1)).minv j = s.minv j :=
  (touch_of_ne fun he => not_outside_succ_self (he ▸ hj)).1

/-- One column more has its `minv` and `way`; what is the next column is up to the second half of the turn. -/
theorem ScanSpec.touched (h : ScanSpec cur used j0 m way minv s) (hu : used (m + 1) = false) {s' : Scan}
    (hm : s'.minv = (touch cur j0 s (m + 1)).minv) (hw : s'.way = (touch cur j0 s (m + 1)).way)
    (hleast : ∀ j, Outside used (m + 1) j → s'.delta ≤ s'.minv j)
    (hhit : (s'.delta = inf ∧ s'.j1 = 0) ∨ (Outside used (m + 1) s'.j1 ∧ s'.delta = s'.minv s'.j1)) :
    ScanSpec cur used j0 (m + 1) way minv s' := by
  have hnew : s.minv (m + 1) = minv (m + 1) := h.minv_in _ not_outside_succ_self
  have hway : s.way (m + 1) = way (m + 1) := h.way_old _ fun ho => absurd ho not_outside_succ_self
  refine ⟨fun j hj => ?_, fun j hj => ?_, fun j hj hlt => ?_, fun j hj => ?_, hleast, hhit⟩
  · rw [hm]
    rcases (outside_succ_of_out hu).mp hj with hj | rfl
    · rw [touch_minv_of_outside hj, h.minv_out j hj]
    · rw [touch_minv, hnew]
  · rw [hm, (touch_of_ne fun he => hj ((outside_succ_of_out hu).mpr (Or.inr he))).1]
    exact h.minv_in j fun ho => hj ((outside_succ_of_out hu).mpr (Or.inl ho))
  · rw [hw]
    rcases (outside_succ_of_out hu).mp hj with hj | rfl
    · rw [(touch_of_ne fun he => not_outside_succ_self (he ▸ hj)).2, h.way_new j hj hlt]
    · rw [touch_way, hnew, if_pos hlt]
  · rw [hw]
    by_cases he : j = m + 1
    · subst he
      rw [touch_way, hnew, if_neg (not_lt.mpr (hj ((outside_succ_of_out hu).mpr (Or.inr rfl)))), hway]
    · rw [(touch_of_ne he).2]
      exact h.way_old j fun ho => hj ((outside_succ_of_out hu).mpr (Or.inl ho))

theorem scanStep_spec (h : ScanSpec cur used j0 m way minv s) :
    ScanSpec cur used j0 (m + 1) way minv (scanStep cur used j0 s (m + 1)) := by
  unfold scanStep
  cases hu : used (m + 1) with
  | true =>
    have hsame : ∀ j, Outside used (m + 1) j ↔ Outside used m j := by
      intro j
      rw [outside_succ, hu]
      simp
    simp only [if_true]
    exact ⟨fun j hj => h.minv_out j ((hsame j).mp hj), fun j hj => h.minv_in j (mt (hsame j).mpr hj),
      fun j hj => h.way_new j ((hsame j).mp hj), fun j hj => h.way_old j fun ho => hj ((hsame j).mpr ho),
      fun j hj => h.least j ((hsame j).mp hj), h.hit.imp_right fun ⟨ho, he⟩ => ⟨(hsame _).mpr ho, he⟩⟩
  | false =>
    rw [if_neg Bool.false_ne_true]
    show ScanSpec cur used j0 (m + 1) way minv (if (touch cur j0 s (m + 1)).minv (m + 1) < (touch cur j0 s (m + 1)).delta
      then { touch cur j0 s (m + 1) with delta := (touch cur j0 s (m + 1)).minv (m + 1), j1 := m + 1 }
      else touch cur j0 s (m + 1))
    obtain ⟨hdelta, hj1⟩ : (touch cur j0 s (m + 1)).delta = s.delta ∧ (touch cur j0 s (m + 1)).j1 = s.j1 := touch_delta
    split_ifs with hlt
    · refine h.touched hu rfl rfl (fun j hj => ?_) (Or.inr ⟨(outside_succ_of_out hu).mpr (Or.inr rfl), rfl⟩)
      rcases (outside_succ_of_out hu).mp hj with hj | rfl
      · show (touch cur j0 s (m + 1)).minv (m + 1) ≤ (touch cur j0 s (m + 1)).minv j
        have := h.least j hj
        rw [touch_minv_of_outside hj]
        omega
      · exact le_refl _
    · refine h.touched hu rfl rfl (fun j hj => ?_) ?_
      · rcases (outside_succ_of_out hu).mp hj with hj | rfl
        · rw [hdelta, touch_minv_of_outside hj]
          exact h.least j hj
        · exact not_lt.mp hlt
      · rcases h.hit with ⟨h1, h2⟩ | ⟨h1, h2⟩
        · exact Or.inl ⟨hdelta.trans h1, hj1.trans h2⟩
        · right
          rw [hdelta, hj1, touch_minv_of_outside h1]
          exact ⟨(outside_succ_of_out hu).mpr (Or.inl h1), h2⟩

end ScanStep

theorem scan_spec (cur : ℕ → ℤ) (used : ℕ → Bool) (j0 m : ℕ) (way : ℕ → ℕ) (minv : ℕ → ℤ) :
    ScanSpec cur used j0 m way minv (scan cur used j0 m way minv) := by
  induction m with
  | zero =>
    have hnone : ∀ j, ¬ Outside used 0 j := fun j h => absurd (h.1.trans h.2.1) (by decide)
    exact ⟨fun j hj => absurd hj (hnone j), fun _ _ => rfl, fun j hj => absurd hj (hnone j), fun _ _ => rfl,
      fun j hj => absurd hj (hnone j), Or.inl ⟨rfl, rfl⟩⟩
  | succ m ih =>
    have := scanStep_spec ih
    rw [scan, List.range'_concat, List.foldl_append]
    simpa [scan, Nat.add_comm] using this

def TreeRow (t : Tables) (m r : ℕ) : Prop := ∃ j ≤ m, t.used j = true ∧ t.p j = r

structure ShiftSpec (delta : ℤ) (m : ℕ) (t t' : Tables) : Prop where
  p : t'.p = t.p
  way : t'.way = t.way
  used : t'.used = t.used
  u_in : ∀ r, TreeRow t m r → t'.u r = t.u r + delta
  u_out : ∀ r, ¬ TreeRow t m r → t'.u r = t.u r
  v_in : ∀ j ≤ m, t.used j = true → t'.v j = t.v j - delta
  v_out : ∀ j, t.used j = false → t'.v j = t.v j
  minv : ∀ j ≤ m, t.used j = false → t'.minv j = t.minv j - delta

/-- The state after the first `k` turns of the loop that moves the potentials. -/
structure ShiftUpTo (delta : ℤ) (k : ℕ) (t t' : Tables) : Prop where
  p : t'.p = t.p
  way : t'.way = t.way
  used : t'.used = t.used
  u_in : ∀ r j, j < k → t.used j = true → t.p j = r → t'.u r = t.u r + delta
  u_out : ∀ r, (∀ j < k, t.used j = true → t.p j ≠ r) → t'.u r = t.u r
  v_in : ∀ j < k, t.used j = true → t'.v j = t.v j - delta
  v_out : ∀ j, (j < k → t.used j = false) → t'.v j = t.v j
  minv : ∀ j < k, t.used j = false → t'.minv j = t.minv j - delta
  minv_later : ∀ j ≥ k, t'.minv j = t.minv j

theorem shiftStep_used {delta : ℤ} {k : ℕ} {t t' : Tables} (h : ShiftUpTo delta k t t')
    (hinj : ∀ j < k, t.used j = true → t.p j ≠ t.p k) (hu : t.used k = true) :
    ShiftUpTo delta (k + 1) t (shiftStep delta t' k) := by
  have hsame : t'.used k = true := by rw [h.used, hu]
  have hfresh : t'.u (t.p k) = t.u (t.p k) := h.u_out _ fun j hj hj' => hinj j hj hj'
  have hne : ∀ {j}, t.used j = false → j ≠ k := by
    rintro j hj rfl
    exact absurd (hj.symm.trans hu) (by decide)
  rw [shiftStep, if_pos hsame]
  refine ⟨h.p, h.way, h.used, fun r j hj hj' hr => ?_, fun r hr => ?_, fun j hj hj' => ?_, fun j hj => ?_,
    fun j hj hj' => h.minv j (by have := hne hj'; omega) hj', fun j hj => h.minv_later j (by omega)⟩
  · change Function.update t'.u (t'.p k) (t'.u (t'.p k) + delta) r = _
    rw [h.p]
    by_cases hrk : r = t.p k
    · rw [hrk, Function.update_self, hfresh]
    · rw [Function.update_of_ne hrk]
      have hjk : j ≠ k := by rintro rfl; exact hrk hr.symm
      exact h.u_in r j (by omega) hj' hr
  · change Function.update t'.u (t'.p k) (t'.u (t'.p k) + delta) r = _
    rw [h.p, Function.update_of_ne fun he => hr k (Nat.lt_succ_self k) hu he.symm]
    exact h.u_out r fun j hj => hr j (by omega)
  · change Function.update t'.v k (t'.v k - delta) j = _
    by_cases hjk : j = k
    · subst hjk
      rw [Function.update_self, h.v_out j fun hlt => absurd hlt (lt_irrefl j)]
    · rw [Function.update_of_ne hjk]
      exact h.v_in j (by omega) hj'
  · have hjk : j ≠ k := by
      rintro rfl
      exact hne (hj (Nat.lt_succ_self j)) rfl
    change Function.update t'.v k (t'.v k - delta) j = _
    rw [Function.update_of_ne hjk]
    exact h.v_out j fun hlt => hj (by omega)

theorem shiftStep_unused {delta : ℤ} {k : ℕ} {t t' : Tables} (h : ShiftUpTo delta k t t') (hu : t.used k = false) :
    ShiftUpTo delta (k + 1) t (shiftStep delta t' k) := by
  have hlt : ∀ j < k + 1, t.used j = true → j < k := by
    intro j hj hj'
    have hjk : j ≠ k := by rintro rfl; rw [hu] at hj'; exact absurd hj' (by decide)
    omega
  rw [shiftStep, if_neg (by rw [h.used, hu]; decide)]
  refine ⟨h.p, h.way, h.used, fun r j hj hj' => h.u_in r j (hlt j hj hj') hj',
    fun r hr => h.u_out r fun j hj => hr j (by omega), fun j hj hj' => h.v_in j (hlt j hj hj') hj',
    fun j hj => h.v_out j fun hk => hj (by omega), fun j hj hj' => ?_, fun j hj => ?_⟩
  · change Function.update t'.minv k (t'.minv k - delta) j = _
    by_cases hjk : j = k
    · subst hjk
      rw [Function.update_self, h.minv_later j (le_refl j)]
    · rw [Function.update_of_ne hjk]
      exact h.minv j (by omega) hj'
  · change Function.update t'.minv k (t'.minv k - delta) j = _
    rw [Function.update_of_ne (by omega)]
    exact h.minv_later j (by omega)

theorem shiftStep_spec {delta : ℤ} {k : ℕ} {t t' : Tables} (h : ShiftUpTo delta k t t')
    (hinj : ∀ j < k, t.used j = true → t.used k = true → t.p j ≠ t.p k) :
    ShiftUpTo delta (k + 1) t (shiftStep delta t' k) := by
  cases hu : t.used k with
  | true => exact shiftStep_used h (fun j hj hj' => hinj j hj hj' hu) hu
  | false => exact shiftStep_unused h hu

theorem shiftUpTo_range {delta : ℤ} {m : ℕ} {t : Tables}
    (hinj : ∀ j ≤ m, ∀ k ≤ m, t.used j = true → t.used k = true → t.p j = t.p k → j = k) {k : ℕ} (hk : k ≤ m + 1) :
    ShiftUpTo delta k t ((List.range k).foldl (shiftStep delta) t) := by
  induction k with
  | zero =>
    exact ⟨rfl, rfl, rfl, fun _ j hj => absurd hj (Nat.not_lt_zero j), fun _ _ => rfl,
      fun j hj => absurd hj (Nat.not_lt_zero j), fun _ _ => rfl, fun j hj => absurd hj (Nat.not_lt_zero j),
      fun _ _ => rfl⟩
  | succ k ih =>
    rw [List.range_succ, List.foldl_append]
    refine shiftStep_spec (ih (by omega)) fun j hj hj' hk' he => ?_
    exact absurd (hinj j (by omega) k (by omega) hj' hk' he) (by omega)

theorem shift_spec {delta : ℤ} {m : ℕ} {t : Tables}
    (hinj : ∀ j ≤ m, ∀ k ≤ m, t.used j = true → t.used k = true → t.p j = t.p k → j = k) :
    ShiftSpec delta m t (shift delta m t) := by
  have h : ShiftUpTo delta (m + 1) t (shift delta m t) := shiftUpTo_range hinj le_rfl
  exact ⟨h.p, h.way, h.used, fun r ⟨j, hj, hj', hr⟩ => h.u_in r j (by omega) hj' hr,
    fun r hr => h.u_out r fun j hj hj' he => hr ⟨j, by omega, hj', he⟩, fun j hj => h.v_in j (by omega),
    fun j hj => h.v_out j fun _ => hj, fun j hj => h.minv j (by omega)⟩

/-! ## The invariants -/

/-- The reduced cost of a pair. -/
def slack (cost : ℕ → ℕ → ℤ) (t : Tables) (r j : ℕ) : ℤ := cost r j - t.u r - t.v j

section Invariants

variable (cost : ℕ → ℕ → ℤ) (n m : ℕ)

/-- The potentials are feasible, and the rows below `i` hold columns of their own along pairs of slack zero. -/
structure Duals (i : ℕ) (t : Tables) : Prop where
  feasible : ∀ r, 1 ≤ r → r ≤ n → ∀ j, 1 ≤ j → j ≤ m → 0 ≤ slack cost t r j
  u_nonneg : ∀ r, 0 ≤ t.u r
  v_nonpos : ∀ j, 1 ≤ j → j ≤ m → t.v j ≤ 0
  free : ∀ j, 1 ≤ j → j ≤ m → t.p j = 0 → t.v j = 0
  tight : ∀ j, 1 ≤ j → j ≤ m → t.p j ≠ 0 → slack cost t (t.p j) j = 0
  below : ∀ j, 1 ≤ j → j ≤ m → t.p j < i
  inj : ∀ j k, 1 ≤ j → j ≤ m → 1 ≤ k → k ≤ m → t.p j ≠ 0 → t.p j = t.p k → j = k
  onto : ∀ r, 1 ≤ r → r < i → ∃ j, 1 ≤ j ∧ j ≤ m ∧ t.p j = r

/-- The tree before column `j0` is put into it: its columns hold rows, every one of them but the root hangs on an
earlier one by a pair of slack zero, and so does `j0`; `minv` is the least slack from the tree. `rank` is the order in
which the columns came in and `c` their number. -/
structure Tree (i : ℕ) (rank : ℕ → ℕ) (c : ℕ) (t : Tables) (j0 : ℕ) : Prop where
  root : t.p 0 = i
  count : ((Finset.range (m + 1)).filter (fun j => t.used j = true)).card = c
  ranked : ∀ j, t.used j = true → j ≤ m ∧ rank j < c
  holds : ∀ j, t.used j = true → j ≠ 0 → t.p j ≠ 0
  next_le : j0 ≤ m
  next_out : t.used j0 = false
  start : t.used 0 = false → j0 = 0 ∧ ∀ j, t.used j = false
  up : ∀ j, j ≠ 0 → t.used j = true ∨ j = j0 →
    t.used (t.way j) = true ∧ slack cost t (t.p (t.way j)) j = 0 ∧ (t.used j = true → rank (t.way j) < rank j)
  minv_le : ∀ j, Outside t.used m j → ∀ k, t.used k = true → t.minv j ≤ slack cost t (t.p k) j
  minv_eq : ∀ j, Outside t.used m j →
    (t.used 0 = false ∧ t.minv j = inf) ∨ (t.used (t.way j) = true ∧ t.minv j = slack cost t (t.p (t.way j)) j)

/-- The tree with column `j0` in it, after the loop that looked for the next column `j1`. -/
structure Scanned (i : ℕ) (rank : ℕ → ℕ) (c : ℕ) (t : Tables) (delta : ℤ) (j1 : ℕ) : Prop where
  root : t.p 0 = i
  count : ((Finset.range (m + 1)).filter (fun j => t.used j = true)).card = c
  ranked : ∀ j, t.used j = true → j ≤ m ∧ rank j < c
  holds : ∀ j, t.used j = true → j ≠ 0 → t.p j ≠ 0
  root_used : t.used 0 = true
  up : ∀ j, j ≠ 0 → t.used j = true →
    t.used (t.way j) = true ∧ slack cost t (t.p (t.way j)) j = 0 ∧ rank (t.way j) < rank j
  minv_le : ∀ j, Outside t.used m j → ∀ k, t.used k = true → t.minv j ≤ slack cost t (t.p k) j
  minv_eq : ∀ j, Outside t.used m j → t.used (t.way j) = true ∧ t.minv j = slack cost t (t.p (t.way j)) j
  least : ∀ j, Outside t.used m j → delta ≤ t.minv j
  next : Outside t.used m j1 ∧ delta = t.minv j1

/-- Costs between 0 and a bound that the sentinel exceeds twice over. -/
structure Costs (M : ℤ) : Prop where
  nonneg : ∀ r, 1 ≤ r → r ≤ n → ∀ j, 1 ≤ j → j ≤ m → 0 ≤ cost r j
  le : ∀ r, 1 ≤ r → r ≤ n → ∀ j, 1 ≤ j → j ≤ m → cost r j ≤ M
  lt_inf : 2 * M < inf

end Invariants

section Steps

variable {cost : ℕ → ℕ → ℤ} {n m : ℕ} {M : ℤ} {i : ℕ} {t : Tables}

theorem exists_free (h : Duals cost n m i t) (hi : 1 ≤ i) (him : i ≤ m) : ∃ j, 1 ≤ j ∧ j ≤ m ∧ t.p j = 0 := by
  by_contra hno
  push Not at hno
  have hmaps : ∀ j ∈ Finset.Icc 1 m, t.p j ∈ Finset.Ico 1 i := by
    intro j hj
    obtain ⟨h1, h2⟩ := Finset.mem_Icc.mp hj
    exact Finset.mem_Ico.mpr ⟨Nat.one_le_iff_ne_zero.mpr (hno j h1 h2), h.below j h1 h2⟩
  have hinj : Set.InjOn t.p (Finset.Icc 1 m) := by
    intro j hj k hk he
    obtain ⟨h1, h2⟩ := Finset.mem_Icc.mp hj
    obtain ⟨h3, h4⟩ := Finset.mem_Icc.mp hk
    exact h.inj j k h1 h2 h3 h4 (hno j h1 h2) he
  have := Finset.card_le_card_of_injOn t.p hmaps hinj
  rw [Nat.card_Icc, Nat.card_Ico] at this
  omega

theorem u_le (h : Duals cost n m i t) (hc : Costs cost n m M) (hi : 1 ≤ i) (him : i ≤ m) {r : ℕ} (hr : 1 ≤ r) (hrn : r ≤ n) :
    t.u r ≤ M := by
  obtain ⟨f, hf, hfm, hfree⟩ := exists_free h hi him
  have h1 := h.feasible r hr hrn f hf hfm
  have h2 := hc.le r hr hrn f hf hfm
  rw [slack, h.free f hf hfm hfree] at h1
  omega

/-- The row that a column holds bounds the potential of the column. -/
theorem neg_v_le (h : Duals cost n m i t) (hc : Costs cost n m M) (hi : 1 ≤ i) (hin : i ≤ n) (him : i ≤ m) {j : ℕ}
    (hj : 1 ≤ j) (hjm : j ≤ m) : -t.v j ≤ M := by
  by_cases hp : t.p j = 0
  · have h1 := hc.nonneg i hi hin j hj hjm
    have h2 := hc.le i hi hin j hj hjm
    rw [h.free j hj hjm hp]
    omega
  · have hb := h.below j hj hjm
    have h1 := h.tight j hj hjm hp
    have h2 := hc.nonneg (t.p j) (by omega) (by omega) j hj hjm
    have h3 := u_le h hc hi him (r := t.p j) (by omega) (by omega)
    rw [slack] at h1
    omega

theorem slack_le (h : Duals cost n m i t) (hc : Costs cost n m M) (hi : 1 ≤ i) (hin : i ≤ n) (him : i ≤ m)
    {r j : ℕ} (hr : 1 ≤ r) (hrn : r ≤ n) (hj : 1 ≤ j) (hjm : j ≤ m) : slack cost t r j ≤ 2 * M := by
  have h1 := hc.le r hr hrn j hj hjm
  have h2 := h.u_nonneg r
  have h3 := neg_v_le h hc hi hin him hj hjm
  rw [slack]
  omega

theorem slack_lt_inf (h : Duals cost n m i t) (hc : Costs cost n m M) (hi : 1 ≤ i) (hin : i ≤ n) (him : i ≤ m)
    {r j : ℕ} (hr : 1 ≤ r) (hrn : r ≤ n) (hj : 1 ≤ j) (hjm : j ≤ m) : slack cost t r j < inf :=
  (slack_le h hc hi hin him hr hrn hj hjm).trans_lt hc.lt_inf

/-- A column of the tree, or the one about to enter it, holds a row that is being assigned. -/
theorem row_bounds (h : Duals cost n m i t) (hroot : t.p 0 = i) (hi : 1 ≤ i) {k : ℕ} (hk : k ≤ m)
    (hp : k = 0 ∨ t.p k ≠ 0) : 1 ≤ t.p k ∧ t.p k ≤ i := by
  by_cases h0 : k = 0
  · subst h0
    rw [hroot]
    exact ⟨hi, le_refl i⟩
  · have := h.below k (by omega) hk
    exact ⟨Nat.one_le_iff_ne_zero.mpr (hp.resolve_left h0), by omega⟩

theorem tree_inj (h : Duals cost n m i t) (hroot : t.p 0 = i)
    (hused : ∀ j, t.used j = true → j ≠ 0 → t.p j ≠ 0) :
    ∀ j ≤ m, ∀ k ≤ m, t.used j = true → t.used k = true → t.p j = t.p k → j = k := by
  have hzero : ∀ k ≤ m, t.p 0 = t.p k → k = 0 := by
    intro k hk he
    by_contra h0
    have := h.below k (by omega) hk
    rw [hroot] at he
    omega
  intro j hj k hk hj' _ he
  by_cases h0 : j = 0
  · subst h0
    exact (hzero k hk he).symm
  · by_cases h1 : k = 0
    · subst h1
      exact hzero j hj he.symm
    · exact h.inj j k (by omega) hj (by omega) hk (hused j hj' h0) he

/-! ## A column enters the tree -/

section Enter

variable {used : ℕ → Bool} {j0 : ℕ}

theorem used_enter {j : ℕ} : Function.update used j0 true j = true ↔ used j = true ∨ j = j0 := by
  rw [Function.update_apply]
  split_ifs with h
  · exact iff_of_true rfl (Or.inr h)
  · exact (or_iff_left h).symm

theorem outside_enter {j : ℕ} (h : Outside (Function.update used j0 true) m j) : Outside used m j ∧ j ≠ j0 := by
  obtain ⟨h1, hm, hout⟩ := h
  have hnot : ¬ (used j = true ∨ j = j0) := by
    rw [← used_enter, hout]
    exact Bool.false_ne_true
  exact ⟨⟨h1, hm, Bool.eq_false_iff.mpr fun hu => hnot (Or.inl hu)⟩, fun he => hnot (Or.inr he)⟩

theorem card_enter (hj0 : j0 ≤ m) (hout : used j0 = false) :
    ((Finset.range (m + 1)).filter (fun j => Function.update used j0 true j = true)).card =
      ((Finset.range (m + 1)).filter (fun j => used j = true)).card + 1 := by
  have hins : (Finset.range (m + 1)).filter (fun j => Function.update used j0 true j = true) =
      insert j0 ((Finset.range (m + 1)).filter (fun j => used j = true)) := by
    ext j
    rw [Finset.mem_filter, Finset.mem_insert, Finset.mem_filter, Finset.mem_range, used_enter]
    constructor
    · rintro ⟨hj, hu | rfl⟩
      · exact Or.inr ⟨hj, hu⟩
      · exact Or.inl rfl
    · rintro (rfl | ⟨hj, hu⟩)
      · exact ⟨Nat.lt_succ_of_le hj0, Or.inr rfl⟩
      · exact ⟨hj, Or.inl hu⟩
  rw [hins, Finset.card_insert_of_notMem (by simp [hout])]

end Enter

section Enters

variable {rank : ℕ → ℕ} {c j0 : ℕ}

theorem Tree.ne_next (ht : Tree cost m i rank c t j0) {j : ℕ} (hj : t.used j = true) : j ≠ j0 := by
  rintro rfl
  rw [ht.next_out] at hj
  exact absurd hj (by decide)

theorem Tree.exists_outside (h : Duals cost n m i t) (hi : 1 ≤ i) (him : i ≤ m) (ht : Tree cost m i rank c t j0)
    (hp : j0 = 0 ∨ t.p j0 ≠ 0) : ∃ j, Outside (Function.update t.used j0 true) m j := by
  obtain ⟨f, hf, hfm, hff⟩ := exists_free h hi him
  refine ⟨f, hf, hfm, Bool.eq_false_iff.mpr fun hu => ?_⟩
  rcases used_enter.mp hu with hu | rfl
  · exact absurd hff (ht.holds f hu (by omega))
  · rcases hp with rfl | hp
    · exact absurd hf (by decide)
    · exact absurd hff hp

theorem Tree.rank_enter (ht : Tree cost m i rank c t j0) {j k : ℕ} (hk : t.used k = true)
    (hj : t.used j = true ∨ j = j0) (hrank : t.used j = true → rank k < rank j) :
    Function.update rank j0 c k < Function.update rank j0 c j := by
  rw [Function.update_of_ne (ht.ne_next hk)]
  rcases hj with hj | rfl
  · rw [Function.update_of_ne (ht.ne_next hj)]
    exact hrank hj
  · rw [Function.update_self]
    exact (ht.ranked k hk).2

theorem Tree.exists_next (h : Duals cost n m i t) (hi : 1 ≤ i) (him : i ≤ m) (ht : Tree cost m i rank c t j0)
    (hp : j0 = 0 ∨ t.p j0 ≠ 0) {cur : ℕ → ℤ} {s : Scan}
    (hspec : ScanSpec cur (Function.update t.used j0 true) j0 m t.way t.minv s)
    (hcur : ∀ j, Outside (Function.update t.used j0 true) m j → cur j < inf) :
    Outside (Function.update t.used j0 true) m s.j1 ∧ s.delta = s.minv s.j1 := by
  obtain ⟨f, hf⟩ := Tree.exists_outside h hi him ht hp
  have hlt : s.delta < inf := by
    apply (hspec.least f hf).trans_lt
    rw [hspec.minv_out f hf]
    exact (min_le_right _ _).trans_lt (hcur f hf)
  exact hspec.hit.resolve_left fun hnone => absurd hnone.1 hlt.ne

theorem scanned_of_tree (h : Duals cost n m i t) (hc : Costs cost n m M) (hi : 1 ≤ i) (hin : i ≤ n) (him : i ≤ m)
    (ht : Tree cost m i rank c t j0) (hp : j0 = 0 ∨ t.p j0 ≠ 0) {used : ℕ → Bool} {s : Scan}
    (hused : used = Function.update t.used j0 true)
    (hs : s = scan (fun j => cost (t.p j0) j - t.u (t.p j0) - t.v j) used j0 m t.way t.minv) :
    Scanned cost m i (Function.update rank j0 c) (c + 1) { t with way := s.way, minv := s.minv, used := used }
      s.delta s.j1 := by
  have hspec : ScanSpec (fun j => slack cost t (t.p j0) j) used j0 m t.way t.minv s := by
    rw [hs]
    exact scan_spec _ used j0 m t.way t.minv
  subst hused
  have hself : Function.update t.used j0 true j0 = true := Function.update_self ..
  obtain ⟨hrow1, hrowi⟩ := row_bounds h ht.root hi ht.next_le hp
  have hcur : ∀ j, Outside (Function.update t.used j0 true) m j → slack cost t (t.p j0) j < inf := fun j hj =>
    slack_lt_inf h hc hi hin him hrow1 (by omega) hj.1 hj.2.1
  have hway_in : ∀ j, Function.update t.used j0 true j = true → s.way j = t.way j := fun j hj =>
    hspec.way_old j fun ho => absurd (hj.symm.trans ho.2.2) (by decide)
  refine ⟨ht.root, ?_, ?_, ?_, ?_, ?_, ?_, ?_, hspec.least, ht.exists_next h hi him hp hspec hcur⟩
  · exact (card_enter ht.next_le ht.next_out).trans (congrArg (· + 1) ht.count)
  · intro j hj
    rcases used_enter.mp hj with hj | rfl
    · rw [Function.update_of_ne (ht.ne_next hj)]
      exact ⟨(ht.ranked j hj).1, by have := (ht.ranked j hj).2; omega⟩
    · rw [Function.update_self]
      exact ⟨ht.next_le, by omega⟩
  · intro j hj h0
    rcases used_enter.mp hj with hj | rfl
    · exact ht.holds j hj h0
    · exact hp.resolve_left h0
  · apply used_enter.mpr
    cases h0 : t.used 0 with
    | true => exact Or.inl rfl
    | false => exact Or.inr (ht.start h0).1.symm
  · intro j h0 hj
    obtain ⟨hw, hsl, hrk⟩ := ht.up j h0 (used_enter.mp hj)
    show Function.update t.used j0 true (s.way j) = true ∧ slack cost t (t.p (s.way j)) j = 0 ∧
      Function.update rank j0 c (s.way j) < Function.update rank j0 c j
    rw [hway_in j hj]
    exact ⟨used_enter.mpr (Or.inl hw), hsl, ht.rank_enter hw (used_enter.mp hj) hrk⟩
  · intro j hj k hk
    show s.minv j ≤ slack cost t (t.p k) j
    rw [hspec.minv_out j hj]
    rcases used_enter.mp hk with hk | rfl
    · exact (min_le_left _ _).trans (ht.minv_le j (outside_enter hj).1 k hk)
    · exact min_le_right _ _
  · intro j hj
    show Function.update t.used j0 true (s.way j) = true ∧ s.minv j = slack cost t (t.p (s.way j)) j
    rw [hspec.minv_out j hj]
    rcases lt_or_ge (slack cost t (t.p j0) j) (t.minv j) with hlt | hge
    · rw [hspec.way_new j hj hlt, min_eq_right hlt.le]
      exact ⟨hself, rfl⟩
    · rw [hspec.way_old j fun _ => hge, min_eq_left hge]
      rcases ht.minv_eq j (outside_enter hj).1 with ⟨-, hinf⟩ | ⟨hw, he⟩
      · exact absurd (hinf ▸ hge) (not_le.mpr (hcur j hj))
      · exact ⟨used_enter.mpr (Or.inl hw), he⟩

end Enters

/-! ## Growing the tree -/

section Shifted

variable {delta : ℤ} {t' : Tables}

theorem slack_shift_in_in (hsh : ShiftSpec delta m t t') {r j : ℕ} (hr : TreeRow t m r) (hj : j ≤ m)
    (hu : t.used j = true) : slack cost t' r j = slack cost t r j := by
  rw [slack, slack, hsh.u_in r hr, hsh.v_in j hj hu]
  ring

theorem slack_shift_in_out (hsh : ShiftSpec delta m t t') {r j : ℕ} (hr : TreeRow t m r) (hu : t.used j = false) :
    slack cost t' r j = slack cost t r j - delta := by
  rw [slack, slack, hsh.u_in r hr, hsh.v_out j hu]
  ring

theorem slack_shift_out_in (hsh : ShiftSpec delta m t t') {r j : ℕ} (hr : ¬ TreeRow t m r) (hj : j ≤ m)
    (hu : t.used j = true) : slack cost t' r j = slack cost t r j + delta := by
  rw [slack, slack, hsh.u_out r hr, hsh.v_in j hj hu]
  ring

theorem slack_shift_out_out (hsh : ShiftSpec delta m t t') {r j : ℕ} (hr : ¬ TreeRow t m r) (hu : t.used j = false) :
    slack cost t' r j = slack cost t r j := by
  rw [slack, slack, hsh.u_out r hr, hsh.v_out j hu]

section Least

variable {rank : ℕ → ℕ} {c j1 : ℕ}

theorem Scanned.treeRow (hs : Scanned cost m i rank c t delta j1) {k : ℕ} (hk : t.used k = true) : TreeRow t m (t.p k) :=
  ⟨k, (hs.ranked k hk).1, hk, rfl⟩

theorem Scanned.bounds (h : Duals cost n m i t) (hi : 1 ≤ i) (hin : i ≤ n) (hs : Scanned cost m i rank c t delta j1) {k : ℕ}
    (hk : t.used k = true) : 1 ≤ t.p k ∧ t.p k ≤ n := by
  obtain ⟨hle, hlei⟩ := row_bounds h hs.root hi (hs.ranked k hk).1 (or_iff_not_imp_left.mpr (hs.holds k hk))
  exact ⟨hle, hlei.trans hin⟩

theorem Scanned.used_of_treeRow (h : Duals cost n m i t) (hs : Scanned cost m i rank c t delta j1) {j : ℕ} (hj : 1 ≤ j)
    (hjm : j ≤ m) (hp : t.p j ≠ 0) (hrow : TreeRow t m (t.p j)) : t.used j = true := by
  obtain ⟨k, hk, hku, he⟩ := hrow
  by_cases h0 : k = 0
  · rw [h0, hs.root] at he
    have := h.below j hj hjm
    omega
  · rwa [h.inj j k hj hjm (by omega) hk hp he.symm]

theorem Scanned.delta_nonneg (h : Duals cost n m i t) (hi : 1 ≤ i) (hin : i ≤ n) (hs : Scanned cost m i rank c t delta j1) :
    0 ≤ delta := by
  obtain ⟨hw, he⟩ := hs.minv_eq j1 hs.next.1
  obtain ⟨hrow, hrown⟩ := Scanned.bounds h hi hin hs hw
  rw [hs.next.2, he]
  exact h.feasible _ hrow hrown j1 hs.next.1.1 hs.next.1.2.1

theorem Scanned.delta_le (hs : Scanned cost m i rank c t delta j1) {j : ℕ} (hj : Outside t.used m j) {r : ℕ}
    (hr : TreeRow t m r) : delta ≤ slack cost t r j := by
  obtain ⟨k, -, hk, rfl⟩ := hr
  exact (hs.least j hj).trans (hs.minv_le j hj k hk)

theorem duals_of_scanned (h : Duals cost n m i t) (hi : 1 ≤ i) (hin : i ≤ n) (hs : Scanned cost m i rank c t delta j1)
    (hsh : ShiftSpec delta m t t') : Duals cost n m i t' := by
  have hdelta := Scanned.delta_nonneg h hi hin hs
  refine ⟨fun r hr hrn j hj hjm => ?_, fun r => ?_, fun j hj hjm => ?_, fun j hj hjm hp => ?_,
    fun j hj hjm hp => ?_, by rw [hsh.p]; exact h.below, by rw [hsh.p]; exact h.inj, by rw [hsh.p]; exact h.onto⟩
  · have hf := h.feasible r hr hrn j hj hjm
    by_cases hrt : TreeRow t m r
    · cases hu : t.used j with
      | true => rwa [slack_shift_in_in hsh hrt hjm hu]
      | false =>
        rw [slack_shift_in_out hsh hrt hu]
        exact sub_nonneg.mpr (hs.delta_le ⟨hj, hjm, hu⟩ hrt)
    · cases hu : t.used j with
      | true =>
        rw [slack_shift_out_in hsh hrt hjm hu]
        exact add_nonneg hf hdelta
      | false => rwa [slack_shift_out_out hsh hrt hu]
  · have := h.u_nonneg r
    by_cases hrt : TreeRow t m r
    · rw [hsh.u_in r hrt]; omega
    · rwa [hsh.u_out r hrt]
  · have := h.v_nonpos j hj hjm
    cases hu : t.used j with
    | true => rw [hsh.v_in j hjm hu]; omega
    | false => rwa [hsh.v_out j hu]
  · rw [hsh.p] at hp
    cases hu : t.used j with
    | true => exact absurd hp (hs.holds j hu (by omega))
    | false => rw [hsh.v_out j hu]; exact h.free j hj hjm hp
  · rw [hsh.p] at hp ⊢
    have htight := h.tight j hj hjm hp
    cases hu : t.used j with
    | true => rwa [slack_shift_in_in hsh (hs.treeRow hu) hjm hu]
    | false =>
      have hno : ¬ TreeRow t m (t.p j) := fun hr => by
        rw [Scanned.used_of_treeRow h hs hj hjm hp hr] at hu
        exact absurd hu (by decide)
      rwa [slack_shift_out_out hsh hno hu]

/-- It makes the slack of the next column zero, which can then enter the tree. -/
theorem tree_of_scanned (hs : Scanned cost m i rank c t delta j1) (hsh : ShiftSpec delta m t t') :
    Tree cost m i rank c t' j1 := by
  refine ⟨by rw [hsh.p]; exact hs.root, by rw [hsh.used]; exact hs.count, by rw [hsh.used]; exact hs.ranked,
    by rw [hsh.used, hsh.p]; exact hs.holds, hs.next.1.2.1, by rw [hsh.used]; exact hs.next.1.2.2, fun h0 => ?_,
    fun j h0 hj => ?_, fun j hj k hk => ?_, fun j hj => ?_⟩
  · rw [hsh.used, hs.root_used] at h0
    exact absurd h0 (by decide)
  · rw [hsh.used, hsh.way, hsh.p]
    rw [hsh.used] at hj
    by_cases hu : t.used j = true
    · obtain ⟨hw, hsl, hrk⟩ := hs.up j h0 hu
      refine ⟨hw, ?_, fun _ => hrk⟩
      rw [slack_shift_in_in hsh (hs.treeRow hw) (hs.ranked j hu).1 hu, hsl]
    · obtain rfl := hj.resolve_left hu
      obtain ⟨hw, he⟩ := hs.minv_eq j hs.next.1
      refine ⟨hw, ?_, fun hu' => absurd hu' hu⟩
      rw [slack_shift_in_out hsh (hs.treeRow hw) hs.next.1.2.2, hs.next.2, he, sub_self]
  · rw [hsh.used] at hj hk
    rw [hsh.p, hsh.minv j hj.2.1 hj.2.2, slack_shift_in_out hsh (hs.treeRow hk) hj.2.2]
    exact sub_le_sub_right (hs.minv_le j hj k hk) delta
  · rw [hsh.used] at hj
    obtain ⟨hw, he⟩ := hs.minv_eq j hj
    right
    rw [hsh.used, hsh.way, hsh.p, hsh.minv j hj.2.1 hj.2.2, slack_shift_in_out hsh (hs.treeRow hw) hj.2.2, he]
    exact ⟨hw, rfl⟩

end Least

end Shifted

theorem growStep_spec (h : Duals cost n m i t) (hc : Costs cost n m M) (hi : 1 ≤ i) (hin : i ≤ n) (him : i ≤ m)
    {rank : ℕ → ℕ} {c j0 : ℕ} (ht : Tree cost m i rank c t j0) (hp : j0 = 0 ∨ t.p j0 ≠ 0) :
    Duals cost n m i (growStep cost m t j0).1 ∧
      Tree cost m i (Function.update rank j0 c) (c + 1) (growStep cost m t j0).1 (growStep cost m t j0).2 ∧
      1 ≤ (growStep cost m t j0).2 := by
  have hs := scanned_of_tree h hc hi hin him ht hp rfl rfl
  set s := scan (fun j => cost (t.p j0) j - t.u (t.p j0) - t.v j) (Function.update t.used j0 true) j0 m t.way t.minv
  set t1 : Tables := { t with way := s.way, minv := s.minv, used := Function.update t.used j0 true }
  have h1 : Duals cost n m i t1 :=
    ⟨h.feasible, h.u_nonneg, h.v_nonpos, h.free, h.tight, h.below, h.inj, h.onto⟩
  have hsh : ShiftSpec s.delta m t1 (shift s.delta m t1) := shift_spec (tree_inj h1 hs.root hs.holds)
  exact ⟨duals_of_scanned h1 hi hin hs hsh, tree_of_scanned hs hsh, hs.next.1.1⟩

theorem Tree.count_le {rank : ℕ → ℕ} {c j0 : ℕ} (ht : Tree cost m i rank c t j0) : c ≤ m := by
  have hsub : (Finset.range (m + 1)).filter (fun j => t.used j = true) ⊆ (Finset.range (m + 1)).erase j0 := by
    intro j hj
    obtain ⟨hj, hu⟩ := Finset.mem_filter.mp hj
    refine Finset.mem_erase.mpr ⟨?_, hj⟩
    rintro rfl
    rw [ht.next_out] at hu
    exact absurd hu (by decide)
  have hcard := Finset.card_le_card hsub
  rw [ht.count, Finset.card_erase_of_mem (Finset.mem_range.mpr (Nat.lt_succ_of_le ht.next_le)),
    Finset.card_range] at hcard
  exact hcard

theorem growTree_spec (hc : Costs cost n m M) (hi : 1 ≤ i) (hin : i ≤ n) (him : i ≤ m) :
    ∀ (fuel : ℕ) (t : Tables) (j0 : ℕ) (rank : ℕ → ℕ) (c : ℕ), Duals cost n m i t → Tree cost m i rank c t j0 →
      (j0 = 0 ∨ t.p j0 ≠ 0) → m + 1 ≤ c + fuel →
      ∃ rank c, Duals cost n m i (growTree cost m fuel t j0).1 ∧
        Tree cost m i rank c (growTree cost m fuel t j0).1 (growTree cost m fuel t j0).2 ∧
        1 ≤ (growTree cost m fuel t j0).2 ∧
        (growTree cost m fuel t j0).1.p (growTree cost m fuel t j0).2 = 0 := by
  intro fuel
  induction fuel with
  | zero =>
    intro t j0 rank c _ ht _ hfuel
    have := ht.count_le
    omega
  | succ fuel ih =>
    intro t j0 rank c h ht hp hfuel
    obtain ⟨hd, htree, hnext⟩ := growStep_spec h hc hi hin him ht hp
    rw [growTree]
    by_cases hfree : (growStep cost m t j0).1.p (growStep cost m t j0).2 = 0
    · rw [if_pos hfree]
      exact ⟨_, _, hd, htree, hnext, hfree⟩
    · rw [if_neg hfree]
      exact ih _ _ _ _ hd htree (Or.inr hfree) (by omega)

/-! ## Shifting the rows along the path -/

/-- The assignment while the rows are shifted: column `j` is the hole, off which the rows below `i` hold columns of
their own. -/
structure Hole (cost : ℕ → ℕ → ℤ) (m i : ℕ) (t : Tables) (q : ℕ → ℕ) (j : ℕ) : Prop where
  hole : 1 ≤ j ∧ j ≤ m
  free : ∀ k, 1 ≤ k → k ≤ m → k ≠ j → q k = 0 → t.v k = 0
  tight : ∀ k, 1 ≤ k → k ≤ m → k ≠ j → q k ≠ 0 → slack cost t (q k) k = 0
  below : ∀ k, 1 ≤ k → k ≤ m → k ≠ j → q k < i
  inj : ∀ k l, 1 ≤ k → k ≤ m → k ≠ j → 1 ≤ l → l ≤ m → l ≠ j → q k ≠ 0 → q k = q l → k = l
  onto : ∀ r, 1 ≤ r → r < i → ∃ k, 1 ≤ k ∧ k ≤ m ∧ k ≠ j ∧ q k = r

section Hole

variable {q : ℕ → ℕ} {j : ℕ}

theorem Hole.fill (hq : Hole cost m i t q j) {r : ℕ} (hr : r ≠ 0) (hsl : slack cost t r j = 0) :
    (∀ k, 1 ≤ k → k ≤ m → Function.update q j r k = 0 → t.v k = 0) ∧
      ∀ k, 1 ≤ k → k ≤ m → Function.update q j r k ≠ 0 → slack cost t (Function.update q j r k) k = 0 := by
  refine ⟨fun k hk hkm hk0 => ?_, fun k hk hkm hk0 => ?_⟩
  · by_cases hkj : k = j
    · rw [hkj, Function.update_self] at hk0
      exact absurd hk0 hr
    · rw [Function.update_of_ne hkj] at hk0
      exact hq.free k hk hkm hkj hk0
  · by_cases hkj : k = j
    · rw [hkj, Function.update_self]
      exact hsl
    · rw [Function.update_of_ne hkj] at hk0 ⊢
      exact hq.tight k hk hkm hkj hk0

/-- The row of column `w` goes into the hole, and `w` is the next hole. -/
theorem Hole.up (hq : Hole cost m i t q j) {w : ℕ} (hw : 1 ≤ w ∧ w ≤ m) (hwj : w ≠ j) (hr : q w ≠ 0)
    (hsl : slack cost t (q w) j = 0) : Hole cost m i t (Function.update q j (q w)) w := by
  obtain ⟨hfree, htight⟩ := hq.fill hr hsl
  have hself : Function.update q j (q w) j = q w := Function.update_self ..
  have hne : ∀ k, k ≠ j → Function.update q j (q w) k = q k := fun k hk => Function.update_of_ne hk ..
  refine ⟨hw, fun k hk hkm _ => hfree k hk hkm, fun k hk hkm _ => htight k hk hkm, fun k hk hkm hkw => ?_,
    fun k l hk hkm hkw hl hlm hlw hk0 he => ?_, fun r hr hri => ?_⟩
  · by_cases hkj : k = j
    · rw [hkj, hself]
      exact hq.below w hw.1 hw.2 hwj
    · rw [hne k hkj]
      exact hq.below k hk hkm hkj
  · by_cases hkj : k = j
    · by_cases hlj : l = j
      · exact hkj.trans hlj.symm
      · rw [hkj, hself, hne l hlj] at he
        exact absurd (hq.inj w l hw.1 hw.2 hwj hl hlm hlj hr he).symm hlw
    · rw [hne k hkj] at hk0 he
      by_cases hlj : l = j
      · rw [hlj, hself] at he
        exact absurd (hq.inj k w hk hkm hkj hw.1 hw.2 hwj hk0 he) hkw
      · rw [hne l hlj] at he
        exact hq.inj k l hk hkm hkj hl hlm hlj hk0 he
  · obtain ⟨k, hk, hkm, hkj, hkr⟩ := hq.onto r hr hri
    by_cases hkw : k = w
    · exact ⟨j, hq.hole.1, hq.hole.2, hwj.symm, by rw [hself, ← hkw, hkr]⟩
    · exact ⟨k, hk, hkm, hkw, by rw [hne k hkj, hkr]⟩

theorem Hole.close (h : Duals cost n m i t) (hi : 1 ≤ i) (hq : Hole cost m i t q j) (hsl : slack cost t i j = 0) :
    Duals cost n m (i + 1) { t with p := Function.update q j i } := by
  obtain ⟨hfree, htight⟩ := hq.fill (by omega) hsl
  have hself : Function.update q j i j = i := Function.update_self ..
  have hne : ∀ k, k ≠ j → Function.update q j i k = q k := fun k hk => Function.update_of_ne hk ..
  refine ⟨h.feasible, h.u_nonneg, h.v_nonpos, hfree, htight, fun k hk hkm => ?_, fun k l hk hkm hl hlm hk0 he => ?_,
    fun r hr hri => ?_⟩
  · show Function.update q j i k < i + 1
    by_cases hkj : k = j
    · rw [hkj, hself]
      omega
    · rw [hne k hkj]
      have := hq.below k hk hkm hkj
      omega
  · replace hk0 : Function.update q j i k ≠ 0 := hk0
    replace he : Function.update q j i k = Function.update q j i l := he
    by_cases hkj : k = j
    · by_cases hlj : l = j
      · exact hkj.trans hlj.symm
      · rw [hkj, hself, hne l hlj] at he
        have := hq.below l hl hlm hlj
        omega
    · rw [hne k hkj] at hk0 he
      by_cases hlj : l = j
      · rw [hlj, hself] at he
        have := hq.below k hk hkm hkj
        omega
      · rw [hne l hlj] at he
        exact hq.inj k l hk hkm hkj hl hlm hlj hk0 he
  · show ∃ k, 1 ≤ k ∧ k ≤ m ∧ Function.update q j i k = r
    rcases Nat.lt_succ_iff_lt_or_eq.mp hri with hri | rfl
    · obtain ⟨k, hk, hkm, hkj, hkr⟩ := hq.onto r hr hri
      exact ⟨k, hk, hkm, by rw [hne k hkj, hkr]⟩
    · exact ⟨j, hq.hole.1, hq.hole.2, hself⟩

end Hole

theorem augment_spec {rank : ℕ → ℕ} {c j0 : ℕ} (ht : Tree cost m i rank c t j0) (h : Duals cost n m i t) (hi : 1 ≤ i) :
    ∀ (fuel : ℕ) (q : ℕ → ℕ) (j : ℕ), Hole cost m i t q j → (t.used j = true ∨ j = j0) →
      (∀ k, t.used k = true → (t.used j = true → rank k < rank j) → q k = t.p k) →
      (t.used j = true → rank j < fuel) → (j = j0 → c < fuel) →
      Duals cost n m (i + 1) { t with p := augment t.way fuel q j } := by
  intro fuel
  induction fuel with
  | zero =>
    intro q j _ hj _ hf hf'
    rcases hj with hj | hj
    · exact absurd (hf hj) (Nat.not_lt_zero _)
    · exact absurd (hf' hj) (Nat.not_lt_zero _)
  | succ fuel ih =>
    intro q j hq hj hsame hf hf'
    obtain ⟨hw, hsl, hrk⟩ := ht.up j (by have := hq.hole; omega) hj
    have hqw : q (t.way j) = t.p (t.way j) := hsame _ hw hrk
    have hwj : t.way j ≠ j := by
      intro he
      by_cases hu : t.used j = true
      · have := hrk hu
        rw [he] at this
        exact absurd this (lt_irrefl _)
      · rw [he] at hw
        exact hu hw
    have hwm : t.way j ≤ m := (ht.ranked _ hw).1
    have hsl' : slack cost t (q (t.way j)) j = 0 := by rw [hqw, hsl]
    rw [augment]
    by_cases h0 : t.way j = 0
    · have hlast : q (t.way j) = i := by rw [hqw, h0, ht.root]
      rw [if_pos h0, hlast]
      exact Hole.close h hi hq (hlast ▸ hsl')
    · have hrow : q (t.way j) ≠ 0 := by
        rw [hqw]
        exact ht.holds _ hw h0
      have hmove := hq.up ⟨by omega, hwm⟩ hwj hrow hsl'
      rw [if_neg h0]
      have hlt : rank (t.way j) < fuel := by
        rcases hj with hu | rfl
        · have := hrk hu; have := hf hu; omega
        · have := (ht.ranked _ hw).2; have := hf' rfl; omega
      refine ih _ _ hmove (Or.inl hw) (fun k hk hk' => ?_) (fun _ => hlt) (fun he => ?_)
      · have hkw := hk' hw
        have hkj : k ≠ j := by
          rintro rfl
          have := hrk hk
          omega
        rw [Function.update_of_ne hkj]
        exact hsame k hk fun hu => hkw.trans (hrk hu)
      · rw [he, ht.next_out] at hw
        exact absurd hw (by decide)

/-! ## The loop over the rows -/

/-- The tables with which the tree of row `i` starts. -/
def startRow (t : Tables) (i : ℕ) : Tables :=
  { t with p := Function.update t.p 0 i, minv := fun _ => inf, used := fun _ => false }

theorem duals_startRow (h : Duals cost n m i t) : Duals cost n m i (startRow t i) := by
  have hp : ∀ j, 1 ≤ j → (startRow t i).p j = t.p j := fun j hj => Function.update_of_ne (by omega) ..
  refine ⟨h.feasible, h.u_nonneg, h.v_nonpos, fun j hj hjm => ?_, fun j hj hjm => ?_, fun j hj hjm => ?_,
    fun j k hj hjm hk hkm => ?_, fun r hr hri => ?_⟩
  · rw [hp j hj]; exact h.free j hj hjm
  · rw [hp j hj]; exact h.tight j hj hjm
  · rw [hp j hj]; exact h.below j hj hjm
  · rw [hp j hj, hp k hk]; exact h.inj j k hj hjm hk hkm
  · obtain ⟨j, hj, hjm, hjr⟩ := h.onto r hr hri
    exact ⟨j, hj, hjm, by rw [hp j hj, hjr]⟩

theorem tree_startRow : Tree cost m i (fun _ => 0) 0 (startRow t i) 0 := by
  have hno : ∀ j, (startRow t i).used j ≠ true := fun _ => Bool.false_ne_true
  have hroot : (startRow t i).p 0 = i := Function.update_self (β := fun _ => ℕ) 0 i t.p
  refine ⟨hroot, ?_, fun j hj => absurd hj (hno j), fun j hj => absurd hj (hno j), Nat.zero_le m,
    rfl, fun _ => ⟨rfl, fun _ => rfl⟩, fun j h0 hj => absurd (hj.resolve_left (hno j)) h0,
    fun j _ k hk => absurd hk (hno k), fun j _ => Or.inl ⟨rfl, rfl⟩⟩
  simp [startRow]

theorem insertRow_spec (hc : Costs cost n m M) (hi : 1 ≤ i) (hin : i ≤ n) (him : i ≤ m)
    (h : Duals cost n m i t) : Duals cost n m (i + 1) (insertRow cost m t i) := by
  obtain ⟨rank, c, hd', ht', hj1, hfree⟩ :=
    growTree_spec hc hi hin him (m + 1) (startRow t i) 0 _ 0 (duals_startRow h) tree_startRow (Or.inl rfl) (by omega)
  rw [insertRow, ← startRow]
  set r := growTree cost m (m + 1) (startRow t i) 0
  have hhole : Hole cost m i r.1 r.1.p r.2 :=
    ⟨⟨hj1, ht'.next_le⟩, fun k hk hkm _ => hd'.free k hk hkm, fun k hk hkm _ => hd'.tight k hk hkm,
      fun k hk hkm _ => hd'.below k hk hkm, fun k l hk hkm _ hl hlm _ => hd'.inj k l hk hkm hl hlm, fun x hx hxi => by
        obtain ⟨k, hk, hkm, hkx⟩ := hd'.onto x hx hxi
        refine ⟨k, hk, hkm, ?_, hkx⟩
        rintro rfl
        omega⟩
  refine augment_spec ht' hd' hi (m + 1) r.1.p r.2 hhole (Or.inr rfl) (fun _ _ _ => rfl) (fun hu => ?_) (fun _ => ?_)
  · rw [ht'.next_out] at hu
    exact absurd hu (by decide)
  · have := ht'.count_le
    omega

theorem duals_emptyTables (hc : Costs cost n m M) : Duals cost n m 1 emptyTables :=
  ⟨fun r hr hrn j hj hjm => by simpa [slack, emptyTables] using hc.nonneg r hr hrn j hj hjm, fun _ => le_refl _,
    fun _ _ _ => le_refl _, fun _ _ _ _ => rfl, fun _ _ _ hp => absurd rfl hp, fun _ _ _ => Nat.one_pos,
    fun _ _ _ _ _ _ hp => absurd rfl hp, fun r hr hri => absurd hri (by omega)⟩

theorem insertRows_upTo (hc : Costs cost n m M) (hnm : n ≤ m) {k : ℕ} (hk : k ≤ n) :
    Duals cost n m (k + 1) ((List.range' 1 k).foldl (insertRow cost m) emptyTables) := by
  induction k with
  | zero => exact duals_emptyTables hc
  | succ k ih =>
    have := insertRow_spec hc (i := k + 1) (by omega) hk (by omega) (ih (by omega))
    rw [List.range'_concat, List.foldl_append]
    simpa [Nat.add_comm] using this

theorem insertRows_spec (hc : Costs cost n m M) (hnm : n ≤ m) : Duals cost n m (n + 1) (insertRows cost n m) :=
  insertRows_upTo hc hnm le_rfl

/-- The state of the loop that reads the columns of the rows, after columns `1..k`. -/
theorem readRows_spec (h : Duals cost n m (n + 1) t) :
    (readRows t.p n m).length = n ∧
      ∀ j, 1 ≤ j → j ≤ m → t.p j ≠ 0 → (readRows t.p n m).getD (t.p j - 1) 0 = j - 1 := by
  have key : ∀ k ≤ m, ((List.range' 1 k).foldl (readStep t.p) (List.replicate n 0)).length = n ∧
      ∀ j, 1 ≤ j → j ≤ k → t.p j ≠ 0 →
        ((List.range' 1 k).foldl (readStep t.p) (List.replicate n 0)).getD (t.p j - 1) 0 = j - 1 := by
    intro k
    induction k with
    | zero => exact fun _ => ⟨by simp, fun j hj hj0 => absurd hj (by omega)⟩
    | succ k ih =>
      intro hk
      obtain ⟨hlen, hread⟩ := ih (by omega)
      rw [List.range'_concat, List.foldl_append]
      simp only [one_mul, Nat.add_comm 1 k, List.foldl_cons, List.foldl_nil]
      set ans := (List.range' 1 k).foldl (readStep t.p) (List.replicate n 0)
      unfold readStep
      by_cases hp : t.p (k + 1) ≠ 0
      · rw [if_pos hp]
        have hb := h.below (k + 1) (by omega) hk
        refine ⟨by rw [List.length_set, hlen], fun j hj hjk hpj => ?_⟩
        by_cases hjk' : j = k + 1
        · subst hjk'
          rw [List.getD_eq_getElem _ _ (by rw [List.length_set, hlen]; omega), List.getElem_set_self]
        · have hne : t.p (k + 1) - 1 ≠ t.p j - 1 := by
            intro he
            have := h.inj j (k + 1) hj (by omega) (by omega) hk hpj (by omega)
            omega
          have hrest := hread j hj (by omega) hpj
          have hbj := h.below j hj (by omega)
          rw [List.getD_eq_getElem _ _ (by rw [hlen]; omega)] at hrest
          rw [List.getD_eq_getElem _ _ (by rw [List.length_set, hlen]; omega), List.getElem_set_ne hne]
          exact hrest
      · rw [if_neg hp]
        refine ⟨hlen, fun j hj hjk hpj => ?_⟩
        have hne : j ≠ k + 1 := by rintro rfl; exact hp hpj
        exact hread j hj (by omega) hpj
  exact key m (le_refl m)

theorem readRows_column (h : Duals cost n m (n + 1) t) {i : ℕ} (hi : i < n) :
    ∃ j, 1 ≤ j ∧ j ≤ m ∧ t.p j = i + 1 ∧ (readRows t.p n m).getD i 0 = j - 1 := by
  obtain ⟨j, hj, hjm, hp⟩ := h.onto (i + 1) (by omega) (by omega)
  have hread := (readRows_spec h).2 j hj hjm (by omega)
  rw [hp, Nat.add_sub_cancel] at hread
  exact ⟨j, hj, hjm, hp, hread⟩

theorem readRows_lt (h : Duals cost n m (n + 1) t) : ∀ i < n, (readRows t.p n m).getD i 0 < m := by
  intro i hi
  obtain ⟨j, hj, hjm, -, hcol⟩ := readRows_column h hi
  omega

theorem readRows_inj (h : Duals cost n m (n + 1) t) :
    ∀ i < n, ∀ k < n, (readRows t.p n m).getD i 0 = (readRows t.p n m).getD k 0 → i = k := by
  intro i hi k hk he
  obtain ⟨j, hj, hjm, hp, hji⟩ := readRows_column h hi
  obtain ⟨l, hl, hlm, hp', hlk⟩ := readRows_column h hk
  obtain rfl : j = l := by omega
  omega

/-- **The columns that are read cost least**: the potentials prove it. -/
theorem readRows_least (h : Duals cost n m (n + 1) t) {g : ℕ → ℕ} (hg : ∀ i < n, g i < m)
    (hginj : Set.InjOn g (Finset.range n)) :
    ∑ i ∈ Finset.range n, cost (i + 1) ((readRows t.p n m).getD i 0 + 1) ≤ ∑ i ∈ Finset.range n, cost (i + 1) (g i + 1) := by
  refine sum_le_of_potentials (Finset.range n) (Finset.range m) (a := fun i j => cost (i + 1) (j + 1))
    (u := fun i => t.u (i + 1)) (v := fun j => t.v (j + 1)) (fun i hi j hj => ?_) (fun j hj => ?_) (fun i hi => ?_)
    (fun i hi k hk he => ?_) (fun i hi => ?_) (fun j hj hno => ?_) (fun i hi => ?_) hginj
  · have hslack := h.feasible (i + 1) (by omega) (Finset.mem_range.mp hi) (j + 1) (by omega) (Finset.mem_range.mp hj)
    rw [slack] at hslack
    omega
  · exact h.v_nonpos (j + 1) (by omega) (Finset.mem_range.mp hj)
  · exact Finset.mem_range.mpr (readRows_lt h i (Finset.mem_range.mp hi))
  · exact readRows_inj h i (Finset.mem_range.mp hi) k (Finset.mem_range.mp hk) he
  · obtain ⟨j, hj, hjm, hp, he⟩ := readRows_column h (Finset.mem_range.mp hi)
    have hslack := h.tight j hj hjm (by omega)
    rw [slack, hp] at hslack
    have hj' : j - 1 + 1 = j := by omega
    rw [he, hj']
    omega
  · refine h.free (j + 1) (by omega) (Finset.mem_range.mp hj) ?_
    by_contra hp
    have hbelow := h.below (j + 1) (by omega) (Finset.mem_range.mp hj)
    have hread := (readRows_spec h).2 (j + 1) (by omega) (Finset.mem_range.mp hj) hp
    exact hno (t.p (j + 1) - 1) (Finset.mem_range.mpr (by omega)) hread
  · exact Finset.mem_range.mpr (hg i (Finset.mem_range.mp hi))

end Steps

/-! ## `hungarian` -/

/-- A matrix of `n` rows and `m` columns with entries between 0 and `M`. -/
structure CostMatrix (a : List (List ℤ)) (n m : ℕ) (M : ℤ) : Prop where
  rows : a.length = n
  cols : ∀ row ∈ a, row.length = m
  entries : ∀ row ∈ a, ∀ x ∈ row, 0 ≤ x ∧ x ≤ M

/-- The cost of the pair of row `i` and column `j`, numbered from 0. -/
def costAt (a : List (List ℤ)) (i j : ℕ) : ℤ := (a.getD i []).getD j 0

theorem CostMatrix.costAt_bounds {a : List (List ℤ)} {n m : ℕ} {M : ℤ} (h : CostMatrix a n m M) {i j : ℕ} (hi : i < n)
    (hj : j < m) : 0 ≤ costAt a i j ∧ costAt a i j ≤ M := by
  have hil : i < a.length := by rw [h.rows]; exact hi
  have hjl : j < a[i].length := by rw [h.cols _ (List.getElem_mem hil)]; exact hj
  rw [costAt, List.getD_eq_getElem _ _ hil, List.getD_eq_getElem _ _ hjl]
  exact h.entries _ (List.getElem_mem hil) _ (List.getElem_mem hjl)

theorem CostMatrix.costs {a : List (List ℤ)} {n m : ℕ} {M : ℤ} (h : CostMatrix a n m M) (hM : 2 * M < inf) :
    Costs (entry a) n m M :=
  ⟨fun r hr hrn j hj hjm => (h.costAt_bounds (i := r - 1) (j := j - 1) (by omega) (by omega)).1,
    fun r hr hrn j hj hjm => (h.costAt_bounds (i := r - 1) (j := j - 1) (by omega) (by omega)).2, hM⟩

/-- **Every row gets a column of its own, at the least total cost.** -/
theorem hungarian_optimal {a : List (List ℤ)} {n m : ℕ} {M : ℤ} (h : CostMatrix a n m M) (hnm : n ≤ m)
    (hM : 2 * M < inf) :
    (hungarian a).length = n ∧ (∀ i < n, (hungarian a).getD i 0 < m) ∧
      (∀ i < n, ∀ k < n, (hungarian a).getD i 0 = (hungarian a).getD k 0 → i = k) ∧
      ∀ g : ℕ → ℕ, (∀ i < n, g i < m) → Set.InjOn g (Finset.range n) →
        ∑ i ∈ Finset.range n, costAt a i ((hungarian a).getD i 0) ≤ ∑ i ∈ Finset.range n, costAt a i (g i) := by
  obtain ⟨hrows, hcols, -⟩ := id h
  cases a with
  | nil =>
    obtain rfl : n = 0 := hrows.symm
    exact ⟨rfl, fun i hi => absurd hi (Nat.not_lt_zero i), fun i hi => absurd hi (Nat.not_lt_zero i),
      fun _ _ _ => le_refl _⟩
  | cons row rest =>
    have hm : row.length = m := hcols row List.mem_cons_self
    have hd := insertRows_spec (h.costs hM) hnm
    have hdef : hungarian (row :: rest) = readRows (insertRows (entry (row :: rest)) n m).p n m := by
      rw [hungarian, hrows, hm]
    rw [hdef]
    exact ⟨(readRows_spec hd).1, readRows_lt hd, readRows_inj hd, fun g hg hginj => readRows_least hd hg hginj⟩

end TtAiops.Stage2
