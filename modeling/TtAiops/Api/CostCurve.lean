import TtAiops.Lib.Polylines
import Mathlib.Data.List.Chain
import Mathlib.Data.List.Sort
import Mathlib.Data.Rat.Floor

/-!
# The cost curve (`roadgraph.rs`)

The fit keeps the rows with enough samples, orders them by the estimate and makes both quantiles monotone by running maxima.
The curve is then read as two polylines over the same knots. Numbers are exact; a division by zero or an index out of range
in `eval` is a fault, `none`.

* `CostCurve.fit`, `CostCurve.eval` : the fit and the reading;
* `eval_eq_polyline` : over knots whose abscissas do not go back the reading has no fault and is two polylines;
* `eval_monotone` : **a fitted curve is read without fault, and both quantiles are monotone**;
* `quantiles_ordered` : **when the lower quantile of a fitted curve stays below the upper one**.
-/

namespace TtAiops.Api
open TtAiops.Lib.Polylines

variable {K : Type*} [Field K] [LinearOrder K]

/-- A row of the evaluation: estimate, actual median and 90th percentile, samples. -/
structure CostRow (K : Type*) where
  x : K
  p50 : K
  p90 : K
  n : ℤ

structure Knot (K : Type*) where
  x : K
  p50 : K
  p90 : K
  deriving DecidableEq

structure CostCurve (K : Type*) where
  knots : List (Knot K)
  deriving DecidableEq

/-- The rows that `fit` works on, in its order. -/
def keptRows (rows : List (CostRow K)) (minN : ℤ) : List (CostRow K) :=
  (rows.filter fun r => minN ≤ r.n && 0 < r.p50).insertionSort fun a b => a.x ≤ b.x

/-- The knots from the running maxima `m50` and `m90` on. -/
def monotoneKnots : K → K → List (CostRow K) → List (Knot K)
  | _, _, [] => []
  | m50, m90, r :: rows =>
    let m50 := max m50 r.p50
    let m90 := max (max m90 r.p90) m50
    ⟨r.x, m50, m90⟩ :: monotoneKnots m50 m90 rows

namespace CostCurve

def fit (rows : List (CostRow K)) (minN : ℤ) : Option (CostCurve K) :=
  let knots := monotoneKnots 0 0 (keptRows rows minN)
  if 2 ≤ knots.length then some ⟨knots⟩ else none

def divide (x y : K) : Option K := if y = 0 then none else some (x / y)

/-- The loop over the windows: a fault, or the value in the first window that reaches `x`, if there is one. -/
def inWindows (x : K) : List (Knot K × Knot K) → Option (Option (K × K))
  | [] => some none
  | (a, b) :: windows =>
    if x ≤ b.x then
      (divide (x - a.x) (b.x - a.x)).map fun f => some (a.p50 + f * (b.p50 - a.p50), a.p90 + f * (b.p90 - a.p90))
    else inWindows x windows

def eval (c : CostCurve K) (x : K) : Option (K × K) :=
  c.knots[0]?.bind fun k0 =>
    if x ≤ k0.x then some (k0.p50, k0.p90)
    else (inWindows x (c.knots.zip c.knots.tail)).bind fun
      | some r => some r
      | none =>
        if c.knots.length < 2 then none
        else c.knots[c.knots.length - 2]?.bind fun a => c.knots[c.knots.length - 1]?.bind fun b =>
          let span := max (b.x - a.x) 1
          let extra := x - b.x
          (divide (b.p50 - a.p50) span).bind fun s50 => (divide (b.p90 - a.p90) span).map fun s90 =>
            (b.p50 + s50 * extra, b.p90 + s90 * extra)

end CostCurve

/-! ## The knots -/

section Knots

theorem rising_keptRows (rows : List (CostRow K)) (minN : ℤ) : Rising CostRow.x (keptRows rows minN) := by
  have hsorted : (keptRows rows minN).Pairwise fun a b => a.x ≤ b.x := List.pairwise_insertionSort _ _
  exact hsorted.isChain

omit [Field K] in
theorem monotoneKnots_x : ∀ (m50 m90 : K) (rows : List (CostRow K)),
    (monotoneKnots m50 m90 rows).map Knot.x = rows.map CostRow.x
  | _, _, [] => rfl
  | m50, m90, r :: rows => by
    rw [monotoneKnots, List.map_cons, List.map_cons, monotoneKnots_x]

omit [Field K] in
theorem length_monotoneKnots (m50 m90 : K) (rows : List (CostRow K)) :
    (monotoneKnots m50 m90 rows).length = rows.length := by
  simpa using congrArg List.length (monotoneKnots_x m50 m90 rows)

omit [Field K] in
theorem rising_monotoneKnots_x (m50 m90 : K) {rows : List (CostRow K)} (hrows : Rising CostRow.x rows) :
    Rising Knot.x (monotoneKnots m50 m90 rows) := by
  have hmap := (List.isChain_map (R := fun a b : K => a ≤ b) CostRow.x).mpr hrows
  rw [← monotoneKnots_x m50 m90] at hmap
  exact (List.isChain_map (R := fun a b : K => a ≤ b) Knot.x).mp hmap

omit [Field K] in
theorem rising_monotoneKnots : ∀ (rows : List (CostRow K)) (k : Knot K),
    Rising Knot.p50 (k :: monotoneKnots k.p50 k.p90 rows) ∧ Rising Knot.p90 (k :: monotoneKnots k.p50 k.p90 rows)
  | [], k => ⟨List.isChain_singleton _, List.isChain_singleton _⟩
  | r :: rows, k => by
    obtain ⟨h50, h90⟩ := rising_monotoneKnots rows
      ⟨r.x, max k.p50 r.p50, max (max k.p90 r.p90) (max k.p50 r.p50)⟩
    refine ⟨List.isChain_cons_cons.mpr ⟨le_max_left _ _, h50⟩, List.isChain_cons_cons.mpr ⟨?_, h90⟩⟩
    exact (le_max_left _ _).trans (le_max_left _ _)

omit [Field K] in
theorem knots_le : ∀ {rows : List (CostRow K)} {m50 m90 : K}, ∀ k ∈ monotoneKnots m50 m90 rows, k.p50 ≤ k.p90
  | [], _, _, k, hk => absurd hk List.not_mem_nil
  | r :: rows, m50, m90, k, hk => by
    rcases List.mem_cons.mp hk with rfl | hk
    · exact le_max_right _ _
    · exact knots_le k hk

end Knots

/-! ## The reading -/

namespace CostCurve

theorem divide_of_ne {x y : K} (hy : y ≠ 0) : divide x y = some (x / y) := if_neg hy

def readPolylines (a b : Knot K) (knots : List (Knot K)) (x : K) : K × K :=
  (polyline Knot.x Knot.p50 a b knots x, polyline Knot.x Knot.p90 a b knots x)

variable [IsStrictOrderedRing K]

theorem inWindows_cases {x : K} (knots : List (Knot K)) (a b : Knot K) (hx : a.x < x) :
    inWindows x ((a :: b :: knots).zip (b :: knots)) =
        some (some (onward Knot.x Knot.p50 a b knots x, onward Knot.x Knot.p90 a b knots x)) ∨
      (inWindows x ((a :: b :: knots).zip (b :: knots)) = some none ∧ ∀ k ∈ b :: knots, k.x < x) := by
  induction knots generalizing a b with
  | nil =>
    by_cases hxb : x ≤ b.x
    · have hwidth : b.x - a.x ≠ 0 := (sub_pos.mpr (hx.trans_le hxb)).ne'
      refine Or.inl ?_
      simp [inWindows, onward, between, hxb, divide_of_ne hwidth]
    · exact Or.inr ⟨by simp [inWindows, hxb], by simpa using hxb⟩
  | cons c knots ih =>
    by_cases hxb : x ≤ b.x
    · have hwidth : b.x - a.x ≠ 0 := (sub_pos.mpr (hx.trans_le hxb)).ne'
      refine Or.inl ?_
      simp [inWindows, onward, between, hxb, divide_of_ne hwidth]
    · have hloop : inWindows x ((a :: b :: c :: knots).zip (b :: c :: knots)) =
          inWindows x ((b :: c :: knots).zip (c :: knots)) := by simp [inWindows, hxb]
      have honward : ∀ Y : Knot K → K, onward Knot.x Y a b (c :: knots) x = onward Knot.x Y b c knots x := by
        intro Y
        simp [onward, hxb]
      rw [hloop, honward, honward]
      rcases ih b c (not_le.mp hxb) with hsome | ⟨hnone, hall⟩
      · exact Or.inl hsome
      · exact Or.inr ⟨hnone, List.forall_mem_cons.mpr ⟨not_le.mp hxb, hall⟩⟩

/-- **Over knots whose abscissas do not go back the reading has no fault, and is two polylines.** -/
theorem eval_eq_polyline {a b : Knot K} {knots : List (Knot K)} (hrising : Rising Knot.x (a :: b :: knots)) (x : K) :
    (⟨a :: b :: knots⟩ : CostCurve K).eval x = some (readPolylines a b knots x) := by
  unfold eval readPolylines polyline
  by_cases hxa : x ≤ a.x
  · simp [hxa]
  · rcases inWindows_cases knots a b (not_le.mp hxa) with hsome | ⟨hnone, hall⟩
    · simp only [List.getElem?_cons_zero, Option.bind_some, if_neg hxa, List.tail_cons, hsome]
    · -- the last two knots are where the windows end
      obtain ⟨pre, p, q, heq⟩ := exists_last_two knots a b
      have hq : q.x < x := by
        have hmem : q ∈ a :: b :: knots := by simp [heq]
        rcases List.mem_cons.mp hmem with rfl | hmem
        · exact not_le.mp hxa
        · exact hall q hmem
      have hspan : max (q.x - p.x) 1 ≠ 0 := (lt_max_of_lt_right one_pos).ne'
      have hlast : (a :: b :: knots)[(a :: b :: knots).length - 2]? = some p ∧
          (a :: b :: knots)[(a :: b :: knots).length - 1]? = some q ∧ ¬ (a :: b :: knots).length < 2 := by
        rw [heq]
        simp
      obtain ⟨hp?, hq?, hlength⟩ := hlast
      simp only [List.getElem?_cons_zero, Option.bind_some, if_neg hxa, List.tail_cons, hnone, if_neg hlength, hp?, hq?,
        divide_of_ne hspan, Option.map_some]
      rw [onward_beyond hrising heq hq, onward_beyond hrising heq hq]
      rfl

theorem fit_knots {rows : List (CostRow K)} {minN : ℤ} {c : CostCurve K} (hfit : fit rows minN = some c) :
    ∃ a b knots, c.knots = a :: b :: knots ∧ c.knots = monotoneKnots 0 0 (keptRows rows minN) ∧
      Rising Knot.x (a :: b :: knots) ∧ ∀ x, c.eval x = some (readPolylines a b knots x) := by
  unfold fit at hfit
  obtain ⟨hlength, heq⟩ := Option.ite_none_right_eq_some.mp hfit
  obtain rfl := Option.some.inj heq
  have hrising := rising_monotoneKnots_x 0 0 (rising_keptRows rows minN)
  dsimp only at hlength ⊢
  match hknots : monotoneKnots 0 0 (keptRows rows minN), hlength with
  | a :: b :: knots, _ =>
    rw [hknots] at hrising
    exact ⟨a, b, knots, rfl, rfl, hrising, eval_eq_polyline hrising⟩

/-- **A fitted curve is read without a fault at every argument, and neither quantile goes down.** -/
theorem eval_monotone (rows : List (CostRow K)) (minN : ℤ) (c : CostCurve K) (hfit : fit rows minN = some c) :
    ∃ p50 p90 : K → K, (∀ x, c.eval x = some (p50 x, p90 x)) ∧ Monotone p50 ∧ Monotone p90 := by
  obtain ⟨a, b, knots, hknots, hrows, -, heval⟩ := fit_knots hfit
  obtain ⟨h50, h90⟩ := rising_monotoneKnots (keptRows rows minN) (⟨0, 0, 0⟩ : Knot K)
  rw [← hrows, hknots] at h50 h90
  exact ⟨polyline Knot.x Knot.p50 a b knots, polyline Knot.x Knot.p90 a b knots, heval,
    polyline_mono h50.tail, polyline_mono h90.tail⟩

end CostCurve

/-- Two rows with an abscissa in common and one beyond it. -/
def threeRows : List (CostRow ℚ) := [⟨10, 90, 100, 5⟩, ⟨0, 10, 100, 5⟩, ⟨10, 80, 120, 5⟩]

theorem eval_monotone_three : ∃ c p50 p90, CostCurve.fit threeRows 1 = some c ∧
    (∀ x, c.eval x = some (p50 x, p90 x)) ∧ Monotone p50 ∧ Monotone p90 := by
  obtain ⟨p50, p90, h⟩ := CostCurve.eval_monotone threeRows 1
    ⟨[⟨0, 10, 100⟩, ⟨10, 90, 100⟩, ⟨10, 90, 120⟩]⟩ (by decide +kernel)
  exact ⟨_, p50, p90, by decide +kernel, h⟩

/-! ## The order of the quantiles -/

/-- The greatest value of the rows, at least 0. -/
def greatest (f : CostRow K → K) (rows : List (CostRow K)) : K := rows.foldl (fun m r => max m (f r)) 0

/-- What the last row adds to the greatest value of those before it. -/
def lastRise (f : CostRow K → K) (rows : List (CostRow K)) : K := greatest f rows - greatest f rows.dropLast

section Order

omit [Field K] in
theorem monotoneKnots_append : ∀ (rows : List (CostRow K)) (m50 m90 : K) (r : CostRow K),
    (∀ r' ∈ rows ++ [r], r'.p50 ≤ r'.p90) → m50 ≤ m90 → monotoneKnots m50 m90 (rows ++ [r]) =
      monotoneKnots m50 m90 rows ++
        [⟨r.x, (rows ++ [r]).foldl (fun m r => max m r.p50) m50, (rows ++ [r]).foldl (fun m r => max m r.p90) m90⟩]
  | [], m50, m90, r, hrows, hm => by
    have hr : max m50 r.p50 ≤ max m90 r.p90 := max_le_max hm (hrows r (by simp))
    simp [monotoneKnots, max_eq_left hr]
  | r' :: rows, m50, m90, r, hrows, hm => by
    have hr' : max m50 r'.p50 ≤ max m90 r'.p90 := max_le_max hm (hrows r' (by simp))
    have hrest := monotoneKnots_append rows _ _ r (fun r'' hr'' => hrows r'' (by simp at hr'' ⊢; tauto)) hr'
    simp only [List.cons_append, monotoneKnots, max_eq_left hr', hrest, List.foldl_cons]

theorem monotoneKnots_last (rows : List (CostRow K)) (r : CostRow K) (hrows : ∀ r' ∈ rows ++ [r], r'.p50 ≤ r'.p90) :
    monotoneKnots 0 0 (rows ++ [r]) = monotoneKnots 0 0 rows ++
      [⟨r.x, greatest CostRow.p50 (rows ++ [r]), greatest CostRow.p90 (rows ++ [r])⟩] :=
  monotoneKnots_append rows 0 0 r hrows le_rfl

theorem last_segment {rows pre : List (CostRow K)} {r' r : CostRow K} (hrows : ∀ r ∈ rows, r.p50 ≤ r.p90)
    (heq : rows = pre ++ [r'] ++ [r]) : ∃ k' k : Knot K, monotoneKnots 0 0 rows = monotoneKnots 0 0 pre ++ [k', k] ∧
      k'.x = r'.x ∧ k.x = r.x ∧
      k.p50 - k'.p50 = lastRise CostRow.p50 rows ∧ k.p90 - k'.p90 = lastRise CostRow.p90 rows ∧
      k.p90 - k.p50 = greatest CostRow.p90 rows - greatest CostRow.p50 rows := by
  have hlast := monotoneKnots_last (pre ++ [r']) r (heq ▸ hrows)
  have hlast' := monotoneKnots_last pre r' fun r'' hr'' => hrows r'' (by
    rw [heq]
    exact List.mem_append_left _ hr'')
  rw [hlast', ← heq, List.append_assoc] at hlast
  refine ⟨_, _, hlast, rfl, rfl, ?_, ?_, rfl⟩ <;> rw [lastRise, heq, List.dropLast_concat]

variable [IsStrictOrderedRing K]

/-- Up to the last knot the quantiles are in order, and beyond it as far as its segment keeps them so. -/
theorem read_le_iff {a b k' k : Knot K} {knots pre : List (Knot K)} (hrising : Rising Knot.x (a :: b :: knots))
    (horder : ∀ k ∈ a :: b :: knots, k.p50 ≤ k.p90) (hseg : a :: b :: knots = pre ++ [k', k]) (x : K) :
    (CostCurve.readPolylines a b knots x).1 ≤ (CostCurve.readPolylines a b knots x).2 ↔
      x ≤ k.x ∨ beyond Knot.x Knot.p50 k' k x ≤ beyond Knot.x Knot.p90 k' k x := by
  rcases le_or_gt x k.x with hle | hlt
  · refine iff_of_true (polyline_le horder fun q hq => ?_) (Or.inl hle)
    have hq' : (a :: b :: knots).getLast? = some q := by simpa using hq
    rw [hseg] at hq'
    obtain rfl : k = q := by simpa using hq'
    exact hle
  · rw [or_iff_right (not_le.mpr hlt), CostCurve.readPolylines, polyline_beyond hrising hseg hlt,
      polyline_beyond hrising hseg hlt]

/-- **The lower quantile of a fitted curve stays below the upper one exactly when the last kept row raises the greatest
median by no more than the greatest 90th percentile**; otherwise it does so up to the last kept row, and beyond it until
the difference of the slopes has used up the distance. -/
theorem quantiles_ordered (rows : List (CostRow K)) (minN : ℤ) (c : CostCurve K) (hrows : ∀ r ∈ rows, r.p50 ≤ r.p90)
    (hfit : CostCurve.fit rows minN = some c) :
    ((∀ x p, c.eval x = some p → p.1 ≤ p.2) ↔
        lastRise CostRow.p50 (keptRows rows minN) ≤ lastRise CostRow.p90 (keptRows rows minN)) ∧
      ∀ pre r' r, keptRows rows minN = pre ++ [r'] ++ [r] → ∀ x p, c.eval x = some p → (p.1 ≤ p.2 ↔ x ≤ r.x ∨
        (lastRise CostRow.p50 (keptRows rows minN) - lastRise CostRow.p90 (keptRows rows minN)) * (x - r.x) ≤
          (greatest CostRow.p90 (keptRows rows minN) - greatest CostRow.p50 (keptRows rows minN)) *
            max (r.x - r'.x) 1) := by
  have hkept : ∀ r ∈ keptRows rows minN, r.p50 ≤ r.p90 := by
    intro r hr
    exact hrows r (List.mem_of_mem_filter ((List.mem_insertionSort _).mp hr))
  obtain ⟨a, b, knots, hknots, hfrom, hrising, heval⟩ := CostCurve.fit_knots hfit
  have horder : ∀ k ∈ a :: b :: knots, k.p50 ≤ k.p90 := by
    rw [← hknots, hfrom]
    exact knots_le
  simp only [heval, Option.some_inj, forall_eq']
  constructor
  · obtain ⟨pre, r', r, heq⟩ : ∃ pre r' r, keptRows rows minN = pre ++ [r'] ++ [r] := by
      have hlength : 2 ≤ (keptRows rows minN).length := by
        rw [← length_monotoneKnots 0 0, ← hfrom, hknots]
        simp
      match hrows' : keptRows rows minN, hlength with
      | r0 :: r1 :: rest, _ =>
        obtain ⟨pre, r', r, heq⟩ := exists_last_two rest r0 r1
        exact ⟨pre, r', r, by simpa using heq⟩
    obtain ⟨k', k, hseg, -, -, h50, h90, -⟩ := last_segment hkept heq
    rw [← hfrom, hknots] at hseg
    rw [← h50, ← h90, ← forall_beyond_le_iff (X := Knot.x) (horder k (by simp [hseg]))]
    refine forall_congr' fun x => ?_
    rw [read_le_iff hrising horder hseg, or_iff_not_imp_left, not_le]
  · intro pre r' r heq x
    obtain ⟨k', k, hseg, hx', hx, h50, h90, hgap⟩ := last_segment hkept heq
    rw [← hfrom, hknots] at hseg
    rw [read_le_iff hrising horder hseg, beyond_le_iff, h50, h90, hgap, hx', hx]

end Order

/-- Of the three rows the last raises neither of the quantiles more. -/
theorem quantiles_ordered_three : ∃ c, CostCurve.fit threeRows 1 = some c ∧ ∀ x p, c.eval x = some p → p.1 ≤ p.2 :=
  ⟨⟨[⟨0, 10, 100⟩, ⟨10, 90, 100⟩, ⟨10, 90, 120⟩]⟩, by decide +kernel,
    (quantiles_ordered threeRows 1 _ (by decide +kernel) (by decide +kernel)).1.mpr (by decide +kernel)⟩

/-- Two rows of which the second has a greater median and the same 90th percentile. -/
def crossingRows : List (CostRow ℚ) := [⟨0, 10, 100, 5⟩, ⟨10, 90, 100, 5⟩]

/-- Beyond them the median is above the 90th percentile. -/
theorem quantiles_cross : (∀ r ∈ crossingRows, r.p50 ≤ r.p90) ∧ ∃ c, CostCurve.fit crossingRows 1 = some c ∧
    ¬ ∀ x p, c.eval x = some p → p.1 ≤ p.2 := by
  refine ⟨by decide +kernel, ⟨[⟨0, 10, 100⟩, ⟨10, 90, 100⟩]⟩, by decide +kernel, fun hall => ?_⟩
  exact absurd (hall 20 (170, 100) (by decide +kernel)) (by decide +kernel)

end TtAiops.Api
