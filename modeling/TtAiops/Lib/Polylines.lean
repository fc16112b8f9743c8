import Mathlib.Algebra.Order.Field.Basic
import Mathlib.Data.List.Chain
import Mathlib.Tactic.Linarith
import Mathlib.Tactic.FieldSimp
import Mathlib.Tactic.Ring

/-!
# Polylines

A list of knots, each with an abscissa and an ordinate, gives a function: flat up to the first knot, linear between two
knots, and beyond the last one on along the last segment, over a span of at least one. Knots may share an abscissa.

* `between`, `beyond`, `onward`, `polyline` : the parts of the function, and the function;
* `Rising` : a coordinate of the knots does not go back;
* `polyline_mono` : **a polyline over rising knots is monotone**;
* `polyline_le`, `polyline_beyond` : up to the last knot the order of two polylines is that of their knots, and beyond it both go
  on along their last segments;
* `beyond_le_iff`, `forall_beyond_le_iff` : when one of them stays below the other there.
-/

namespace TtAiops.Lib.Polylines

variable {K κ : Type*} [Field K] [LinearOrder K] (X Y : κ → K)

def between (a b : κ) (x : K) : K := Y a + (x - X a) / (X b - X a) * (Y b - Y a)

def beyond (a b : κ) (x : K) : K := Y b + (Y b - Y a) / max (X b - X a) 1 * (x - X b)

/-- From the knot `a` on. -/
def onward : κ → κ → List κ → K → K
  | a, b, [], x => if x ≤ X b then between X Y a b x else beyond X Y a b x
  | a, b, c :: knots, x => if x ≤ X b then between X Y a b x else onward b c knots x

def polyline (a b : κ) (knots : List κ) (x : K) : K := if x ≤ X a then Y a else onward X Y a b knots x

def Rising (knots : List κ) : Prop := knots.IsChain fun a b => Y a ≤ Y b

variable {X Y} {a b : κ} {x y : K}

omit [LinearOrder K] in
theorem between_left : between X Y a b (X a) = Y a := by simp [between]

theorem beyond_right : beyond X Y a b (X b) = Y b := by simp [beyond]

omit [Field K] in
theorem Rising.tail {knots : List κ} (h : Rising Y (a :: knots)) : Rising Y knots := List.IsChain.of_cons h

omit [Field K] in
theorem Rising.head {knots : List κ} (h : Rising Y (a :: b :: knots)) : Y a ≤ Y b := (List.isChain_cons_cons.mp h).1

omit [Field K] in
theorem Rising.le_of_mem {knots : List κ} (h : Rising Y (a :: knots)) (hb : b ∈ knots) : Y a ≤ Y b := by
  have hchain : (a :: knots).Pairwise fun k l => Y k ≤ Y l := (List.isChain_iff_pairwise (R := fun k l => Y k ≤ Y l)).mp h
  exact (List.pairwise_cons.mp hchain).1 b hb

variable [IsStrictOrderedRing K]

/-! ## Monotone -/

theorem between_right (hx : X a < X b) : between X Y a b (X b) = Y b := by
  have hwidth : X b - X a ≠ 0 := (sub_pos.mpr hx).ne'
  simp [between, div_self hwidth]

theorem between_mono (hx : X a < X b) (hy : Y a ≤ Y b) (h : x ≤ y) : between X Y a b x ≤ between X Y a b y := by
  have hwidth : 0 < X b - X a := sub_pos.mpr hx
  have hrise : 0 ≤ Y b - Y a := sub_nonneg.mpr hy
  unfold between
  gcongr

theorem beyond_mono (hy : Y a ≤ Y b) (h : x ≤ y) : beyond X Y a b x ≤ beyond X Y a b y := by
  have hslope : 0 ≤ (Y b - Y a) / max (X b - X a) 1 :=
    div_nonneg (sub_nonneg.mpr hy) (le_max_of_le_right zero_le_one)
  unfold beyond
  gcongr

theorem between_mem (hx : X a < x) (hxb : x ≤ X b) (hy : Y a ≤ Y b) :
    Y a ≤ between X Y a b x ∧ between X Y a b x ≤ Y b := by
  have hab : X a < X b := hx.trans_le hxb
  constructor
  · calc Y a = between X Y a b (X a) := between_left.symm
      _ ≤ between X Y a b x := between_mono hab hy hx.le
  · calc between X Y a b x ≤ between X Y a b (X b) := between_mono hab hy hxb
      _ = Y b := between_right hab

theorem le_onward : ∀ {knots : List κ} {a b : κ}, Rising Y (a :: b :: knots) → X a < x → Y a ≤ onward X Y a b knots x
  | [], a, b, hrising, hx => by
    unfold onward
    split_ifs with hxb
    · exact (between_mem hx hxb hrising.head).1
    · calc Y a ≤ Y b := hrising.head
        _ = beyond X Y a b (X b) := beyond_right.symm
        _ ≤ beyond X Y a b x := beyond_mono hrising.head (not_le.mp hxb).le
  | c :: knots, a, b, hrising, hx => by
    unfold onward
    split_ifs with hxb
    · exact (between_mem hx hxb hrising.head).1
    · exact hrising.head.trans (le_onward hrising.tail (not_le.mp hxb))

theorem onward_mono : ∀ {knots : List κ} {a b : κ}, Rising Y (a :: b :: knots) → X a < x → x ≤ y →
    onward X Y a b knots x ≤ onward X Y a b knots y
  | [], a, b, hrising, hx, hxy => by
    unfold onward
    split_ifs with hxb hyb hyb
    · exact between_mono (hx.trans_le hxb) hrising.head hxy
    · calc between X Y a b x ≤ Y b := (between_mem hx hxb hrising.head).2
        _ = beyond X Y a b (X b) := beyond_right.symm
        _ ≤ beyond X Y a b y := beyond_mono hrising.head (not_le.mp hyb).le
    · exact absurd (hxy.trans hyb) hxb
    · exact beyond_mono hrising.head hxy
  | c :: knots, a, b, hrising, hx, hxy => by
    unfold onward
    split_ifs with hxb hyb hyb
    · exact between_mono (hx.trans_le hxb) hrising.head hxy
    · exact (between_mem hx hxb hrising.head).2.trans (le_onward hrising.tail (not_le.mp hyb))
    · exact absurd (hxy.trans hyb) hxb
    · exact onward_mono hrising.tail (not_le.mp hxb) hxy

/-- **A polyline over rising knots is monotone.** -/
theorem polyline_mono {knots : List κ} (hrising : Rising Y (a :: b :: knots)) : Monotone (polyline X Y a b knots) := by
  intro x y hxy
  unfold polyline
  split_ifs with hx hy hy
  · exact le_rfl
  · exact le_onward hrising (not_le.mp hy)
  · exact absurd (hxy.trans hy) hx
  · exact onward_mono hrising (not_le.mp hx) hxy

theorem exists_last_two : ∀ (knots : List κ) (a b : κ), ∃ pre p q, a :: b :: knots = pre ++ [p, q]
  | [], a, b => ⟨[], a, b, rfl⟩
  | c :: knots, a, b => by
    obtain ⟨pre, p, q, heq⟩ := exists_last_two knots b c
    exact ⟨a :: pre, p, q, by rw [heq, List.cons_append]⟩

/-! ## Two polylines over the same abscissas -/

section Two

variable {Z : κ → K}

theorem between_le (hx : X a < x) (hxb : x ≤ X b) (ha : Y a ≤ Z a) (hb : Y b ≤ Z b) :
    between X Y a b x ≤ between X Z a b x := by
  have hwidth : 0 < X b - X a := sub_pos.mpr (hx.trans_le hxb)
  have hleft : 0 ≤ (x - X a) / (X b - X a) := div_nonneg (sub_nonneg.mpr hx.le) hwidth.le
  have hright : (x - X a) / (X b - X a) ≤ 1 := (div_le_one hwidth).mpr (by linarith)
  have hweights : ∀ W : κ → K, between X W a b x =
      (1 - (x - X a) / (X b - X a)) * W a + (x - X a) / (X b - X a) * W b := by
    intro W
    unfold between
    ring
  rw [hweights Y, hweights Z]
  have hrest : 0 ≤ 1 - (x - X a) / (X b - X a) := sub_nonneg.mpr hright
  gcongr

theorem onward_le : ∀ {knots : List κ} {a b : κ}, (∀ k ∈ a :: b :: knots, Y k ≤ Z k) → X a < x →
    (∀ k ∈ (b :: knots).getLast?, x ≤ X k) → onward X Y a b knots x ≤ onward X Z a b knots x
  | [], a, b, hle, hx, hlast => by
    have hxb : x ≤ X b := hlast b rfl
    unfold onward
    rw [if_pos hxb, if_pos hxb]
    exact between_le hx hxb (hle a (by simp)) (hle b (by simp))
  | c :: knots, a, b, hle, hx, hlast => by
    unfold onward
    split_ifs with hxb
    · exact between_le hx hxb (hle a (by simp)) (hle b (by simp))
    · exact onward_le (fun k hk => hle k (List.mem_cons_of_mem _ hk)) (not_le.mp hxb) hlast

omit [IsStrictOrderedRing K] in
/-- Beyond the last knot the function goes on along the last segment. -/
theorem onward_beyond : ∀ {knots pre : List κ} {a b p q : κ}, Rising X (a :: b :: knots) → a :: b :: knots = pre ++ [p, q] →
    X q < x → onward X Y a b knots x = beyond X Y p q x
  | [], pre, a, b, p, q, _, heq, hx => by
    obtain ⟨rfl, hpq⟩ : [] = pre ∧ [a, b] = [p, q] := List.append_inj' ((List.nil_append _).trans heq) rfl
    obtain ⟨rfl, rfl⟩ : a = p ∧ b = q := by simpa using hpq
    unfold onward
    rw [if_neg (not_le.mpr hx)]
  | c :: knots, pre, a, b, p, q, hrising, heq, hx => by
    obtain _ | ⟨a', pre⟩ := pre
    · exact absurd (congrArg List.length heq) (by simp)
    · obtain ⟨rfl, hrest⟩ : a = a' ∧ b :: c :: knots = pre ++ [p, q] := by simpa using heq
      have hbq : X b ≤ X q := by
        obtain _ | ⟨b', pre⟩ := pre
        · obtain ⟨rfl, rfl, rfl⟩ : b = p ∧ c = q ∧ knots = [] := by simpa using hrest
          exact hrising.tail.head
        · obtain ⟨rfl, hknots⟩ : b = b' ∧ c :: knots = pre ++ [p, q] := by simpa using hrest
          exact hrising.tail.le_of_mem (by simp [hknots])
      unfold onward
      rw [if_neg (not_le.mpr (hbq.trans_lt hx))]
      exact onward_beyond hrising.tail hrest hx

theorem polyline_le {knots : List κ} (hle : ∀ k ∈ a :: b :: knots, Y k ≤ Z k)
    (hlast : ∀ k ∈ (b :: knots).getLast?, x ≤ X k) : polyline X Y a b knots x ≤ polyline X Z a b knots x := by
  unfold polyline
  split_ifs with hx
  · exact hle a (by simp)
  · exact onward_le hle (not_le.mp hx) hlast

omit [IsStrictOrderedRing K] in
theorem polyline_beyond {knots pre : List κ} {p q : κ} (hrising : Rising X (a :: b :: knots))
    (heq : a :: b :: knots = pre ++ [p, q]) (hx : X q < x) : polyline X Y a b knots x = beyond X Y p q x := by
  have haq : X a ≤ X q := by
    apply hrising.le_of_mem
    obtain _ | ⟨a', pre⟩ := pre
    · simp_all
    · simp_all
  unfold polyline
  rw [if_neg (not_le.mpr (haq.trans_lt hx))]
  exact onward_beyond hrising heq hx

/-- Beyond the last knot the lower polyline stays below as long as its greater slope has not used up the distance. -/
theorem beyond_le_iff : beyond X Y a b x ≤ beyond X Z a b x ↔
    ((Y b - Y a) - (Z b - Z a)) * (x - X b) ≤ (Z b - Y b) * max (X b - X a) 1 := by
  have hspan : 0 < max (X b - X a) 1 := lt_max_of_lt_right one_pos
  unfold beyond
  rw [← mul_le_mul_iff_left₀ hspan]
  field_simp
  constructor <;> intro h <;> linarith

/-- It stays below for good exactly when its last segment does not rise more. -/
theorem forall_beyond_le_iff (hb : Y b ≤ Z b) :
    (∀ x, X b < x → beyond X Y a b x ≤ beyond X Z a b x) ↔ Y b - Y a ≤ Z b - Z a := by
  have hspan : 0 < max (X b - X a) 1 := lt_max_of_lt_right one_pos
  simp only [beyond_le_iff]
  constructor
  · intro hall
    by_contra hlt
    have hrise : 0 < (Y b - Y a) - (Z b - Z a) := sub_pos.mpr (not_le.mp hlt)
    have hgap : 0 ≤ (Z b - Y b) * max (X b - X a) 1 := mul_nonneg (sub_nonneg.mpr hb) hspan.le
    have hstep : 0 < ((Z b - Y b) * max (X b - X a) 1 + 1) / ((Y b - Y a) - (Z b - Z a)) :=
      div_pos (by linarith) hrise
    have := hall (X b + ((Z b - Y b) * max (X b - X a) 1 + 1) / ((Y b - Y a) - (Z b - Z a))) (by linarith)
    rw [add_sub_cancel_left, mul_div_cancel₀ _ hrise.ne'] at this
    linarith
  · intro hle x hx
    calc ((Y b - Y a) - (Z b - Z a)) * (x - X b) ≤ 0 :=
          mul_nonpos_of_nonpos_of_nonneg (by linarith) (sub_nonneg.mpr hx.le)
      _ ≤ (Z b - Y b) * max (X b - X a) 1 := mul_nonneg (sub_nonneg.mpr hb) hspan.le

end Two

end TtAiops.Lib.Polylines
