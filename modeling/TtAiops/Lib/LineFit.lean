import Mathlib

/-!
# The line that fits points best

* `avg`, `off` : the mean of a quantity over points, and how far a point is off a line, for a direction of length one;
* `Moments` : the variances and the covariance of points; `along` is the variance in a direction;
* `avg_off_sq` : the mean square distance from a line;
* `Moments.Root`, `along_le_top`, `along_major` : the greatest variance of all directions, and the direction that has it;
* `off_le_of_along` : **a line through the middle of the points is as good as any other, up to what its direction lacks**.
-/

namespace TtAiops.Lib.LineFit

variable {K : Type*} [Field K]

def half (x : K) : K := x / (1 + 1)

theorem half_eq (x : K) : half x = x / 2 := by
  unfold half
  rw [one_add_one_eq_two]

/-- The mean of `f` over the points. -/
def avg {α : Type*} (f : α → K) (l : List α) : K := (l.map f).sum / l.length

/-- How far the point `p` is off the line through `m` in the direction `e`. -/
def off (m e p : K × K) : K := (p.1 - m.1) * e.2 - (p.2 - m.2) * e.1

/-- How far the point `p` is from `m` in the direction `e`. -/
def far (m e p : K × K) : K := (p.1 - m.1) * e.1 + (p.2 - m.2) * e.2

def Straight (e : K × K) : Prop := e.1 * e.1 + e.2 * e.2 = 1

structure Moments (K : Type*) where
  xx : K
  yy : K
  xy : K

def middle (l : List (K × K)) : K × K := (avg Prod.fst l, avg Prod.snd l)

def moments (l : List (K × K)) : Moments K where
  xx := avg (fun p => p.1 * p.1) l - (middle l).1 * (middle l).1
  yy := avg (fun p => p.2 * p.2) l - (middle l).2 * (middle l).2
  xy := avg (fun p => p.1 * p.2) l - (middle l).1 * (middle l).2

namespace Moments

variable (c : Moments K)

def trace : K := c.xx + c.yy

/-- The variance in a direction. -/
def along (e : K × K) : K :=
  c.xx * (e.1 * e.1) + c.xy * (e.1 * e.2) + c.xy * (e.2 * e.1) + c.yy * (e.2 * e.2)

theorem along_div (e : K × K) (r : K) : c.along (e.1 / r, e.2 / r) = c.along e / (r * r) := by
  unfold along
  dsimp only
  ring

end Moments

theorem sum_off_sq (m e : K × K) (l : List (K × K)) :
    (l.map fun p => off m e p ^ 2).sum =
      (l.map fun p => p.1 * p.1).sum * (e.2 * e.2) - 2 * (l.map fun p => p.1 * p.2).sum * (e.1 * e.2) +
        (l.map fun p => p.2 * p.2).sum * (e.1 * e.1) +
        2 * (m.2 * e.1 - m.1 * e.2) * ((l.map Prod.fst).sum * e.2 - (l.map Prod.snd).sum * e.1) +
        l.length * (m.2 * e.1 - m.1 * e.2) ^ 2 := by
  induction l with
  | nil => simp
  | cons p l ih =>
    rw [List.map_cons, List.sum_cons, ih]
    simp only [List.map_cons, List.sum_cons, List.length_cons]
    unfold off
    push_cast
    ring

/-- The mean square distance from a line: what varies across it, and how far it is off the middle. -/
theorem avg_off_sq [CharZero K] {l : List (K × K)} (hl : l ≠ []) {e : K × K} (he : Straight e) (m : K × K) :
    avg (fun p => off m e p ^ 2) l = (moments l).trace - (moments l).along e + off m e (middle l) ^ 2 := by
  have hn : (l.length : K) ≠ 0 := Nat.cast_ne_zero.mpr (List.length_pos_iff.mpr hl).ne'
  have htrace : (moments l).trace = (moments l).trace * (e.1 * e.1 + e.2 * e.2) := by rw [he, mul_one]
  rw [htrace]
  unfold avg
  rw [sum_off_sq]
  unfold moments Moments.trace Moments.along middle off avg
  dsimp only
  field_simp
  ring

theorem sum_far_sq (m e : K × K) (l : List (K × K)) :
    (l.map fun p => far m e p ^ 2).sum =
      (l.map fun p => p.1 * p.1).sum * (e.1 * e.1) + 2 * (l.map fun p => p.1 * p.2).sum * (e.1 * e.2) +
        (l.map fun p => p.2 * p.2).sum * (e.2 * e.2) -
        2 * (m.1 * e.1 + m.2 * e.2) * ((l.map Prod.fst).sum * e.1 + (l.map Prod.snd).sum * e.2) +
        l.length * (m.1 * e.1 + m.2 * e.2) ^ 2 := by
  induction l with
  | nil => simp
  | cons p l ih =>
    rw [List.map_cons, List.sum_cons, ih]
    simp only [List.map_cons, List.sum_cons, List.length_cons]
    unfold far
    push_cast
    ring

theorem along_eq [CharZero K] {l : List (K × K)} (hl : l ≠ []) (e : K × K) :
    (moments l).along e = avg (fun p => far (middle l) e p ^ 2) l := by
  have hn : (l.length : K) ≠ 0 := Nat.cast_ne_zero.mpr (List.length_pos_iff.mpr hl).ne'
  unfold avg
  rw [sum_far_sq]
  unfold moments Moments.along middle avg
  dsimp only
  field_simp
  ring

section Order

variable [LinearOrder K] [IsStrictOrderedRing K]

/-- The root in the greater eigenvalue. -/
structure Moments.Root (c : Moments K) (s : K) : Prop where
  nonneg : 0 ≤ s
  square : s * s = (c.xx - c.yy) / 2 * ((c.xx - c.yy) / 2) + c.xy * c.xy

namespace Moments

variable {c : Moments K} {s : K}

/-- The greatest variance of all directions. -/
def top (c : Moments K) (s : K) : K := half c.trace + s

theorem Root.abs_half_le (h : c.Root s) : |(c.xx - c.yy) / 2| ≤ s :=
  abs_le_of_sq_le_sq (by rw [sq, sq, h.square]; exact le_add_of_nonneg_right (mul_self_nonneg _)) h.nonneg

theorem Root.xx_le (h : c.Root s) : c.xx ≤ c.top s := by
  have habs := (abs_le.mp h.abs_half_le).2
  unfold top trace
  rw [half_eq]
  linarith

theorem Root.yy_le (h : c.Root s) : c.yy ≤ c.top s := by
  have habs := (abs_le.mp h.abs_half_le).1
  unfold top trace
  rw [half_eq]
  linarith

theorem Root.char (h : c.Root s) : (c.top s - c.xx) * (c.top s - c.yy) = c.xy * c.xy := by
  have hsq := h.square
  unfold top trace
  rw [half_eq]
  linear_combination hsq

theorem form_nonneg {a b d : K} (ha : 0 ≤ a) (hd : 0 ≤ d) (hab : a * d = b * b) (x y : K) :
    0 ≤ a * (x * x) - 2 * b * (x * y) + d * (y * y) := by
  rcases (add_nonneg ha hd).eq_or_lt with hzero | hpos
  · have hazero : a = 0 := by linarith
    have hdzero : d = 0 := by linarith
    have hbzero : b = 0 := by
      rw [hazero, zero_mul] at hab
      exact mul_self_eq_zero.mp hab.symm
    simp [hazero, hdzero, hbzero]
  · have hmul : (a + d) * (a * (x * x) - 2 * b * (x * y) + d * (y * y)) = (a * x - b * y) ^ 2 + (d * y - b * x) ^ 2 := by
      linear_combination (x * x + y * y) * hab
    exact nonneg_of_mul_nonneg_right (hmul ▸ by positivity) hpos

/-- **No direction has more.** -/
theorem Root.along_le_top (h : c.Root s) {e : K × K} (he : Straight e) : c.along e ≤ c.top s := by
  have hform := form_nonneg (sub_nonneg.mpr h.xx_le) (sub_nonneg.mpr h.yy_le) h.char e.1 e.2
  have htop : c.top s = c.top s * (e.1 * e.1 + e.2 * e.2) := by rw [he, mul_one]
  unfold along
  linarith

/-- The direction that has it, unless the covariance is zero. -/
def major (c : Moments K) (s : K) : K × K := (c.top s - c.yy, c.xy)

theorem Root.along_major (h : c.Root s) :
    c.along (c.major s) = c.top s * ((c.major s).1 * (c.major s).1 + (c.major s).2 * (c.major s).2) := by
  have hchar := h.char
  unfold along major
  dsimp only
  linear_combination (c.top s - c.yy) * hchar * (-1)

theorem Root.top_le (h : c.Root s) : c.top s ≤ max c.xx c.yy + |c.xy| := by
  have hle : s ≤ |(c.xx - c.yy) / 2| + |c.xy| := by
    refine abs_le_of_sq_le_sq' ?_ (by positivity) |>.2
    rw [sq, h.square]
    nlinarith [abs_nonneg ((c.xx - c.yy) / 2), abs_nonneg c.xy, abs_mul_abs_self ((c.xx - c.yy) / 2), abs_mul_abs_self c.xy,
      mul_nonneg (abs_nonneg ((c.xx - c.yy) / 2)) (abs_nonneg c.xy)]
  unfold top trace
  rw [half_eq]
  rcases le_total c.xx c.yy with hxy | hxy
  · rw [max_eq_right hxy]
    rw [abs_of_nonpos (by linarith)] at hle
    linarith
  · rw [max_eq_left hxy]
    rw [abs_of_nonneg (by linarith)] at hle
    linarith

end Moments

/-- **A line through the middle is as good as any other**, but for what its direction lacks of the greatest variance. -/
theorem off_le_of_along {l : List (K × K)} (hl : l ≠ []) {s : K} (hs : (moments l).Root s) {d : K × K} (hd : Straight d)
    {ε : K} (hε : (moments l).top s - ε ≤ (moments l).along d) {e : K × K} (he : Straight e) (m : K × K) :
    avg (fun p => off (middle l) d p ^ 2) l ≤ avg (fun p => off m e p ^ 2) l + ε := by
  have hle := hs.along_le_top he
  have hmiddle : off (middle l) d (middle l) = 0 := by
    unfold off
    ring
  rw [avg_off_sq hl hd, avg_off_sq hl he, hmiddle]
  have hsq := sq_nonneg (off m e (middle l))
  linarith

end Order

end TtAiops.Lib.LineFit
