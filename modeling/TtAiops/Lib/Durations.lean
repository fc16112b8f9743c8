import Mathlib

/-!
# Durations

A time span cut at the times of a list, and its parts rounded to whole numbers one by one.

* `gaps`, `sum_gaps` : the steps from each time to the next add up to the way from the first to the last;
* `roundAway`, `roundEven` : to the nearest whole number, the middle away from zero or to the even side;
* `upAway`, `upEven`, `carry` : the numbers that are rounded up, one more than their floor;
* `sum_rounded_iff` : **rounded parts add up to the rounded whole iff as many are rounded up as the fractions carry.**
-/

namespace TtAiops.Lib

section gaps
variable {α M : Type*}

/-- Each entry of a list with the one after it. -/
def gaps (l : List α) : List (α × α) := l.zip l.tail

@[simp] theorem gaps_nil : gaps ([] : List α) = [] := rfl

@[simp] theorem gaps_singleton (a : α) : gaps [a] = [] := rfl

@[simp] theorem gaps_cons_cons (a b : α) (l : List α) : gaps (a :: b :: l) = (a, b) :: gaps (b :: l) := rfl

/-- The steps along the list lead from the first entry to the last. -/
theorem sum_gaps [AddCommGroup M] (f : α → M) (a : α) (l : List α) :
    ((gaps (a :: l)).map fun p => f p.2 - f p.1).sum = f ((a :: l).getLast (by simp)) - f a := by
  induction l generalizing a with
  | nil => simp
  | cons b l ih =>
    rw [gaps_cons_cons, List.map_cons, List.sum_cons, ih b, List.getLast_cons_cons]
    abel

theorem le_of_mem_gaps {r : α → α → Prop} {l : List α} (h : l.Pairwise r) {p : α × α} (hp : p ∈ gaps l) : r p.1 p.2 := by
  induction l with
  | nil => simp at hp
  | cons a l ih =>
    cases l with
    | nil => simp at hp
    | cons b l =>
      rw [gaps_cons_cons, List.mem_cons] at hp
      obtain rfl | hp := hp
      · exact List.rel_of_pairwise_cons h (by simp)
      · exact ih h.of_cons hp

/-- Parts that are left out because they are nothing do not change the sum. -/
theorem sum_filter_of_zero [AddCommMonoid M] (p : α → Prop) [DecidablePred p] (f : α → M) (l : List α)
    (h : ∀ a ∈ l, ¬ p a → f a = 0) : ((l.filter (p ·)).map f).sum = (l.map f).sum := by
  induction l with
  | nil => rfl
  | cons a l ih =>
    have hl := ih fun b hb => h b (List.mem_cons_of_mem a hb)
    by_cases hp : p a
    · simp [hp, hl]
    · simp [hp, hl, h a List.mem_cons_self hp]

end gaps

section rounding
variable {K : Type*} [Field K] [LinearOrder K] [IsStrictOrderedRing K] [FloorRing K]

/-- To the nearest whole number, away from zero in the middle. -/
def roundAway (x : K) : ℤ := if 0 ≤ x then ⌊x + 1 / 2⌋ else -⌊-x + 1 / 2⌋

/-- To the nearest whole number, to the even one in the middle. -/
def roundEven (x : K) : ℤ :=
  if Int.fract x < 1 / 2 then ⌊x⌋
  else if 1 / 2 < Int.fract x then ⌊x⌋ + 1
  else if Even ⌊x⌋ then ⌊x⌋ else ⌊x⌋ + 1

def upAway (x : K) : Prop := 1 / 2 ≤ Int.fract x

/-- The number ends in more than a half, or in a half behind an odd number. -/
def upEven (x : K) : Prop := 1 / 2 < Int.fract x ∨ Int.fract x = 1 / 2 ∧ ¬ Even ⌊x⌋

instance (x : K) : Decidable (upAway x) := inferInstanceAs (Decidable (_ ≤ _))

instance (x : K) : Decidable (upEven x) := inferInstanceAs (Decidable (_ ∨ _))

@[simp] theorem roundAway_zero : roundAway (0 : K) = 0 := by
  have h : ⌊(1 / 2 : K)⌋ = 0 := Int.floor_eq_zero_iff.mpr ⟨by norm_num, by norm_num⟩
  rw [roundAway, if_pos le_rfl, zero_add, h]

@[simp] theorem roundEven_zero : roundEven (0 : K) = 0 := by simp [roundEven]

/-- What rounding adds to the floor. -/
def carry (up : Prop) [Decidable up] : ℤ := if up then 1 else 0

theorem carry_nonneg (up : Prop) [Decidable up] : 0 ≤ carry up := by
  unfold carry
  split <;> omega

theorem floor_add_half (x : K) : ⌊x + 1 / 2⌋ = ⌊x⌋ + carry (upAway x) := by
  have hlt := Int.fract_lt_one x
  have hnonneg := Int.fract_nonneg x
  have hfloor := Int.floor_add_fract x
  apply Int.floor_eq_iff.mpr
  by_cases h : upAway x
  · rw [carry, if_pos h]
    unfold upAway at h
    push_cast
    constructor <;> linarith
  · rw [carry, if_neg h]
    unfold upAway at h
    push_cast
    constructor <;> linarith

theorem roundAway_of_nonneg {x : K} (h : 0 ≤ x) : roundAway x = ⌊x⌋ + carry (upAway x) := by
  rw [roundAway, if_pos h, floor_add_half]

omit [IsStrictOrderedRing K] in
theorem roundEven_eq (x : K) : roundEven x = ⌊x⌋ + carry (upEven x) := by
  unfold roundEven
  by_cases hlt : Int.fract x < 1 / 2
  · have hup : ¬ upEven x := not_or.mpr ⟨hlt.le.not_gt, fun h => hlt.ne h.1⟩
    rw [if_pos hlt, carry, if_neg hup, add_zero]
  · rw [if_neg hlt]
    by_cases hgt : 1 / 2 < Int.fract x
    · have hup : upEven x := Or.inl hgt
      rw [if_pos hgt, carry, if_pos hup]
    · have heq : Int.fract x = 1 / 2 := le_antisymm (not_lt.mp hgt) (not_lt.mp hlt)
      rw [if_neg hgt]
      by_cases heven : Even ⌊x⌋
      · have hup : ¬ upEven x := not_or.mpr ⟨hgt, fun h => h.2 heven⟩
        rw [if_pos heven, carry, if_neg hup, add_zero]
      · have hup : upEven x := Or.inr ⟨heq, heven⟩
        rw [if_neg heven, carry, if_pos hup]

/-- The fractions of the parts, added up, carry as many whole numbers as parts are rounded up. -/
def FractionsCarry (parts : List (K × ℤ)) : Prop :=
  ⌊(parts.map fun p => Int.fract p.1).sum + 1 / 2⌋ = (parts.map Prod.snd).sum

instance (parts : List (K × ℤ)) : Decidable (FractionsCarry parts) := inferInstanceAs (Decidable (_ = _))

theorem sum_floor_add_fract (parts : List (K × ℤ)) :
    (parts.map Prod.fst).sum = ((parts.map fun p => ⌊p.1⌋).sum : ℤ) + (parts.map fun p => Int.fract p.1).sum := by
  induction parts with
  | nil => simp
  | cons p parts ih =>
    simp only [List.map_cons, List.sum_cons, Int.cast_add, ih]
    linear_combination -Int.floor_add_fract p.1

/-- Rounded parts, each a floor and what is carried, add up to the rounded whole iff the fractions carry that much. -/
theorem sum_rounded_iff {parts : List (K × ℤ)} (h : 0 ≤ (parts.map Prod.fst).sum) :
    (parts.map fun p => ⌊p.1⌋ + p.2).sum = roundAway (parts.map Prod.fst).sum ↔ FractionsCarry parts := by
  have hsplit : (parts.map fun p => ⌊p.1⌋ + p.2).sum = (parts.map fun p => ⌊p.1⌋).sum + (parts.map Prod.snd).sum :=
    List.sum_map_add
  rw [roundAway, if_pos h, sum_floor_add_fract, add_assoc, Int.floor_intCast_add, hsplit, FractionsCarry]
  omega

end rounding

end TtAiops.Lib
