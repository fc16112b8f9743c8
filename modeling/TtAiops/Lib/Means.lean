import TtAiops.Lib.Durations

/-!
# Rounding and weighted means

* `sum_map_filter`, `sum_map_parts` : sums that leave out zeros, and sums of parts;
* `abs_roundAway_sub_le`, `roundAway_intCast` : rounding to a whole number moves by a half at most, and a whole number not;
* `abs_sum_sub_le` : sums are as far apart as their terms allow;
* `abs_mean_sub_le` : **a mean of rounded parts is as near to the mean as the parts are to theirs**, whatever the weights.
-/

namespace TtAiops.Lib

section sums
variable {ι M : Type*} [AddCommMonoid M] {l : List ι}

theorem sum_map_filter {p : ι → Prop} [DecidablePred p] {f : ι → M} (hf : ∀ a ∈ l, ¬ p a → f a = 0) :
    ((l.filter fun a => p a).map f).sum = (l.map f).sum := by
  induction l with
  | nil => rfl
  | cons a l ih =>
    have hl := ih fun b hb => hf b (List.mem_cons_of_mem a hb)
    by_cases hp : p a
    · simp [hp, hl]
    · simp [hp, hl, hf a List.mem_cons_self hp]

theorem sum_map_parts {R : Type*} {rows : List R} {part : ι → List R} (g : R → M) (h : rows.Perm (l.flatMap part)) :
    (rows.map g).sum = (l.map fun a => ((part a).map g).sum).sum := by
  rw [(h.map g).sum_eq, List.map_flatMap, List.flatMap, List.sum_flatten, List.map_map]
  rfl

end sums

variable {K : Type*} [Field K] [LinearOrder K] [IsStrictOrderedRing K]

section rounding
variable [FloorRing K]

theorem roundAway_intCast (z : ℤ) : roundAway (z : K) = z := by
  have half : ⌊(1 / 2 : K)⌋ = 0 := Int.floor_eq_zero_iff.mpr ⟨by norm_num, by norm_num⟩
  have whole : ∀ y : ℤ, ⌊(y : K) + 1 / 2⌋ = y := fun y => by rw [Int.floor_intCast_add, half, add_zero]
  unfold roundAway
  split
  · exact whole z
  · rw [← Int.cast_neg, whole, neg_neg]

theorem abs_roundAway_sub_le (x : K) : |(roundAway x : K) - x| ≤ 1 / 2 := by
  have near : ∀ y : K, |(⌊y + 1 / 2⌋ : K) - y| ≤ 1 / 2 := by
    intro y
    have hle := Int.floor_le (y + 1 / 2)
    have hlt := Int.lt_floor_add_one (y + 1 / 2)
    rw [abs_le]
    constructor <;> linarith
  unfold roundAway
  split
  · exact near x
  · have h := near (-x)
    rw [← abs_neg]
    push_cast
    rwa [neg_sub', sub_neg_eq_add, neg_neg, ← sub_neg_eq_add]

end rounding

section means
variable {ι : Type*} {l : List ι}

theorem abs_sum_sub_le {f g h : ι → K} (hfg : ∀ a ∈ l, |f a - g a| ≤ h a) :
    |(l.map f).sum - (l.map g).sum| ≤ (l.map h).sum := by
  induction l with
  | nil => simp
  | cons a l ih =>
    have ha := hfg a List.mem_cons_self
    have hl := ih fun b hb => hfg b (List.mem_cons_of_mem a hb)
    simp only [List.map_cons, List.sum_cons]
    calc |f a + (l.map f).sum - (g a + (l.map g).sum)| = |(f a - g a) + ((l.map f).sum - (l.map g).sum)| := by ring_nf
      _ ≤ |f a - g a| + |(l.map f).sum - (l.map g).sum| := abs_add_le _ _
      _ ≤ h a + (l.map h).sum := add_le_add ha hl

/-- **The mean of the parts.** The parts `v` are means rounded: with their weights they miss their numerators by no more than
`ε` for each unit of weight. Then so does their weighted mean. -/
theorem abs_mean_sub_le {v d n : ι → K} {ε : K} (hd : 0 < (l.map d).sum) (h : ∀ a ∈ l, |v a * d a - n a| ≤ ε * d a) :
    |(l.map fun a => v a * d a).sum / (l.map d).sum - (l.map n).sum / (l.map d).sum| ≤ ε := by
  rw [← sub_div, abs_div, abs_of_pos hd, div_le_iff₀ hd, ← List.sum_map_mul_left]
  exact abs_sum_sub_le h

end means

end TtAiops.Lib
