import Mathlib

/-!
# Machine integers

Integers stand for those of a fixed width wherever nothing leaves the width; here are the bounds and the casts.

* `i64Max`, `InI64` : what fits into 64 bits;
* `u64AsI64`, `asI32` : the casts that wrap;
* `truncate`, `f64AsI64` : the cast of a fraction, towards zero, and no further than the bounds.
-/

namespace TtAiops.Lib

def i64Max : ℤ := 9223372036854775807

/-- A number that fits into 64 bits. -/
abbrev InI64 (x : ℤ) : Prop := -9223372036854775808 ≤ x ∧ x ≤ 9223372036854775807

/-- `as i64`, of a `u64`. -/
def u64AsI64 (n : ℕ) : ℤ := (n : ℤ).bmod 18446744073709551616

def asI32 (v : ℤ) : ℤ := (v + 2 ^ 31) % 2 ^ 32 - 2 ^ 31

/-- `as i64`, of an `f64` in range: towards zero. -/
def truncate (x : ℚ) : ℤ := if 0 ≤ x then ⌊x⌋ else ⌈x⌉

/-- `as i64`, of any `f64`. -/
def f64AsI64 (x : ℚ) : ℤ := max (-9223372036854775808) (min i64Max (truncate x))

theorem toNat_u64AsI64 {n : ℕ} (h : n < 2 ^ 63) : (u64AsI64 n).toNat = n := by
  unfold u64AsI64 Int.bmod
  dsimp only
  split_ifs <;> omega

@[simp] theorem truncate_zero : truncate 0 = 0 := rfl

theorem truncate_nonneg {x : ℚ} (h : 0 ≤ x) : 0 ≤ truncate x := by
  unfold truncate
  rw [if_pos h]
  exact Int.floor_nonneg.mpr h

theorem truncate_mono : Monotone truncate := by
  intro x y hxy
  unfold truncate
  split_ifs with hx hy
  · exact Int.floor_mono hxy
  · exact absurd (hx.trans hxy) hy
  · calc ⌈x⌉ ≤ 0 := Int.ceil_le.mpr (by push_cast; linarith)
      _ ≤ ⌊y⌋ := Int.floor_nonneg.mpr ‹_›
  · exact Int.ceil_mono hxy

theorem f64AsI64_mono : Monotone f64AsI64 := fun _ _ hxy =>
  max_le_max le_rfl (min_le_min le_rfl (truncate_mono hxy))

theorem f64AsI64_nonneg {x : ℚ} (h : 0 ≤ x) : 0 ≤ f64AsI64 x :=
  le_max_of_le_right (le_min (by decide) (truncate_nonneg h))

end TtAiops.Lib
