import Mathlib

/-!
# Decimal numerals of a fixed width

* `digits`, `value` : the last digits of a number, and the number of some digits;
* `value_digits`, `value_lt` : a numeral is read back, and what is read is as short as its digits;
* `digits_add` : numerals side by side are a numeral;
* `digits_lt_digits` : **numerals of one width are in the order of their numbers**.
-/

namespace TtAiops.Lib.Decimals

def digitChar (d : ℕ) : Char := Char.ofNat (48 + d % 10)

def isDigit (c : Char) : Bool := 48 ≤ c.toNat && c.toNat ≤ 57

/-- The last `w` digits of a number. -/
def digits : ℕ → ℕ → List Char
  | 0, _ => []
  | w + 1, n => digitChar (n / 10 ^ w) :: digits w n

def value (s : List Char) : ℕ := s.foldl (fun v c => 10 * v + (c.toNat - 48)) 0

theorem digitChar_toNat (d : ℕ) : (digitChar d).toNat = 48 + d % 10 := by
  have hlt : d % 10 < 10 := Nat.mod_lt d (by decide)
  unfold digitChar
  interval_cases d % 10 <;> rfl

theorem digitChar_lt {a b : ℕ} : digitChar a < digitChar b ↔ a % 10 < b % 10 := by
  show (digitChar a).toNat < (digitChar b).toNat ↔ _
  rw [digitChar_toNat, digitChar_toNat]
  omega

theorem digitChar_inj {a b : ℕ} : digitChar a = digitChar b ↔ a % 10 = b % 10 := by
  rw [← Char.toNat_inj, digitChar_toNat, digitChar_toNat]
  omega

@[simp] theorem length_digits (w n : ℕ) : (digits w n).length = w := by
  induction w with
  | zero => rfl
  | succ w ih => rw [digits, List.length_cons, ih]

theorem isDigit_of_mem {w n : ℕ} : ∀ c ∈ digits w n, isDigit c := by
  induction w with
  | zero => exact fun c hc => absurd hc List.not_mem_nil
  | succ w ih =>
    intro c hc
    rcases List.mem_cons.mp hc with rfl | hc
    · simp only [isDigit, digitChar_toNat, Bool.and_eq_true, decide_eq_true_eq]
      omega
    · exact ih c hc

theorem foldl_value (s : List Char) (v : ℕ) :
    s.foldl (fun v c => 10 * v + (c.toNat - 48)) v = v * 10 ^ s.length + value s := by
  induction s generalizing v with
  | nil => simp [value]
  | cons c s ih =>
    rw [List.foldl_cons, value, List.foldl_cons, ih, ih (10 * 0 + _), List.length_cons, pow_succ]
    ring

theorem value_cons (c : Char) (s : List Char) : value (c :: s) = (c.toNat - 48) * 10 ^ s.length + value s := by
  rw [value, List.foldl_cons, foldl_value]
  simp

/-- **A number of at most `w` digits is read back.** -/
theorem value_digits {w n : ℕ} : value (digits w n) = n % 10 ^ w := by
  induction w with
  | zero => simp [digits, value, Nat.mod_one]
  | succ w ih =>
    rw [digits, value_cons, digitChar_toNat, length_digits, ih, Nat.add_sub_cancel_left, pow_succ, Nat.mod_mul]
    ring

theorem value_lt {s : List Char} (h : ∀ c ∈ s, isDigit c) : value s < 10 ^ s.length := by
  induction s with
  | nil => simp [value]
  | cons c s ih =>
    have hs := ih fun c' hc' => h c' (List.mem_cons_of_mem c hc')
    have hc := h c List.mem_cons_self
    simp only [isDigit, Bool.and_eq_true, decide_eq_true_eq] at hc
    have hdigit : c.toNat - 48 ≤ 9 := by omega
    rw [value_cons, List.length_cons, pow_succ]
    have hmul := Nat.mul_le_mul_right (10 ^ s.length) hdigit
    omega

theorem digits_mod {w k : ℕ} (n : ℕ) (h : w ≤ k) : digits w (n % 10 ^ k) = digits w n := by
  induction w with
  | zero => rfl
  | succ w ih =>
    rw [digits, digits, ih (by omega)]
    congr 1
    rw [digitChar_inj, show k = w + (k - w) by omega, pow_add, Nat.mod_mul_right_div_self]
    exact Nat.mod_mod_of_dvd _ (dvd_pow_self 10 (by omega))

theorem digits_add (a b : ℕ) {n m : ℕ} (hm : m < 10 ^ b) : digits (a + b) (n * 10 ^ b + m) = digits a n ++ digits b m := by
  induction a with
  | zero =>
    have hmod : (n * 10 ^ b + m) % 10 ^ b = m := by rw [Nat.mul_add_mod', Nat.mod_eq_of_lt hm]
    rw [zero_add, ← digits_mod _ le_rfl, hmod]
    rfl
  | succ a ih =>
    rw [show a + 1 + b = a + b + 1 by ring, digits, ih, digits, List.cons_append]
    congr 2
    rw [add_comm a b, pow_add, ← Nat.div_div_eq_div_mul, mul_comm n, Nat.mul_add_div (by positivity), Nat.div_eq_of_lt hm,
      add_zero]

/-- **Numerals of one width are in the order of their numbers.** -/
theorem digits_lt_digits {w n m : ℕ} : digits w n < digits w m ↔ n % 10 ^ w < m % 10 ^ w := by
  induction w with
  | zero => simp [digits, Nat.mod_one]
  | succ w ih =>
    rw [digits, digits, List.cons_lt_cons_iff, ih, digitChar_lt, digitChar_inj, pow_succ, Nat.mod_mul, Nat.mod_mul]
    have hn := Nat.mod_lt n (show 0 < 10 ^ w by positivity)
    have hm := Nat.mod_lt m (show 0 < 10 ^ w by positivity)
    generalize n / 10 ^ w % 10 = a, m / 10 ^ w % 10 = b at *
    generalize n % 10 ^ w = x, m % 10 ^ w = y, 10 ^ w = p at *
    rcases lt_trichotomy a b with hab | rfl | hab
    · have := Nat.mul_le_mul_left p (Nat.succ_le_of_lt hab)
      rw [Nat.mul_succ] at this
      exact iff_of_true (Or.inl hab) (by omega)
    · simp
    · have := Nat.mul_le_mul_left p (Nat.succ_le_of_lt hab)
      rw [Nat.mul_succ] at this
      exact iff_of_false (by omega) (by omega)

end TtAiops.Lib.Decimals
