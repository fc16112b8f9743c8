import Mathlib

/-!
# Rings

A list that is written round and round has the latest values, the last of them at a place `idx`.

* `back` : the place of an earlier value;
* `Holds` : the values of a ring, from the last one back;
* `Holds.push`, `Holds.set` : the next value overwrites the earliest one, and the last can be changed;
* `Holds.getElem?_forward` : read from the place behind the last on, the values come from the earliest to the last.
-/

namespace TtAiops.Lib

/-- The place of the value that came `k` before the one at `idx`. -/
def back (n idx k : ℕ) : ℕ := (idx + (n - k)) % n

section back
variable {n idx k : ℕ}

theorem back_eq (hidx : idx < n) (hk : k < n) : back n idx k = if k ≤ idx then idx - k else idx + n - k := by
  unfold back
  split_ifs with h
  · rw [show idx + (n - k) = idx - k + n by omega, Nat.add_mod_right, Nat.mod_eq_of_lt (by omega)]
  · rw [Nat.mod_eq_of_lt (by omega)]
    omega

theorem next_eq (hidx : idx < n) : (idx + 1) % n = if idx + 1 = n then 0 else idx + 1 := by
  split_ifs with h
  · rw [h, Nat.mod_self]
  · exact Nat.mod_eq_of_lt (by omega)

theorem back_zero (hidx : idx < n) : back n idx 0 = idx := by
  rw [back_eq hidx (by omega)]
  simp

theorem back_lt (hidx : idx < n) : back n idx k < n := Nat.mod_lt _ (by omega)

theorem back_next (hidx : idx < n) (hk : k + 1 < n) : back n ((idx + 1) % n) (k + 1) = back n idx k := by
  rw [back_eq (Nat.mod_lt _ (by omega)) hk, back_eq hidx (by omega), next_eq hidx]
  split_ifs <;> omega

theorem back_ne (hidx : idx < n) (hk : k + 1 < n) : back n idx (k + 1) ≠ idx := by
  rw [back_eq hidx hk]
  split_ifs <;> omega

end back

section Holds
variable {α : Type*}

/-- The values of the ring `buf` from the one at `idx` back. -/
structure Holds (buf : List α) (idx : ℕ) (f : ℕ → α) : Prop where
  lt : idx < buf.length
  get : ∀ k < buf.length, buf[back buf.length idx k]? = some (f k)

variable {buf : List α} {idx : ℕ} {f g : ℕ → α}

theorem Holds.congr (h : Holds buf idx f) (hfg : ∀ k < buf.length, f k = g k) : Holds buf idx g :=
  ⟨h.lt, fun k hk => hfg k hk ▸ h.get k hk⟩

theorem Holds.push (h : Holds buf idx f) (x : α) (hg : ∀ k, k + 1 < buf.length → g (k + 1) = f k) (h0 : g 0 = x) :
    Holds (buf.set ((idx + 1) % buf.length) x) ((idx + 1) % buf.length) g := by
  have hlt := h.lt
  have hnext : (idx + 1) % buf.length < buf.length := Nat.mod_lt _ (by omega)
  refine ⟨by rwa [List.length_set], fun k hk => ?_⟩
  rw [List.length_set] at hk ⊢
  cases k with
  | zero => rw [back_zero hnext, List.getElem?_set_self hnext, h0]
  | succ k =>
    rw [List.getElem?_set_ne (back_ne hnext hk).symm, back_next hlt hk, h.get k (by omega), hg k hk]

theorem Holds.set (h : Holds buf idx f) (x : α) (hg : ∀ k, k + 1 < buf.length → g (k + 1) = f (k + 1)) (h0 : g 0 = x) :
    Holds (buf.set idx x) idx g := by
  have hlt := h.lt
  refine ⟨by rwa [List.length_set], fun k hk => ?_⟩
  rw [List.length_set] at hk ⊢
  cases k with
  | zero => rw [back_zero hlt, List.getElem?_set_self hlt, h0]
  | succ k => rw [List.getElem?_set_ne (back_ne hlt hk).symm, h.get (k + 1) hk, hg k hk]

theorem Holds.getElem?_last (h : Holds buf idx f) : buf[idx]? = some (f 0) := by
  have hlt := h.lt
  have hget := h.get 0 (by omega)
  rwa [back_zero hlt] at hget

/-- **The values from the earliest on**, the last one at the end. -/
theorem Holds.getElem?_forward (h : Holds buf idx f) {j : ℕ} (hj : 1 ≤ j) (hjn : j ≤ buf.length) :
    buf[(idx + j) % buf.length]? = some (f (buf.length - j)) := by
  have hget := h.get (buf.length - j) (by omega)
  rwa [back, Nat.sub_sub_self hjn] at hget

end Holds

end TtAiops.Lib
