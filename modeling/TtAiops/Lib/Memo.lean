import Mathlib.Data.List.AList
import Mathlib.Tactic.Common

/-!
# Answers that are kept under a key

A query looks its key up, and only if there is no answer under it one is made and kept. Several queries may have one key.

* `memo` : the lookup, and the answer made for the query that comes first;
* `Made` : every answer kept is the one for a query that was asked;
* `memo_spec` : **an answer is the one for a query with the same key, this one or one asked before**.
-/

namespace TtAiops.Lib

variable {κ Q A : Type} [DecidableEq κ]

/-- The answer under the key, or the one that is made and kept; making it may fail. -/
def memo (cache : AList fun _ : κ => A) (k : κ) (make : Option A) : Option (A × AList fun _ : κ => A) :=
  match cache.lookup k with
  | some a => some (a, cache)
  | none => make.map fun a => (a, cache.insert k a)

/-- Every answer kept is the one for a query that was asked. -/
def Made (key : Q → κ) (f : Q → Option A) (asked : Q → Prop) (cache : AList fun _ : κ => A) : Prop :=
  ∀ k a, cache.lookup k = some a → ∃ q, asked q ∧ key q = k ∧ f q = some a

variable {key : Q → κ} {f : Q → Option A} {asked asked' : Q → Prop} {cache : AList fun _ : κ => A}

theorem made_empty : Made key f asked ∅ := fun k a h => absurd h (by rw [AList.lookup_empty]; simp)

theorem Made.mono (h : Made key f asked cache) (hle : ∀ q, asked q → asked' q) : Made key f asked' cache := by
  intro k a hlook
  obtain ⟨q, hq, hkey, hf⟩ := h k a hlook
  exact ⟨q, hle q hq, hkey, hf⟩

theorem Made.insert (h : Made key f asked cache) {q : Q} {a : A} (hq : asked q) (hf : f q = some a) :
    Made key f asked (cache.insert (key q) a) := by
  intro k a' hlook
  by_cases hk : k = key q
  · subst hk
    rw [AList.lookup_insert] at hlook
    exact ⟨q, hq, rfl, hf.trans hlook⟩
  · rw [AList.lookup_insert_ne hk] at hlook
    exact h k a' hlook

/-- **What a query is answered**: the answer for a query with its key that was asked, and all answers kept are such. -/
theorem memo_spec (h : Made key f asked cache) {q : Q} (hq : asked q) (hf : (f q).isSome) :
    ∃ a cache', memo cache (key q) (f q) = some (a, cache') ∧ Made key f asked cache' ∧
      ∃ q', asked q' ∧ key q' = key q ∧ f q' = some a := by
  unfold memo
  cases hlook : cache.lookup (key q) with
  | some a => exact ⟨a, cache, rfl, h, h (key q) a hlook⟩
  | none =>
    obtain ⟨a, ha⟩ := Option.isSome_iff_exists.mp hf
    exact ⟨a, cache.insert (key q) a, by rw [ha]; rfl, h.insert hq ha, q, hq, rfl, ha⟩

end TtAiops.Lib
