import Mathlib

/-!
# Loops that may fail

* `mapM_eq_some_iff`, `mapM_range_eq_some_iff` : a loop that makes a list has made each entry of it;
* `mapM_eq_map`, `exists_mapM`, `mapM_isSome_iff` : it is over without a failure if no turn fails;
* `foldlM_eq_ok` : a loop over a state whose turns all pass is the loop without the failures.
-/

namespace TtAiops.Lib

theorem mapM_eq_some_iff {α β : Type*} {f : α → Option β} {l : List α} {rs : List β} :
    l.mapM f = some rs ↔ List.Forall₂ (fun a r => f a = some r) l rs := by
  induction l generalizing rs with
  | nil => cases rs <;> simp
  | cons a l ih =>
    rw [List.mapM_cons, Option.bind_eq_bind, Option.bind_eq_some_iff]
    cases rs with
    | nil => simp [Option.bind_eq_some_iff]
    | cons r rs =>
      rw [List.forall₂_cons, ← ih]
      simp [Option.bind_eq_some_iff]

theorem mapM_range_eq_some_iff {β : Type*} {f : ℕ → Option β} {n : ℕ} {rs : List β} :
    (List.range n).mapM f = some rs ↔ rs.length = n ∧ ∀ i (h : i < rs.length), f i = some rs[i] := by
  rw [mapM_eq_some_iff, List.forall₂_iff_get]
  simp only [List.length_range, List.get_eq_getElem, List.getElem_range]
  refine ⟨fun ⟨hlen, hget⟩ => ⟨hlen.symm, fun i h => hget i (hlen ▸ h) h⟩, fun ⟨hlen, hget⟩ => ?_⟩
  exact ⟨hlen.symm, fun i _ h => hget i h⟩

theorem mapM_eq_map {α β : Type*} {f : α → Option β} {g : α → β} {l : List α} (h : ∀ a ∈ l, f a = some (g a)) :
    l.mapM f = some (l.map g) := by
  rw [mapM_eq_some_iff, List.forall₂_map_right_iff, List.forall₂_same]
  exact h

theorem exists_mapM {α β : Type*} {f : α → Option β} {l : List α} (h : ∀ a ∈ l, ∃ r, f a = some r) :
    ∃ rs, l.mapM f = some rs := by
  induction l with
  | nil => exact ⟨[], rfl⟩
  | cons a l ih =>
    obtain ⟨r, hr⟩ := h a List.mem_cons_self
    obtain ⟨rs, hrs⟩ := ih fun b hb => h b (List.mem_cons_of_mem a hb)
    exact ⟨r :: rs, by simp [List.mapM_cons, hr, hrs]⟩

theorem mapM_isSome_iff {α β : Type*} {f : α → Option β} {l : List α} :
    (l.mapM f).isSome ↔ ∀ a ∈ l, (f a).isSome := by
  constructor
  · intro h a ha
    obtain ⟨rs, hrs⟩ := Option.isSome_iff_exists.mp h
    obtain ⟨i, hi, rfl⟩ := List.getElem_of_mem ha
    have hall := List.forall₂_iff_get.mp (mapM_eq_some_iff.mp hrs)
    exact Option.isSome_of_eq_some (hall.2 i hi (hall.1 ▸ hi))
  · intro h
    obtain ⟨rs, hrs⟩ := exists_mapM fun a ha => Option.isSome_iff_exists.mp (h a ha)
    rw [hrs]
    rfl

theorem foldlM_eq_ok {ε σ α : Type*} {f : σ → α → Except ε σ} {g : σ → α → σ} {l : List α} {s : σ}
    (h : ∀ k (hk : k < l.length), f ((l.take k).foldl g s) l[k] = .ok (g ((l.take k).foldl g s) l[k])) :
    l.foldlM f s = .ok (l.foldl g s) := by
  induction l generalizing s with
  | nil => rfl
  | cons a l ih =>
    have hhead : f s a = .ok (g s a) := h 0 (Nat.succ_pos _)
    have htail : l.foldlM f (g s a) = .ok (l.foldl g (g s a)) := ih fun k hk => h (k + 1) (Nat.succ_lt_succ hk)
    rw [List.foldlM_cons, hhead]
    exact htail

end TtAiops.Lib
