import TtAiops.Lib.Logs
import Mathlib.Data.Finmap

/-!
# Finite maps and the lists of their entries

* `insertAll`, `lookup_insertAll_iff`, `insertAll_perm` : a list put into a map one entry after the other; with distinct keys
  every entry is found, and **the order of the list does not matter**;
* `entriesBy`, `insertAll_entriesBy` : the entries in the order of a rank of their keys, which **put together are the map**;
* `mapValues`, `lookup_mapValues` : a map with its values changed.
-/

namespace TtAiops.Lib

variable {K V W O : Type*} [DecidableEq K]

def insertAll (l : List (K × V)) : Finmap fun _ : K => V := l.foldl (fun m e => m.insert e.1 e.2) ∅

@[simp] theorem insertAll_nil : insertAll ([] : List (K × V)) = ∅ := rfl

@[simp] theorem insertAll_append (l : List (K × V)) (e : K × V) : insertAll (l ++ [e]) = (insertAll l).insert e.1 e.2 :=
  List.foldl_concat ..

theorem mem_of_lookup_insertAll {l : List (K × V)} {k : K} {v : V} (h : (insertAll l).lookup k = some v) : (k, v) ∈ l := by
  induction l using List.reverseRecOn with
  | nil => exact absurd h (by simp)
  | append_singleton l e ih =>
    rw [insertAll_append] at h
    by_cases hk : k = e.1
    · subst hk
      rw [Finmap.lookup_insert] at h
      rw [← Option.some_inj.mp h]
      simp
    · rw [Finmap.lookup_insert_of_ne _ hk] at h
      exact List.mem_append_left _ (ih h)

theorem lookup_insertAll_iff {l : List (K × V)} (hl : (l.map Prod.fst).Nodup) {k : K} {v : V} :
    (insertAll l).lookup k = some v ↔ (k, v) ∈ l := by
  refine ⟨mem_of_lookup_insertAll, fun h => ?_⟩
  induction l using List.reverseRecOn with
  | nil => exact absurd h List.not_mem_nil
  | append_singleton l e ih =>
    rw [List.map_append, List.nodup_append] at hl
    rw [insertAll_append]
    rcases List.mem_append.mp h with h | h
    · have hk : k ≠ e.1 := hl.2.2 k (List.mem_map_of_mem h) e.1 (by simp)
      rw [Finmap.lookup_insert_of_ne _ hk]
      exact ih hl.1 h
    · obtain rfl := List.mem_singleton.mp h
      exact Finmap.lookup_insert _

/-- **The order of entries with distinct keys does not matter.** -/
theorem insertAll_perm {l l' : List (K × V)} (hl : (l.map Prod.fst).Nodup) (hperm : l.Perm l') :
    insertAll l = insertAll l' := by
  have hl' : (l'.map Prod.fst).Nodup := (hperm.map _).nodup_iff.mp hl
  refine Finmap.ext_lookup fun k => Option.ext fun v => ?_
  rw [lookup_insertAll_iff hl, lookup_insertAll_iff hl']
  exact hperm.mem_iff

variable [LinearOrder O] (rank : K ≃ O)

/-- The entries of a map, in the order of the ranks of their keys. -/
def entriesBy (m : Finmap fun _ : K => V) : List (K × V) :=
  (inOrder (m.keys.map rank.toEmbedding)).filterMap fun o => (m.lookup (rank.symm o)).map fun v => (rank.symm o, v)

theorem mem_entriesBy {m : Finmap fun _ : K => V} {k : K} {v : V} : (k, v) ∈ entriesBy rank m ↔ m.lookup k = some v := by
  unfold entriesBy
  rw [List.mem_filterMap]
  constructor
  · rintro ⟨o, -, hsome⟩
    obtain ⟨v', hv', heq⟩ := Option.map_eq_some_iff.mp hsome
    obtain ⟨rfl, rfl⟩ := Prod.mk.inj heq
    exact hv'
  · intro h
    refine ⟨rank k, mem_inOrder.mpr (Finset.mem_map_of_mem _ (Finmap.mem_keys.mpr ?_)), ?_⟩
    · exact Finmap.mem_of_lookup_eq_some h
    · rw [Equiv.symm_apply_apply, h]
      rfl

theorem nodup_entriesBy (m : Finmap fun _ : K => V) : ((entriesBy rank m).map Prod.fst).Nodup := by
  have hsub : ((entriesBy rank m).map Prod.fst).Sublist ((inOrder (m.keys.map rank.toEmbedding)).map rank.symm) := by
    unfold entriesBy
    generalize inOrder (m.keys.map rank.toEmbedding) = l
    induction l with
    | nil => exact List.Sublist.slnil
    | cons o l ih =>
      cases hv : m.lookup (rank.symm o) with
      | none =>
        rw [List.filterMap_cons_none (by rw [hv]; rfl), List.map_cons]
        exact ih.cons _
      | some v =>
        rw [List.filterMap_cons_some (by rw [hv]; rfl), List.map_cons, List.map_cons]
        exact ih.cons_cons _
  exact ((nodup_inOrder _).map rank.symm.injective).sublist hsub

/-- **The entries put together are the map.** -/
@[simp] theorem insertAll_entriesBy (m : Finmap fun _ : K => V) : insertAll (entriesBy rank m) = m := by
  refine Finmap.ext_lookup fun k => Option.ext fun v => ?_
  rw [lookup_insertAll_iff (nodup_entriesBy rank m), mem_entriesBy]

/-- The map with its values changed, collected entry by entry. -/
def mapValues (f : V → W) (m : Finmap fun _ : K => V) : Finmap fun _ : K => W :=
  insertAll ((entriesBy rank m).map fun e => (e.1, f e.2))

@[simp] theorem lookup_mapValues (f : V → W) (m : Finmap fun _ : K => V) (k : K) :
    (mapValues rank f m).lookup k = (m.lookup k).map f := by
  have hnodup : (((entriesBy rank m).map fun e => (e.1, f e.2)).map Prod.fst).Nodup := by
    rw [List.map_map]
    exact nodup_entriesBy rank m
  refine Option.ext fun w => ?_
  unfold mapValues
  rw [lookup_insertAll_iff hnodup, List.mem_map, Option.map_eq_some_iff]
  constructor
  · rintro ⟨e, he, heq⟩
    obtain ⟨rfl, rfl⟩ := Prod.mk.inj heq
    exact ⟨e.2, (mem_entriesBy rank).mp he, rfl⟩
  · rintro ⟨v, hv, rfl⟩
    exact ⟨(k, v), (mem_entriesBy rank).mpr hv, rfl⟩

theorem mapValues_id_of_comp {f : V → W} {g : W → V} (hgf : ∀ v, g (f v) = v) (m : Finmap fun _ : K => V) :
    mapValues rank g (mapValues rank f m) = m := by
  refine Finmap.ext_lookup fun k => ?_
  rw [lookup_mapValues, lookup_mapValues]
  cases m.lookup k with
  | none => rfl
  | some v => exact congrArg some (hgf v)

end TtAiops.Lib
