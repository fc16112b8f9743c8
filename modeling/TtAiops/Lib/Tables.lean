import Mathlib

/-!
# Tables with a key

* `upsert`, `mem_upsert`, `nodup_upsert` : a row put in the place of the one with its key, if there is one;
* `current` : the rows after a list of changes, each with the whole row as it is after the change;
* `length_upsert_of_mem`, `length_upsert_of_not_mem` : it takes a row more only for a new key;
* `mem_foldl_upsert`, `mem_current_append`, `mem_current_iff`, `exists_current` : for every key the last change decides;
* `exists_current_le` : with changes in the order of a rank, the row of a key is of no lower rank than any change of it.
-/

namespace TtAiops.Lib

variable {R κ : Type*} [DecidableEq κ] (key : R → κ)

/-- `r` in the place of the row with its key. -/
def upsert (t : List R) (r : R) : List R := t.filter (fun r' => key r' ≠ key r) ++ [r]

def current (changes : List R) : List R := changes.foldl (upsert key) []

variable {key}

theorem mem_upsert {t : List R} {r r' : R} : r' ∈ upsert key t r ↔ r' = r ∨ (r' ∈ t ∧ key r' ≠ key r) := by
  unfold upsert
  rw [List.mem_append, List.mem_filter, List.mem_singleton, decide_eq_true_iff, or_comm]

theorem nodup_upsert {t : List R} (h : (t.map key).Nodup) (r : R) : ((upsert key t r).map key).Nodup := by
  unfold upsert
  rw [List.map_append]
  refine List.Nodup.append (h.sublist (List.filter_sublist.map key)) (List.nodup_singleton _) ?_
  intro k hk hk'
  obtain ⟨r', hr', rfl⟩ := List.mem_map.mp hk
  exact of_decide_eq_true (List.mem_filter.mp hr').2 (List.mem_singleton.mp hk')

theorem length_upsert_of_not_mem {t : List R} {r : R} (h : ∀ r' ∈ t, key r' ≠ key r) :
    (upsert key t r).length = t.length + 1 := by
  unfold upsert
  rw [List.filter_eq_self.mpr fun r' hr' => decide_eq_true (h r' hr'), List.length_append, List.length_singleton]

theorem length_upsert_of_mem {t : List R} (h : (t.map key).Nodup) {r : R} (hr : ∃ r' ∈ t, key r' = key r) :
    (upsert key t r).length = t.length := by
  induction t with
  | nil =>
    obtain ⟨r', hr', -⟩ := hr
    exact absurd hr' List.not_mem_nil
  | cons x t ih =>
    rw [List.map_cons, List.nodup_cons] at h
    by_cases hx : key x = key r
    · -- no other row has the key
      have hrest : ∀ r' ∈ t, key r' ≠ key r := fun r' hr' hkey => h.1 (List.mem_map.mpr ⟨r', hr', hkey.trans hx.symm⟩)
      have hdrop : upsert key (x :: t) r = upsert key t r := by
        unfold upsert
        rw [List.filter_cons_of_neg (by simp [hx])]
      rw [hdrop, length_upsert_of_not_mem hrest, List.length_cons]
    · have hex : ∃ r' ∈ t, key r' = key r := by
        obtain ⟨r', hr', hkey⟩ := hr
        rcases List.mem_cons.mp hr' with rfl | hr'
        · exact absurd hkey hx
        · exact ⟨r', hr', hkey⟩
      have hkeep : upsert key (x :: t) r = x :: upsert key t r := by
        unfold upsert
        rw [List.filter_cons_of_pos (by simp [hx]), List.cons_append]
      rw [hkeep, List.length_cons, List.length_cons, ih h.2 hex]

theorem current_append_singleton (l : List R) (r : R) : current key (l ++ [r]) = upsert key (current key l) r := by
  unfold current
  rw [List.foldl_append]
  rfl

theorem nodup_current (l : List R) : ((current key l).map key).Nodup := by
  induction l using List.reverseRecOn with
  | nil => exact List.nodup_nil
  | append_singleton l r ih =>
    rw [current_append_singleton]
    exact nodup_upsert ih r

/-- **For every key the last change decides**, whatever the table was before. -/
theorem mem_foldl_upsert {t l : List R} {r : R} :
    r ∈ l.foldl (upsert key) t ↔ r ∈ current key l ∨ (r ∈ t ∧ ∀ r' ∈ l, key r' ≠ key r) := by
  induction l using List.reverseRecOn with
  | nil => simp [current]
  | append_singleton l x ih =>
    rw [List.foldl_concat, current_append_singleton, mem_upsert, mem_upsert, ih]
    constructor
    · rintro (rfl | ⟨hl | ⟨ht, hno⟩, hne⟩)
      · exact Or.inl (Or.inl rfl)
      · exact Or.inl (Or.inr ⟨hl, hne⟩)
      · refine Or.inr ⟨ht, fun r' hr' => ?_⟩
        rcases List.mem_append.mp hr' with hr' | hr'
        · exact hno r' hr'
        · rw [List.mem_singleton.mp hr']
          exact Ne.symm hne
    · rintro ((rfl | ⟨hl, hne⟩) | ⟨ht, hno⟩)
      · exact Or.inl rfl
      · exact Or.inr ⟨Or.inl hl, hne⟩
      · have hne : key x ≠ key r := hno x (by simp)
        exact Or.inr ⟨Or.inr ⟨ht, fun r' hr' => hno r' (List.mem_append_left _ hr')⟩, hne.symm⟩

theorem mem_current_append {l l' : List R} {r : R} :
    r ∈ current key (l ++ l') ↔ r ∈ current key l' ∨ (r ∈ current key l ∧ ∀ r' ∈ l', key r' ≠ key r) := by
  have happend : current key (l ++ l') = l'.foldl (upsert key) (current key l) := List.foldl_append
  rw [happend, mem_foldl_upsert]

theorem mem_of_mem_current {l : List R} {r : R} (h : r ∈ current key l) : r ∈ l := by
  induction l using List.reverseRecOn with
  | nil => exact absurd h List.not_mem_nil
  | append_singleton l x ih =>
    rw [current_append_singleton] at h
    rcases mem_upsert.mp h with rfl | ⟨hl, -⟩
    · exact List.mem_append_right _ List.mem_cons_self
    · exact List.mem_append_left _ (ih hl)

theorem mem_current_iff {l : List R} {r : R} :
    r ∈ current key l ↔ (l.filter fun r' => key r' = key r).getLast? = some r := by
  induction l using List.reverseRecOn with
  | nil => simp [current]
  | append_singleton l x ih =>
    rw [current_append_singleton, mem_upsert, List.filter_append]
    by_cases hx : key x = key r
    · have hlast : [x].filter (fun r' => key r' = key r) = [x] := by simp [hx]
      rw [hlast, List.getLast?_append, List.getLast?_singleton, Option.some_or, Option.some_inj, hx]
      simp [eq_comm]
    · have hlast : [x].filter (fun r' => key r' = key r) = [] := by simp [hx]
      rw [hlast, List.append_nil, ← ih]
      have hne : r ≠ x := fun h => hx (h ▸ rfl)
      simp [hne, Ne.symm hx]

theorem exists_current {l : List R} {r : R} (h : r ∈ l) : ∃ r' ∈ current key l, key r' = key r := by
  induction l using List.reverseRecOn with
  | nil => exact absurd h List.not_mem_nil
  | append_singleton l x ih =>
    rw [current_append_singleton]
    by_cases hx : key r = key x
    · exact ⟨x, mem_upsert.mpr (Or.inl rfl), hx.symm⟩
    · rcases List.mem_append.mp h with h | h
      · obtain ⟨r', hr', hkey⟩ := ih h
        exact ⟨r', mem_upsert.mpr (Or.inr ⟨hr', by rw [hkey]; exact hx⟩), hkey⟩
      · exact absurd (by rw [List.mem_singleton.mp h]) hx

theorem exists_current_le {O : Type*} [Preorder O] {rank : R → O} {l : List R}
    (hl : l.Pairwise fun r r' => rank r ≤ rank r') {r : R} (h : r ∈ l) :
    ∃ r' ∈ current key l, key r' = key r ∧ rank r ≤ rank r' := by
  induction l using List.reverseRecOn with
  | nil => exact absurd h List.not_mem_nil
  | append_singleton l x ih =>
    obtain ⟨hl, -, hlast⟩ := List.pairwise_append.mp hl
    rw [current_append_singleton]
    rcases List.mem_append.mp h with h | h
    · by_cases hx : key x = key r
      · exact ⟨x, mem_upsert.mpr (Or.inl rfl), hx, hlast r h x List.mem_cons_self⟩
      · obtain ⟨r', hr', hkey, hle⟩ := ih hl h
        exact ⟨r', mem_upsert.mpr (Or.inr ⟨hr', by rw [hkey]; exact Ne.symm hx⟩), hkey, hle⟩
    · rw [List.mem_singleton.mp h]
      exact ⟨x, mem_upsert.mpr (Or.inl rfl), rfl, le_rfl⟩

end TtAiops.Lib
