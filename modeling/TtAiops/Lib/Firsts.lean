import TtAiops.Lib.Runs

/-!
# A log of the first time

Round after round some keys are current, and there are rows for some of these. A log takes the first row of a key only, and
one again when the key has not been current in between: it remembers the keys of which it took one and forgets those that
are not current.

* `Round` : the current keys, and the rows, one at most for a key that is current;
* `retainThenLog`, `logThenRetain`, `logThenRetain_eq` : forgetting first or taking first, which comes to the same;
* `insertNew`, `insertNew_eq` : taking one row after the other;
* `Since`, `mem_keptAfter` : what is remembered: a key that had a row and has been current since;
* `logged_iff`, `logged_apart` : a row is taken exactly when its key had none since it became current;
* `Since.logged`, `Since.logged_map` : of a key that had a row and has been current since, one was taken.
-/

namespace TtAiops.Lib

variable {R K : Type*} [DecidableEq K] {key : R → K}

/-- The keys that are current, and the rows for some of them. -/
structure Round (key : R → K) where
  current : Finset K
  rows : List R
  nodup : (rows.map key).Nodup
  rows_current : ∀ r ∈ rows, key r ∈ current

/-- The keys of the rows. -/
def Round.keys (x : Round key) : Finset K := (x.rows.map key).toFinset

/-- Forget what is not current, then take the rows of the keys that are not remembered. -/
def retainThenLog (x : Round key) (kept : Finset K) : List R × Finset K :=
  (x.rows.filter (key · ∉ kept.filter (· ∈ x.current)), kept.filter (· ∈ x.current) ∪ x.keys)

/-- Take the rows of the keys that are not remembered, then forget what is not current. -/
def logThenRetain (x : Round key) (kept : Finset K) : List R × Finset K :=
  (x.rows.filter (key · ∉ kept), kept.filter (· ∈ x.current) ∪ ((x.rows.filter (key · ∉ kept)).map key).toFinset)

/-- The keys of the rows put into a set one after the other: the rows whose key was new, and the set. -/
def insertNew (key : R → K) : List R → Finset K → List R × Finset K
  | [], kept => ([], kept)
  | r :: rs, kept =>
    if key r ∈ kept then insertNew key rs kept
    else (r :: (insertNew key rs (insert (key r) kept)).1, (insertNew key rs (insert (key r) kept)).2)

theorem insertNew_eq {rs : List R} (h : (rs.map key).Nodup) (kept : Finset K) :
    insertNew key rs kept = (rs.filter (key · ∉ kept), kept ∪ (rs.map key).toFinset) := by
  induction rs generalizing kept with
  | nil => simp [insertNew]
  | cons r rs ih =>
    rw [List.map_cons, List.nodup_cons] at h
    unfold insertNew
    rw [List.map_cons, List.toFinset_cons]
    by_cases hr : key r ∈ kept
    · have hinsert : kept ∪ insert (key r) (rs.map key).toFinset = kept ∪ (rs.map key).toFinset := by
        rw [Finset.union_insert, Finset.insert_eq_of_mem (Finset.mem_union_left _ hr)]
      rw [if_pos hr, ih h.2, List.filter_cons_of_neg (by simpa using hr), hinsert]
    · have hrest : rs.filter (key · ∉ insert (key r) kept) = rs.filter (key · ∉ kept) := by
        refine List.filter_congr fun x hx => ?_
        have hne : key x ≠ key r := fun hxr => h.1 (hxr ▸ List.mem_map_of_mem hx)
        simp [hne]
      have hunion : insert (key r) kept ∪ (rs.map key).toFinset = kept ∪ insert (key r) (rs.map key).toFinset := by
        rw [Finset.insert_union, Finset.union_insert]
      rw [if_neg hr, ih h.2, List.filter_cons_of_pos (by simpa using hr), hrest, hunion]

theorem mem_keys {x : Round key} {k : K} : k ∈ x.keys ↔ ∃ r ∈ x.rows, key r = k := by
  unfold Round.keys
  rw [List.mem_toFinset, List.mem_map]

theorem logThenRetain_eq (x : Round key) (kept : Finset K) : logThenRetain x kept = retainThenLog x kept := by
  have hrows : x.rows.filter (key · ∉ kept) = x.rows.filter (key · ∉ kept.filter (· ∈ x.current)) := by
    refine List.filter_congr fun r hr => ?_
    simp [x.rows_current r hr]
  have hkept : kept.filter (· ∈ x.current) ∪ ((x.rows.filter (key · ∉ kept)).map key).toFinset =
      kept.filter (· ∈ x.current) ∪ x.keys := by
    ext k
    simp only [Finset.mem_union, Finset.mem_filter, List.mem_toFinset, List.mem_map, List.mem_filter, decide_eq_true_iff,
      mem_keys]
    refine ⟨Or.imp_right fun ⟨r, hr, hk⟩ => ⟨r, hr.1, hk⟩, ?_⟩
    rintro (h | ⟨r, hr, rfl⟩)
    · exact Or.inl h
    · by_cases hin : key r ∈ kept
      · exact Or.inl ⟨hin, x.rows_current r hr⟩
      · exact Or.inr ⟨r, ⟨hr, hin⟩, rfl⟩
  unfold logThenRetain retainThenLog
  rw [hkept, hrows]

def keptAfter (rounds : List (Round key)) : Finset K := lastOf retainThenLog rounds ∅

/-- `k` had a row in one of the rounds and has been current since. -/
def Since (k : K) (rounds : List (Round key)) : Prop :=
  ∃ before x after, rounds = before ++ x :: after ∧ k ∈ x.keys ∧ ∀ x' ∈ after, k ∈ x'.current

theorem since_concat {k : K} {rounds : List (Round key)} {x : Round key} :
    Since k (rounds ++ [x]) ↔ k ∈ x.keys ∨ (Since k rounds ∧ k ∈ x.current) := by
  constructor
  · rintro ⟨before, x', after, heq, hkey, hcurrent⟩
    rcases List.eq_nil_or_concat after with rfl | ⟨after, y, rfl⟩
    · obtain ⟨-, hx⟩ := List.append_inj' heq rfl
      rw [List.singleton_inj.mp hx]
      exact Or.inl hkey
    · rw [List.concat_eq_append] at heq hcurrent
      rw [← List.cons_append, ← List.append_assoc] at heq
      obtain ⟨hrounds, hy⟩ := List.append_inj' heq rfl
      refine Or.inr ⟨⟨before, x', after, hrounds, hkey, fun x'' h => hcurrent x'' (List.mem_append_left _ h)⟩, ?_⟩
      rw [List.singleton_inj.mp hy]
      exact hcurrent y (List.mem_append_right _ List.mem_cons_self)
  · rintro (hkey | ⟨⟨before, x', after, heq, hkey, hcurrent⟩, hx⟩)
    · exact ⟨rounds, x, [], rfl, hkey, fun _ h => absurd h List.not_mem_nil⟩
    · refine ⟨before, x', after ++ [x], by rw [heq, List.append_assoc, List.cons_append], hkey, fun x'' h => ?_⟩
      rcases List.mem_append.mp h with h | h
      · exact hcurrent x'' h
      · rw [List.mem_singleton.mp h]
        exact hx

/-- **What is remembered**: the keys that had a row and have been current since. -/
theorem mem_keptAfter {k : K} {rounds : List (Round key)} : k ∈ keptAfter rounds ↔ Since k rounds := by
  induction rounds using List.reverseRecOn with
  | nil =>
    refine iff_of_false (Finset.notMem_empty k) ?_
    rintro ⟨before, x, after, heq, -⟩
    exact absurd heq (by simp)
  | append_singleton rounds x ih =>
    have hstep : keptAfter (rounds ++ [x]) = (keptAfter rounds).filter (· ∈ x.current) ∪ x.keys := by
      unfold keptAfter
      rw [lastOf_append]
      rfl
    rw [hstep, since_concat, ← ih, Finset.mem_union, Finset.mem_filter, or_comm]

/-- **The first time only.** After the rounds `before`, a row is taken exactly when its key has had none in the time that it
has been current. -/
theorem logged_iff {r : R} (before : List (Round key)) (x : Round key) :
    r ∈ (retainThenLog x (keptAfter before)).1 ↔ r ∈ x.rows ∧ ¬ Since (key r) before := by
  unfold retainThenLog
  rw [List.mem_filter, decide_eq_true_iff, Finset.mem_filter, mem_keptAfter]
  exact and_congr_right fun hr => by simp [x.rows_current r hr]

/-- Of a key that is remembered a row was taken, and the key has been current since. -/
theorem Since.logged {k : K} {rounds : List (Round key)} (h : Since k rounds) : ∃ before x after,
    rounds = before ++ x :: after ∧ (∃ r ∈ (retainThenLog x (keptAfter before)).1, key r = k) ∧ ∀ x' ∈ after, k ∈ x'.current := by
  induction rounds using List.reverseRecOn with
  | nil =>
    obtain ⟨before, x, after, heq, -⟩ := h
    exact absurd heq (by simp)
  | append_singleton rounds x ih =>
    by_cases hbefore : Since k rounds
    · have hcurrent : k ∈ x.current := by
        rcases since_concat.mp h with hkey | ⟨-, hcurrent⟩
        · obtain ⟨r, hr, rfl⟩ := mem_keys.mp hkey
          exact x.rows_current r hr
        · exact hcurrent
      obtain ⟨before, y, after, heq, hrow, hafter⟩ := ih hbefore
      refine ⟨before, y, after ++ [x], by rw [heq, List.append_assoc, List.cons_append], hrow, fun x' hx' => ?_⟩
      rcases List.mem_append.mp hx' with hx' | hx'
      · exact hafter x' hx'
      · rw [List.mem_singleton.mp hx']
        exact hcurrent
    · -- the first row of the key is taken now
      obtain ⟨r, hr, hkey⟩ := mem_keys.mp ((since_concat.mp h).resolve_right fun hold => hbefore hold.1)
      exact ⟨rounds, x, [], rfl, ⟨r, (logged_iff rounds x).mpr ⟨hr, hkey.symm ▸ hbefore⟩, hkey⟩,
        fun _ h => absurd h List.not_mem_nil⟩

/-- The same of the rounds that some inputs give. -/
theorem Since.logged_map {S : Type*} {g : S → Round key} {k : K} {inputs : List S} (h : Since k (inputs.map g)) :
    ∃ before s after, inputs = before ++ s :: after ∧
      (∃ r ∈ (retainThenLog (g s) (keptAfter (before.map g))).1, key r = k) ∧ ∀ s' ∈ after, k ∈ (g s').current := by
  obtain ⟨before, x, after, heq, hrow, hafter⟩ := h.logged
  obtain ⟨pre, rest, rfl, rfl, hrest⟩ := List.map_eq_append_iff.mp heq
  obtain ⟨s, post, rfl, rfl, rfl⟩ := List.map_eq_cons_iff.mp hrest
  exact ⟨pre, s, post, rfl, hrow, fun s' hs' => hafter _ (List.mem_map_of_mem hs')⟩

/-- Between two rows for a key there is a round in which it is not current. -/
theorem logged_apart {r r' : R} (before between : List (Round key)) (x x' : Round key) (hkey : key r = key r')
    (hr : r ∈ (retainThenLog x (keptAfter before)).1)
    (hr' : r' ∈ (retainThenLog x' (keptAfter (before ++ x :: between))).1) : ∃ y ∈ between, key r ∉ y.current := by
  obtain ⟨hrow, -⟩ := (logged_iff before x).mp hr
  obtain ⟨-, hsince⟩ := (logged_iff (before ++ x :: between) x').mp hr'
  by_contra hno
  refine hsince ⟨before, x, between, rfl, mem_keys.mpr ⟨r, hrow, hkey⟩, fun y hy => ?_⟩
  by_contra hnot
  exact hno ⟨y, hy, hkey ▸ hnot⟩

end TtAiops.Lib
