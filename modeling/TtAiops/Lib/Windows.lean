import Mathlib

/-!
# Capped window reads behind a high-water mark

A poll reads the visible rows from some distance behind its mark on, sorted by key and at most `cap` of them, lands them,
and moves the mark to the latest key that it read. Rows may become visible behind the mark.

* `window` : the rows that a poll reads; `mem_window_of_lt`, `mem_window_of_few`, `exists_in_window` : what it reads in any
  case, all if they are few, and one of another kind if those of one kind are few;
* `Landed`, `landed_start` : everything behind the window of the mark has landed;
* `Landed.advance` : **reading the window and moving the mark to a key that was read leaves nothing behind**, if the rows
  that were not visible are not further behind that key than the window reaches.
-/

namespace TtAiops.Lib

section Window

variable {R : Type*} (key : R → ℤ)

/-- The rows of `visible` with a key from `lo` to `hi`. -/
def between (lo hi : ℤ) (visible : List R) : List R := visible.filter fun r => lo ≤ key r ∧ key r ≤ hi

/-- The first `cap` of the rows with a key from `lo` to `hi`, in the order of their keys. -/
def window (cap : ℕ) (lo hi : ℤ) (visible : List R) : List R :=
  ((between key lo hi visible).insertionSort fun a b => key a ≤ key b).take cap

variable {key} {cap : ℕ} {lo hi : ℤ} {visible : List R}

theorem mem_between {r : R} : r ∈ between key lo hi visible ↔ r ∈ visible ∧ lo ≤ key r ∧ key r ≤ hi := by
  unfold between
  rw [List.mem_filter, decide_eq_true_iff]

theorem mem_between_of_mem_window {r : R} (h : r ∈ window key cap lo hi visible) : r ∈ between key lo hi visible :=
  (List.mem_insertionSort _).mp (List.mem_of_mem_take h)

variable (key) in
theorem pairwise_sorted (l : List R) : (l.insertionSort fun a b => key a ≤ key b).Pairwise fun a b => key a ≤ key b := by
  have : IsTrans R fun a b => key a ≤ key b := ⟨fun _ _ _ => le_trans⟩
  have : Std.Total fun a b : R => key a ≤ key b := ⟨fun a b => le_total (key a) (key b)⟩
  exact List.pairwise_insertionSort _ _

theorem mem_window_of_lt {r r' : R} (hr : r ∈ between key lo hi visible) (hr' : r' ∈ window key cap lo hi visible)
    (hlt : key r < key r') : r ∈ window key cap lo hi visible := by
  have hsorted := pairwise_sorted key (between key lo hi visible)
  have hmem : r ∈ (between key lo hi visible).insertionSort fun a b => key a ≤ key b := (List.mem_insertionSort _).mpr hr
  rw [← List.take_append_drop cap ((between key lo hi visible).insertionSort fun a b => key a ≤ key b)] at hsorted hmem
  rcases List.mem_append.mp hmem with hmem | hmem
  · exact hmem
  · have hle := (List.pairwise_append.mp hsorted).2.2 r' hr' r hmem
    omega

theorem mem_window_of_few (hfew : (between key lo hi visible).length ≤ cap) {r : R} (hr : r ∈ between key lo hi visible) :
    r ∈ window key cap lo hi visible := by
  unfold window
  rw [List.take_of_length_le (by rw [List.length_insertionSort]; exact hfew)]
  exact (List.mem_insertionSort _).mpr hr

theorem exists_in_window {p : R → Bool} (hmany : cap ≤ (between key lo hi visible).length)
    (hfew : ((between key lo hi visible).filter p).length < cap) : ∃ r ∈ window key cap lo hi visible, p r = false := by
  by_contra hno
  have hlength : (window key cap lo hi visible).length = cap := by
    unfold window
    rw [List.length_take, List.length_insertionSort]
    exact min_eq_left hmany
  have hself : (window key cap lo hi visible).filter p = window key cap lo hi visible := by
    apply List.filter_eq_self.mpr
    intro r hr
    by_contra hp
    exact hno ⟨r, hr, Bool.eq_false_iff.mpr hp⟩
  have hsub : (window key cap lo hi visible).Subperm (between key lo hi visible) :=
    (List.take_sublist _ _).subperm.trans (List.perm_insertionSort _ _).subperm
  have hle := (hsub.filter p).length_le
  rw [hself, hlength] at hle
  omega

end Window

section Landed

variable {R : Type*} {key : R → ℤ} {rows : Set R} {floor lag mark : ℤ}

/-- Every row from `floor` on that is behind the window of the mark has landed. -/
def Landed (key : R → ℤ) (rows : Set R) (landed : R → Prop) (floor lag mark : ℤ) : Prop :=
  ∀ r ∈ rows, floor ≤ key r → key r < mark - lag → landed r

theorem landed_start (landed : R → Prop) : Landed key rows landed (mark - lag) lag mark :=
  fun _ _ hle hlt => absurd hle (not_le.mpr hlt)

theorem Landed.of_le {landed : R → Prop} (h : Landed key rows landed floor lag mark) {mark' : ℤ} (hle : mark' ≤ mark) :
    Landed key rows landed floor lag mark' :=
  fun r hr hfloor hlt => h r hr hfloor (by omega)

/-- **Nothing is left behind.** -/
theorem Landed.advance {landed : R → Prop} (h : Landed key rows landed floor lag mark) (landed' : R → Prop) {cap : ℕ} {hi : ℤ}
    {visible : List R} (hlag : 0 ≤ lag) (hsub : ∀ r ∈ rows, landed r → landed' r)
    (hread : ∀ r ∈ window key cap (mark - lag) hi visible, landed' r) {mark' : ℤ}
    (hmark' : mark' ≤ mark ∨ ∃ r' ∈ window key cap (mark - lag) hi visible, mark' ≤ key r' ∧
      ∀ r ∈ rows, floor ≤ key r → r ∉ visible → key r' ≤ key r + lag) :
    Landed key rows landed' floor lag mark' := by
  intro r hr hle hlt
  rcases hmark' with hback | ⟨r', hr', hmark', horder⟩
  · exact hsub r hr (h r hr hle (by omega))
  · by_cases hold : key r < mark - lag
    · exact hsub r hr (h r hr hle hold)
    · obtain ⟨-, -, hhi⟩ := mem_between.mp (mem_between_of_mem_window hr')
      have hvis : r ∈ visible := by
        by_contra hout
        have := horder r hr hle hout
        omega
      exact hread r (mem_window_of_lt (mem_between.mpr ⟨hvis, by omega, by omega⟩) hr' (by omega))

end Landed

end TtAiops.Lib
