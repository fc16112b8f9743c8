import Mathlib
import TtAiops.Lib.Freedom

/-!
# The test of two samples (`welch_t_test`)

* `meanVar`, `welchTTest` : the test, over an ordered field;
* `variance_nonneg`, `se2_nonpos_iff`, `welchDf_eq` : its parts;
* `welch_df` : **the test is undefined exactly where it says, and its degrees of freedom are between those of the smaller
  sample and those of both together**.

The square root and the distribution of Student's t are given functions. A number is always finite.
-/

namespace TtAiops.Stats
open TtAiops.Lib

/-- What the test takes from its libraries: `sqrt`, and `StudentsT::new` with the `cdf` of the distribution it makes. -/
structure Functions (K : Type*) where
  sqrt : K → K
  studentsT : K → K → K → Option (K → K)

structure TwoSampleTest (K : Type*) where
  nA : ℕ
  nB : ℕ
  meanA : K
  meanB : K
  t : K
  df : K
  pValue : K
  cohensD : K

variable {K : Type*} [Field K] [LinearOrder K]

def meanVar (xs : List K) : K × K :=
  let n : K := xs.length
  let m := xs.sum / n
  (m, (xs.map fun x => (x - m) ^ 2).sum / (n - 1))

def clamp (lo hi x : K) : K := if x < lo then lo else if hi < x then hi else x

def welchTTest (lib : Functions K) (a b : List K) : Option (TwoSampleTest K) :=
  if a.length < 2 ∨ b.length < 2 then none
  else
    let (ma, va) := meanVar a
    let (mb, vb) := meanVar b
    let (na, nb) : K × K := (a.length, b.length)
    let se2 := va / na + vb / nb
    if se2 ≤ 0 then none
    else
      let t := (ma - mb) / lib.sqrt se2
      let df := se2 ^ 2 / ((va / na) ^ 2 / (na - 1) + (vb / nb) ^ 2 / (nb - 1))
      (lib.studentsT 0 1 df).map fun cdf =>
        let p := clamp 0 1 (((2 : ℕ) : K) * (1 - cdf |t|))
        let pooled := lib.sqrt (((na - 1) * va + (nb - 1) * vb) / (na + nb - (2 : ℕ)))
        let cohensD := if 0 < pooled then (ma - mb) / pooled else 0
        ⟨a.length, b.length, ma, mb, t, df, p, cohensD⟩

def variance (xs : List K) : K := (meanVar xs).2

/-- The square of the standard error of a mean. -/
def sampleSe2 (xs : List K) : K := variance xs / xs.length

/-- The degrees of freedom of the difference of the means. -/
def welchDf (a b : List K) : K :=
  (sampleSe2 a + sampleSe2 b) ^ 2 /
    (sampleSe2 a ^ 2 / (a.length - 1) + sampleSe2 b ^ 2 / (b.length - 1))

variable [IsStrictOrderedRing K]

theorem length_sub_one_pos {xs : List K} (h : 2 ≤ xs.length) : (0 : K) < xs.length - 1 := by
  have hlen : (2 : K) ≤ xs.length := by exact_mod_cast h
  linarith

theorem variance_nonneg {xs : List K} (h : 2 ≤ xs.length) : 0 ≤ variance xs := by
  refine div_nonneg (List.sum_nonneg fun y hy => ?_) (length_sub_one_pos h).le
  obtain ⟨x, -, rfl⟩ := List.mem_map.mp hy
  exact sq_nonneg _

theorem sampleSe2_nonneg {xs : List K} (h : 2 ≤ xs.length) : 0 ≤ sampleSe2 xs :=
  div_nonneg (variance_nonneg h) (Nat.cast_nonneg _)

theorem sampleSe2_eq_zero_iff {xs : List K} (h : 2 ≤ xs.length) : sampleSe2 xs = 0 ↔ variance xs = 0 := by
  have hlen : (xs.length : K) ≠ 0 := by
    rw [Nat.cast_ne_zero]
    omega
  rw [sampleSe2, div_eq_zero_iff, or_iff_left hlen]

theorem se2_nonpos_iff {a b : List K} (ha : 2 ≤ a.length) (hb : 2 ≤ b.length) :
    sampleSe2 a + sampleSe2 b ≤ 0 ↔ variance a = 0 ∧ variance b = 0 := by
  have hna := sampleSe2_nonneg ha
  have hnb := sampleSe2_nonneg hb
  rw [← sampleSe2_eq_zero_iff ha, ← sampleSe2_eq_zero_iff hb]
  constructor
  · intro h
    exact ⟨by linarith, by linarith⟩
  · intro ⟨hza, hzb⟩
    rw [hza, hzb, add_zero]

omit [LinearOrder K] [IsStrictOrderedRing K] in
/-- The formula of Welch and Satterthwaite, with a part for each sample. -/
theorem welchDf_eq (a b : List K) : welchDf a b =
    freedom Finset.univ ![sampleSe2 a, sampleSe2 b] ![(a.length : K) - 1, (b.length : K) - 1] := by
  simp [freedom, welchDf, Fin.sum_univ_two]

section df
variable {a b : List K} (ha : 2 ≤ a.length) (hb : 2 ≤ b.length) (hse : 0 < sampleSe2 a + sampleSe2 b)
include ha hb hse

theorem welchDf_le : welchDf a b ≤ a.length + b.length - 2 := by
  have hle := freedom_le_sum (s := Finset.univ) (x := ![sampleSe2 a, sampleSe2 b])
    (p := ![(a.length : K) - 1, (b.length : K) - 1])
    (fun i _ => by fin_cases i; exacts [length_sub_one_pos ha, length_sub_one_pos hb])
    (by simpa [Fin.sum_univ_two] using hse)
  rw [← welchDf_eq, Fin.sum_univ_two] at hle
  calc welchDf a b ≤ ((a.length : K) - 1) + ((b.length : K) - 1) := hle
    _ = a.length + b.length - 2 := by ring

theorem le_welchDf : ((min a.length b.length : ℕ) : K) - 1 ≤ welchDf a b := by
  have hleast : ∀ xs : List K, min a.length b.length ≤ xs.length →
      ((min a.length b.length : ℕ) : K) - 1 ≤ xs.length - 1 :=
    fun xs hxs => sub_le_sub_right (Nat.cast_le.mpr hxs) 1
  rw [welchDf_eq]
  refine le_freedom (fun i _ => ?_) (fun i _ => ?_) (fun i _ => ?_) (by simpa [Fin.sum_univ_two] using hse)
  · fin_cases i
    exacts [length_sub_one_pos ha, length_sub_one_pos hb]
  · fin_cases i
    exacts [hleast a (min_le_left _ _), hleast b (min_le_right _ _)]
  · fin_cases i
    exacts [sampleSe2_nonneg ha, sampleSe2_nonneg hb]

theorem welchDf_pos : 0 < welchDf a b := by
  refine lt_of_lt_of_le ?_ (le_welchDf ha hb hse)
  have hmin : (2 : K) ≤ (min a.length b.length : ℕ) := by exact_mod_cast le_min ha hb
  linarith

end df

/-- **The test of two samples.** It returns nothing exactly if a sample has fewer than two points or neither has a variance;
else its degrees of freedom are at least those of the smaller sample and at most those of both. -/
theorem welch_df (lib : Functions K) (hnew : ∀ df, 0 < df → (lib.studentsT 0 1 df).isSome) (a b : List K) :
    (welchTTest lib a b = none ↔ a.length < 2 ∨ b.length < 2 ∨ (variance a = 0 ∧ variance b = 0)) ∧
      ∀ r, welchTTest lib a b = some r →
        ((min a.length b.length : ℕ) : K) - 1 ≤ r.df ∧ r.df ≤ a.length + b.length - 2 := by
  by_cases hshort : a.length < 2 ∨ b.length < 2
  · have hnone : welchTTest lib a b = none := if_pos hshort
    rw [hnone]
    refine ⟨iff_of_true rfl (hshort.imp_right Or.inl), fun r hr => ?_⟩
    cases hr
  · have ha : 2 ≤ a.length := by omega
    have hb : 2 ≤ b.length := by omega
    by_cases hse : sampleSe2 a + sampleSe2 b ≤ 0
    · have hnone : welchTTest lib a b = none := by
        rw [welchTTest, if_neg hshort]
        exact if_pos hse
      rw [hnone]
      refine ⟨iff_of_true rfl (Or.inr (Or.inr ((se2_nonpos_iff ha hb).mp hse))), fun r hr => ?_⟩
      cases hr
    · obtain ⟨cdf, hcdf⟩ := Option.isSome_iff_exists.mp (hnew _ (welchDf_pos ha hb (not_le.mp hse)))
      have hsome : ∃ r, welchTTest lib a b = some r ∧ r.df = welchDf a b := by
        rw [welchTTest, if_neg hshort]
        refine ⟨_, (if_neg hse).trans (congrArg (Option.map _) hcdf), rfl⟩
      obtain ⟨r, hr, hdf⟩ := hsome
      rw [hr]
      refine ⟨iff_of_false (Option.some_ne_none r) ?_, fun r' hr' => ?_⟩
      · intro h
        exact hse ((se2_nonpos_iff ha hb).mpr ((h.resolve_left (by omega)).resolve_left (by omega)))
      · obtain rfl := Option.some.inj hr'
        rw [hdf]
        exact ⟨le_welchDf ha hb (not_le.mp hse), welchDf_le ha hb (not_le.mp hse)⟩

/-- The square root, and a distribution of one degree of freedom. -/
noncomputable def realFunctions : Functions ℝ where
  sqrt := Real.sqrt
  studentsT := fun location scale df =>
    if 0 < scale ∧ 0 < df then some fun x => 1 / (2 : ℕ) + Real.arctan ((x - location) / scale) / Real.pi else none

/-- One of the samples does not vary: its part has no degrees of freedom to give. -/
theorem welch_df_two : ∃ r, welchTTest realFunctions [0, 2] [0, 0] = some r ∧ 1 ≤ r.df ∧ r.df ≤ 2 := by
  obtain ⟨hnone, hdf⟩ := welch_df realFunctions (fun df hdf => by simp [realFunctions, hdf]) [0, 2] [0, 0]
  have hvaries : variance [(0 : ℝ), 2] ≠ 0 := by norm_num [variance, meanVar]
  obtain ⟨r, hr⟩ := Option.ne_none_iff_exists'.mp fun h => hvaries (by simpa using hnone.mp h : _ ∧ _).1
  obtain ⟨hle, hge⟩ := hdf r hr
  exact ⟨r, hr, by norm_num at hle; exact hle, by norm_num at hge; exact hge⟩

end TtAiops.Stats
