import Mathlib

/-!
# Serving a set of jobs by distinct servers

A relation `E : S → T → Prop` says which server can take which job.

* `Servable E A` : the jobs of `A` can be served at once by distinct servers;
* `Servable.mono`, `Servable.card_le` : a part of a servable set is servable, and has at most as many jobs as it
  has servers;
* `not_servable_of_few` : a set of jobs that together see fewer servers than they are is not servable, nor is any
  larger set;
* `servable_iff_hall` : a finite set of jobs is servable iff no part of it sees fewer servers than it has jobs;
  `Tight.union` : parts that see just as many stay so together; `card_le_of_maximal` : a servable set that no job can
  be added to is as large as any;
* `GreedyCover` : a set chosen job by job along an order, a job being taken exactly when it still fits; such a set
  is determined by the relation (`GreedyCover.unique`), so a later job never changes what was decided for an earlier
  one, no job left out can be added (`GreedyCover.maximal`), and no servable set has more jobs
  (`GreedyCover.card_le`).
-/

namespace TtAiops.Lib

variable {S T : Type*}

/-- The jobs of `A` can be served at once by distinct servers. -/
def Servable (E : S → T → Prop) (A : Set S) : Prop :=
  ∃ f : S → T, Set.InjOn f A ∧ ∀ s ∈ A, E s (f s)

theorem Servable.mono {E : S → T → Prop} {A B : Set S} (hB : Servable E B) (h : A ⊆ B) : Servable E A := by
  obtain ⟨f, hinj, hE⟩ := hB
  exact ⟨f, hinj.mono h, fun s hs => hE s (h hs)⟩

theorem Servable.congr {E E' : S → T → Prop} {A : Set S} (hA : Servable E A)
    (h : ∀ s ∈ A, ∀ t, E s t → E' s t) : Servable E' A := by
  obtain ⟨f, hinj, hE⟩ := hA
  exact ⟨f, hinj, fun s hs => h s hs _ (hE s hs)⟩

/-- A servable set of jobs is no larger than the set of servers its jobs can see. -/
theorem Servable.card_le {E : S → T → Prop} {R : Finset S} {N : Finset T} (hR : Servable E (R : Set S))
    (hN : ∀ s ∈ R, ∀ t, E s t → t ∈ N) : R.card ≤ N.card := by
  obtain ⟨f, hinj, hE⟩ := hR
  exact Finset.card_le_card_of_injOn f (fun s hs => hN s hs _ (hE s hs)) hinj

/-- Jobs that together see fewer servers than they are cannot all be served, whatever else is to be served. -/
theorem not_servable_of_few {E : S → T → Prop} {R : Finset S} {N : Finset T} {A : Set S}
    (hN : ∀ s ∈ R, ∀ t, E s t → t ∈ N) (hcard : N.card < R.card) (hsub : (R : Set S) ⊆ A) : ¬ Servable E A := by
  intro hA
  have := (hA.mono hsub).card_le hN
  omega

section finite
variable [DecidableEq S] [DecidableEq T] {N : S → Finset T}

theorem servable_iff_hall [Nonempty T] {A : Finset S} :
    Servable (fun s t => t ∈ N s) (A : Set S) ↔ ∀ X ⊆ A, X.card ≤ (X.biUnion N).card := by
  constructor
  · intro hA X hX
    apply (hA.mono (Finset.coe_subset.mpr hX)).card_le
    intro s hs t ht
    exact Finset.mem_biUnion.mpr ⟨s, hs, ht⟩
  · intro hhall
    have hsub : ∀ X : Finset A, X.card ≤ (X.biUnion fun s => N s).card := by
      intro X
      have himage := hhall (X.image Subtype.val) (Finset.image_subset_iff.mpr fun s _ => s.2)
      rwa [Finset.card_image_of_injective _ Subtype.val_injective, Finset.image_biUnion] at himage
    obtain ⟨f, hinj, hf⟩ := (Finset.all_card_le_biUnion_card_iff_exists_injective fun s : A => N s).mp hsub
    refine ⟨fun s => if h : s ∈ A then f ⟨s, h⟩ else Classical.arbitrary T, ?_, ?_⟩
    · intro s hs s' hs' he
      simp only [Finset.mem_coe] at hs hs'
      simp only [dif_pos hs, dif_pos hs'] at he
      exact congrArg Subtype.val (hinj he)
    · intro s hs
      simp only [Finset.mem_coe] at hs
      dsimp only
      rw [dif_pos hs]
      exact hf ⟨s, hs⟩

/-- The jobs of `Y` see just as many servers as they are. -/
def Tight (N : S → Finset T) (Y : Finset S) : Prop := (Y.biUnion N).card = Y.card

theorem Tight.union [Nonempty T] {A Y Z : Finset S} (hA : Servable (fun s t => t ∈ N s) (A : Set S)) (hYA : Y ⊆ A)
    (hZA : Z ⊆ A) (hY : Tight N Y) (hZ : Tight N Z) : Tight N (Y ∪ Z) := by
  have hhall := servable_iff_hall.mp hA
  have hunion : (Y ∪ Z).biUnion N = Y.biUnion N ∪ Z.biUnion N := Finset.union_biUnion
  have hinter : (Y ∩ Z).biUnion N ⊆ Y.biUnion N ∩ Z.biUnion N := Finset.subset_inter
    (Finset.biUnion_subset_biUnion_of_subset_left N Finset.inter_subset_left)
    (Finset.biUnion_subset_biUnion_of_subset_left N Finset.inter_subset_right)
  have hservers := Finset.card_union_add_card_inter (Y.biUnion N) (Z.biUnion N)
  have hjobs := Finset.card_union_add_card_inter Y Z
  have hle := Finset.card_le_card hinter
  have hge := hhall (Y ∩ Z) (Finset.inter_subset_left.trans hYA)
  have hge' := hhall (Y ∪ Z) (Finset.union_subset hYA hZA)
  unfold Tight at hY hZ ⊢
  rw [hunion] at hge' ⊢
  omega

/-- A job that cannot be added to a servable set sees only what a tight part of the set sees. -/
theorem exists_tight [Nonempty T] {A : Finset S} {p : S} (hA : Servable (fun s t => t ∈ N s) (A : Set S))
    (hp : ¬ Servable (fun s t => t ∈ N s) ((insert p A : Finset S) : Set S)) :
    ∃ Y ⊆ A, Tight N Y ∧ N p ⊆ Y.biUnion N := by
  rw [servable_iff_hall] at hp
  push Not at hp
  obtain ⟨X, hX, hfew⟩ := hp
  have hpX : p ∈ X := by
    by_contra hpX
    have hXA : X ⊆ A := fun s hs => (Finset.mem_insert.mp (hX hs)).resolve_left fun he => hpX (he ▸ hs)
    have := servable_iff_hall.mp hA X hXA
    omega
  have hYA : X.erase p ⊆ A := by
    intro s hs
    obtain ⟨hne, hsX⟩ := Finset.mem_erase.mp hs
    exact (Finset.mem_insert.mp (hX hsX)).resolve_left hne
  have hYX : (X.erase p).biUnion N ⊆ X.biUnion N :=
    Finset.biUnion_subset_biUnion_of_subset_left N (Finset.erase_subset p X)
  have hcard := Finset.card_erase_of_mem hpX
  have hpos := Finset.card_pos.mpr ⟨p, hpX⟩
  have hge := servable_iff_hall.mp hA _ hYA
  have hle := Finset.card_le_card hYX
  have hsame : (X.erase p).biUnion N = X.biUnion N := Finset.eq_of_subset_of_card_le hYX (by omega)
  refine ⟨X.erase p, hYA, ?_, ?_⟩
  · unfold Tight
    omega
  · rw [hsame]
    exact Finset.subset_biUnion_of_mem N hpX

/-- **A servable set that no job of `P` can be added to is as large as any servable part of `P`.** -/
theorem card_le_of_maximal [Nonempty T] {A B P : Finset S} (hA : Servable (fun s t => t ∈ N s) (A : Set S))
    (hmax : ∀ p ∈ P, p ∉ A → ¬ Servable (fun s t => t ∈ N s) ((insert p A : Finset S) : Set S)) (hBP : B ⊆ P)
    (hB : Servable (fun s t => t ∈ N s) (B : Set S)) : B.card ≤ A.card := by
  -- one tight part of `A` that sees what all jobs of `B` outside of it see
  have hpart : ∀ Q ⊆ B \ A, ∃ Y ⊆ A, Tight N Y ∧ ∀ p ∈ Q, N p ⊆ Y.biUnion N := by
    intro Q
    induction Q using Finset.induction with
    | empty => exact fun _ => ⟨∅, Finset.empty_subset A, by simp [Tight], by simp⟩
    | insert p Q hpQ ih =>
      intro hQ
      obtain ⟨Y, hYA, hY, hseen⟩ := ih ((Finset.subset_insert p Q).trans hQ)
      obtain ⟨hpB, hpA⟩ := Finset.mem_sdiff.mp (hQ (Finset.mem_insert_self p Q))
      obtain ⟨Z, hZA, hZ, hpZ⟩ := exists_tight hA (hmax p (hBP hpB) hpA)
      refine ⟨Y ∪ Z, Finset.union_subset hYA hZA, hY.union hA hYA hZA hZ, ?_⟩
      intro q hq
      rw [Finset.union_biUnion]
      obtain rfl | hq := Finset.mem_insert.mp hq
      · exact hpZ.trans Finset.subset_union_right
      · exact (hseen q hq).trans Finset.subset_union_left
  obtain ⟨Y, hYA, hY, hseen⟩ := hpart (B \ A) (Finset.Subset.refl _)
  have hclosed : (B \ (A \ Y)).card ≤ (Y.biUnion N).card := by
    apply (hB.mono (Finset.coe_subset.mpr (Finset.sdiff_subset : B \ (A \ Y) ⊆ B))).card_le
    intro s hs t ht
    obtain ⟨hsB, hs⟩ := Finset.mem_sdiff.mp hs
    by_cases hsA : s ∈ A
    · have hsY : s ∈ Y := by
        by_contra hsY
        exact hs (Finset.mem_sdiff.mpr ⟨hsA, hsY⟩)
      exact Finset.mem_biUnion.mpr ⟨s, hsY, ht⟩
    · exact hseen s (Finset.mem_sdiff.mpr ⟨hsB, hsA⟩) ht
  have hsplit := Finset.card_sdiff_add_card_inter B (A \ Y)
  have hinter := Finset.card_le_card (Finset.inter_subset_right : B ∩ (A \ Y) ⊆ A \ Y)
  have hrest := Finset.card_sdiff_add_card_eq_card hYA
  unfold Tight at hY
  omega

end finite

/-- `C` is chosen along the order of the job numbers: a job is taken exactly when it can be served together with the
jobs already taken. -/
def GreedyCover (E : ℕ → T → Prop) (k : ℕ) (C : ℕ → Prop) : Prop :=
  ∀ s < k, C s ↔ Servable E ({r | r < s ∧ C r} ∪ {s})

namespace GreedyCover

variable {E E' : ℕ → T → Prop} {k : ℕ} {C C' : ℕ → Prop}

theorem prefix_of_le (h : GreedyCover E k C) {j : ℕ} (hj : j ≤ k) : GreedyCover E j C :=
  fun s hs => h s (lt_of_lt_of_le hs hj)

theorem succ (h : GreedyCover E k C) (hsame : ∀ s < k, C' s ↔ C s)
    (hnext : C' k ↔ Servable E ({r | r < k ∧ C r} ∪ {k})) : GreedyCover E (k + 1) C' := by
  have hset : ∀ j ≤ k, ({r | r < j ∧ C' r} ∪ {j} : Set ℕ) = {r | r < j ∧ C r} ∪ {j} := by
    intro j hj
    ext r
    exact or_congr_left (and_congr_right fun hr => hsame r (lt_of_lt_of_le hr hj))
  intro s hs
  rcases Nat.lt_succ_iff_lt_or_eq.mp hs with hs | rfl
  · rw [hset s hs.le, hsame s hs]
    exact h s hs
  · rw [hset s le_rfl]
    exact hnext

/-- Two greedy covers of relations that agree below `k` agree below `k`. -/
theorem unique (h : GreedyCover E k C) (h' : GreedyCover E' k C') (hE : ∀ s < k, ∀ t, E s t ↔ E' s t) :
    ∀ s < k, C s ↔ C' s := by
  intro s
  induction s using Nat.strong_induction_on with
  | _ s ih =>
    intro hs
    have hset : ({r | r < s ∧ C r} ∪ {s} : Set ℕ) = {r | r < s ∧ C' r} ∪ {s} := by
      ext r
      simp only [Set.mem_union, Set.mem_ofPred_eq, Set.mem_singleton_iff]
      constructor
      · rintro (⟨hr, hC⟩ | rfl)
        · exact Or.inl ⟨hr, (ih r hr (hr.trans hs)).mp hC⟩
        · exact Or.inr rfl
      · rintro (⟨hr, hC⟩ | rfl)
        · exact Or.inl ⟨hr, (ih r hr (hr.trans hs)).mpr hC⟩
        · exact Or.inr rfl
    have hbelow : ∀ r ∈ ({r | r < s ∧ C' r} ∪ {s} : Set ℕ), r < k := by
      rintro r (⟨hr, -⟩ | rfl)
      · exact hr.trans hs
      · exact hs
    rw [h s hs, h' s hs, hset]
    constructor
    · exact fun hA => hA.congr fun r hr t => (hE r (hbelow r hr) t).mp
    · exact fun hA => hA.congr fun r hr t => (hE r (hbelow r hr) t).mpr

theorem servable [Nonempty T] (h : GreedyCover E k C) : Servable E {r | r < k ∧ C r} := by
  induction k with
  | zero => exact ⟨fun _ => Classical.arbitrary T, fun r hr => absurd hr.1 (Nat.not_lt_zero r),
      fun r hr => absurd hr.1 (Nat.not_lt_zero r)⟩
  | succ k ih =>
    by_cases hk : C k
    · refine ((h k (Nat.lt_succ_self k)).mp hk).mono ?_
      rintro r ⟨hr, hC⟩
      rcases Nat.lt_succ_iff_lt_or_eq.mp hr with hr | rfl
      · exact Or.inl ⟨hr, hC⟩
      · exact Or.inr rfl
    · refine (ih (h.prefix_of_le (Nat.le_succ k))).mono ?_
      rintro r ⟨hr, hC⟩
      rcases Nat.lt_succ_iff_lt_or_eq.mp hr with hr | rfl
      · exact ⟨hr, hC⟩
      · exact absurd hC hk

theorem maximal (h : GreedyCover E k C) {s : ℕ} (hs : s < k) (hC : ¬ C s) :
    ¬ Servable E ({r | r < k ∧ C r} ∪ {s}) := by
  intro hA
  refine hC ((h s hs).mpr (hA.mono ?_))
  rintro r (⟨hr, hCr⟩ | rfl)
  · exact Or.inl ⟨hr.trans hs, hCr⟩
  · exact Or.inr rfl

/-- **No servable set of the jobs below `k` has more of them than are chosen.** -/
theorem card_le [DecidableEq T] [Nonempty T] [DecidablePred C] (h : GreedyCover E k C) {N : ℕ → Finset T}
    (hN : ∀ s < k, ∀ t, E s t ↔ t ∈ N s) {B : Finset ℕ} (hBk : ∀ s ∈ B, s < k) (hB : Servable E (B : Set ℕ)) :
    B.card ≤ ((Finset.range k).filter C).card := by
  have hcongr : ∀ A : Finset ℕ, (∀ s ∈ A, s < k) →
      (Servable E (A : Set ℕ) ↔ Servable (fun s t => t ∈ N s) (A : Set ℕ)) := by
    intro A hA
    exact ⟨fun hE => hE.congr fun s hs t => (hN s (hA s hs) t).mp,
      fun hE => hE.congr fun s hs t => (hN s (hA s hs) t).mpr⟩
  have hchosen : ∀ s ∈ (Finset.range k).filter C, s < k := fun s hs =>
    Finset.mem_range.mp (Finset.mem_filter.mp hs).1
  have hset : (((Finset.range k).filter C : Finset ℕ) : Set ℕ) = {r | r < k ∧ C r} := by
    ext r
    simp
  refine card_le_of_maximal (P := Finset.range k) ((hcongr _ hchosen).mp ?_) ?_ (fun s hs => Finset.mem_range.mpr (hBk s hs))
    ((hcongr B hBk).mp hB)
  · rw [hset]
    exact h.servable
  · intro p hp hpC hserv
    have hpk := Finset.mem_range.mp hp
    have hinsert : ∀ s ∈ insert p ((Finset.range k).filter C), s < k := by
      intro s hs
      obtain rfl | hs := Finset.mem_insert.mp hs
      · exact hpk
      · exact hchosen s hs
    apply h.maximal hpk fun hC => hpC (Finset.mem_filter.mpr ⟨hp, hC⟩)
    apply ((hcongr _ hinsert).mpr hserv).mono
    rw [Finset.coe_insert, hset]
    intro r hr
    exact hr.elim Or.inr Or.inl

end GreedyCover

end TtAiops.Lib
