import TtAiops.Lib.Hysteresis
import TtAiops.Lib.Ints
import TtAiops.Lib.Runs

/-!
# The departure tiers of the work buckets (`spawn_stage2_shadow`)

A bucket has a slack to its departure deadline, and from it one of three tiers: late, tight, ample. The loop remembers the
tiers from one tick to the next and lets a bucket up only past a band. The code looks at the boundary above the remembered
tier alone, so that a late bucket can go up past both boundaries with the band of the lower one.

* `depTick`, `after` : the loop over the buckets of a tick, and the remembered tiers after a run;
* `tier_eq_settle` : a tier is that of a level with hysteresis, but for a late bucket in the upper band;
* `Hysteretic` : what the hysteresis is for, about every bucket and every tick of a run;
* `departure_tiers` : **a run has it exactly when no tick finds a late bucket in the upper band**.
-/

namespace TtAiops.Stage2.DepTier
open TtAiops.Lib TtAiops.Lib.Hysteresis

/-! ## The loop -/

def DEP_TIGHT_S : ℤ := 1800

def DEP_HYST_S : ℤ := 300

/-- The key of `prev_tier`: crane, vessel, queue. -/
abbrev BucketKey := String × String × String

/-- A work bucket with the coordinates found for it. Instants are milliseconds. -/
structure Bucket where
  qc : String
  vessel : String
  queuename : String
  coord : Option (ℚ × ℚ)
  workEtaMs : Option ℤ
  deadlineMs : Option ℤ
  procS : Option ℤ

def Bucket.key (w : Bucket) : BucketKey := (w.qc, w.vessel, w.queuename)

/-- A tick: whether there is a truck, the clock, and the work list. -/
structure DepTick where
  noVehicles : Bool
  now : ℤ
  work : List Bucket

def DepTick.works (i : DepTick) : List Bucket := i.work.filter fun w => w.coord.isSome && w.workEtaMs.isSome

/-- `s`. -/
def Bucket.slack (now : ℤ) (w : Bucket) : Option ℤ :=
  w.deadlineMs.bind fun d => w.procS.map fun p => (d - now).tdiv 1000 - p

/-- `raw`. -/
def rawTier : Option ℤ → ℕ
  | none => 2
  | some v => if v < 0 then 0 else if v < DEP_TIGHT_S then 1 else 2

/-- `t`, from the remembered tier. -/
def tier (p : ℕ) (s : Option ℤ) : ℕ :=
  if rawTier s ≤ p then rawTier s
  else
    let need := if p = 0 then DEP_HYST_S else DEP_TIGHT_S + DEP_HYST_S
    if need ≤ s.getD i64Max then rawTier s else p

/-- `prev_tier`. -/
abbrev Tiers := BucketKey → Option ℕ

/-- What a bucket adds to `next_tier`, `dep_slack` and `dep_tier`. -/
structure DepEntry where
  key : BucketKey
  slack : Option ℤ
  tier : ℕ
  deriving DecidableEq

def depEntry (now : ℤ) (prevTier : Tiers) (w : Bucket) : DepEntry :=
  ⟨w.key, w.slack now, tier ((prevTier w.key).getD (rawTier (w.slack now))) (w.slack now)⟩

/-- `next_tier.insert`. -/
def remember (nextTier : Tiers) (e : DepEntry) : Tiers := Function.update nextTier e.key (some e.tier)

/-- The tick ends before the loop. -/
def DepTick.idle (i : DepTick) : Bool := i.noVehicles || i.works.isEmpty

def depTick (i : DepTick) (prevTier : Tiers) : List DepEntry × Tiers :=
  if i.idle then ([], prevTier)
  else
    let entries := i.works.map (depEntry i.now prevTier)
    (entries, entries.foldl remember fun _ => none)

/-- The remembered tiers after the ticks. -/
def after (ticks : List DepTick) : Tiers := lastOf depTick ticks fun _ => none

/-! ## One bucket -/

def depBoundary : ℕ → ℤ
  | 0 => 0
  | _ => DEP_TIGHT_S

theorem depBoundary_mono : Monotone depBoundary := by
  refine monotone_nat_of_le_succ fun k => ?_
  cases k
  · decide
  · exact le_rfl

/-- A slack as a quantity: without a deadline it is above everything. -/
def asTop (s : Option ℤ) : WithTop ℤ := s

theorem coe_le_asTop {b : ℤ} {s : Option ℤ} : (b : WithTop ℤ) ≤ asTop s ↔ ∀ v, s = some v → b ≤ v := WithTop.coe_le_iff

/-- The tier with a hysteresis at each of its boundaries. -/
noncomputable def settledTier (p : ℕ) (s : Option ℤ) : ℕ :=
  settle (fun k => (depBoundary k : WithTop ℤ)) (fun k => ((depBoundary k + DEP_HYST_S : ℤ) : WithTop ℤ)) 2 p (asTop s)

/-- A late bucket whose slack has reached the upper boundary, and is still within the band of it. -/
def Leap (p : ℕ) (s : Option ℤ) : Prop := p = 0 ∧ ∃ v, s = some v ∧ DEP_TIGHT_S ≤ v ∧ v < DEP_TIGHT_S + DEP_HYST_S

theorem bound_mono (c : ℤ) : Monotone fun k => ((depBoundary k + c : ℤ) : WithTop ℤ) :=
  fun _ _ h => WithTop.coe_le_coe.mpr (add_le_add_left (depBoundary_mono h) c)

theorem lt_reached_dep (c : ℤ) {k : ℕ} {s : Option ℤ} :
    k < reached (fun k => ((depBoundary k + c : ℤ) : WithTop ℤ)) 2 (asTop s) ↔
      k < 2 ∧ ∀ v, s = some v → depBoundary k + c ≤ v := by
  rw [lt_reached (bound_mono c), coe_le_asTop]

theorem rawTier_some (v : ℤ) :
    (v < 0 ∧ rawTier (some v) = 0) ∨ (0 ≤ v ∧ v < 1800 ∧ rawTier (some v) = 1) ∨ (1800 ≤ v ∧ rawTier (some v) = 2) := by
  by_cases hlate : v < 0
  · exact Or.inl ⟨hlate, by simp [rawTier, hlate]⟩
  · by_cases htight : v < 1800
    · exact Or.inr (Or.inl ⟨by omega, htight, by simp [rawTier, DEP_TIGHT_S, hlate, htight]⟩)
    · exact Or.inr (Or.inr ⟨by omega, by simp [rawTier, DEP_TIGHT_S, hlate, htight]⟩)

theorem lt_rawTier {k : ℕ} {s : Option ℤ} : k < rawTier s ↔ k < 2 ∧ ∀ v, s = some v → depBoundary k ≤ v := by
  cases s with
  | none => simp [rawTier]
  | some v =>
    simp only [Option.some.injEq, forall_eq']
    have hraw := rawTier_some v
    match k with
    | 0 => simp only [depBoundary]; omega
    | 1 => simp only [depBoundary, DEP_TIGHT_S]; omega
    | k + 2 => omega

theorem rawTier_eq_reached (s : Option ℤ) :
    rawTier s = reached (fun k => ((depBoundary k : ℤ) : WithTop ℤ)) 2 (asTop s) := by
  refine eq_of_forall_lt_iff fun k => ?_
  have := lt_reached_dep 0 (k := k) (s := s)
  simp only [add_zero] at this
  rw [this, lt_rawTier]

/-- **The tier of the code is that of a level with hysteresis, but for a late bucket in the upper band.** -/
theorem tier_eq_settled {p : ℕ} {s : Option ℤ} (h : ¬ Leap p s) : tier p s = settledTier p s := by
  refine eq_of_forall_lt_iff fun k => ?_
  unfold settledTier settle
  rw [lt_max_iff, lt_min_iff, lt_reached_dep, ← rawTier_eq_reached, lt_rawTier]
  cases s with
  | none =>
    have htier : tier p none = 2 := by
      unfold tier rawTier
      split_ifs <;> simp_all [DEP_TIGHT_S, DEP_HYST_S, i64Max]
    rw [htier]
    simp only [reduceCtorEq, false_imp_iff, implies_true, and_true]
    omega
  | some v =>
    have hslack : p = 0 → v < 1800 ∨ 2100 ≤ v := by
      intro hp
      by_contra hband
      exact h ⟨hp, v, rfl, by simp only [DEP_TIGHT_S]; omega, by simp only [DEP_TIGHT_S, DEP_HYST_S]; omega⟩
    have hraw := rawTier_some v
    have hboundary : ∀ k, depBoundary k = if k = 0 then 0 else 1800 := by
      intro k
      cases k <;> rfl
    simp only [tier, Option.some.injEq, forall_eq', Option.getD_some, hboundary, DEP_TIGHT_S, DEP_HYST_S]
    split_ifs <;> omega

theorem settledTier_near {k p : ℕ} {v : ℤ} (hk : k < 2)
    (hnear : depBoundary k - DEP_HYST_S ≤ v ∧ v < depBoundary k + DEP_HYST_S) (hp : p ≤ k + 1) :
    settledTier p (some v) = k ∨ (p = k + 1 ∧ settledTier p (some v) = p) := by
  have hlow := fun j => lt_reached_dep DEP_HYST_S (k := j) (s := some v)
  have hraw := rawTier_some v
  unfold settledTier settle
  rw [← rawTier_eq_reached]
  have h0 := hlow 0
  have h1 := hlow 1
  have h2 := hlow 2
  generalize reached _ 2 (asTop (some v)) = low at h0 h1 h2 ⊢
  simp only [Option.some.injEq, forall_eq', depBoundary, DEP_HYST_S, DEP_TIGHT_S] at h0 h1 h2
  obtain rfl | rfl : k = 0 ∨ k = 1 := by omega
  · simp only [depBoundary, DEP_HYST_S] at hnear
    omega
  · simp only [depBoundary, DEP_HYST_S, DEP_TIGHT_S] at hnear
    omega

/-! ## Runs -/

theorem foldl_remember (entries : List DepEntry) (key : BucketKey) (m : Tiers) :
    ((∀ e ∈ entries, e.key ≠ key) ∧ entries.foldl remember m key = m key) ∨
      ∃ e ∈ entries, e.key = key ∧ entries.foldl remember m key = some e.tier := by
  induction entries generalizing m with
  | nil => exact Or.inl ⟨by simp, rfl⟩
  | cons e entries ih =>
    rw [List.foldl_cons]
    rcases ih (remember m e) with ⟨hnone, heq⟩ | ⟨e', he', hkey, heq⟩
    · by_cases hkey : e.key = key
      · refine Or.inr ⟨e, List.mem_cons_self, hkey, ?_⟩
        rw [heq, ← hkey, remember, Function.update_self]
      · refine Or.inl ⟨List.forall_mem_cons.mpr ⟨hkey, hnone⟩, ?_⟩
        rw [heq, remember, Function.update_of_ne (Ne.symm hkey)]
    · exact Or.inr ⟨e', List.mem_cons_of_mem _ he', hkey, heq⟩

theorem depTick_idle {i : DepTick} (hidle : i.idle) (m : Tiers) : depTick i m = ([], m) := if_pos hidle

theorem mem_depTick {i : DepTick} {m : Tiers} {e : DepEntry} (he : e ∈ (depTick i m).1) :
    ∃ w ∈ i.works, e = depEntry i.now m w := by
  unfold depTick at he
  split_ifs at he with hidle
  · simp at he
  · obtain ⟨w, hw, rfl⟩ := List.mem_map.mp he
    exact ⟨w, hw, rfl⟩

/-- A bucket in the list of a tick is remembered with the tier that one of its entries got. -/
theorem depTick_remembers {i : DepTick} {m : Tiers} {key : BucketKey} (hidle : ¬ i.idle)
    (hseen : ∃ w ∈ i.works, w.key = key) : ∃ w ∈ i.works, w.key = key ∧ depEntry i.now m w ∈ (depTick i m).1 ∧
      (depTick i m).2 key = some (depEntry i.now m w).tier := by
  have hticks : depTick i m =
      (i.works.map (depEntry i.now m), (i.works.map (depEntry i.now m)).foldl remember fun _ => none) := if_neg hidle
  rw [hticks]
  rcases foldl_remember (i.works.map (depEntry i.now m)) key fun _ => none with ⟨hnone, -⟩ | ⟨e, he, hkey, heq⟩
  · obtain ⟨w, hw, hkey⟩ := hseen
    exact absurd hkey (hnone _ (List.mem_map_of_mem hw))
  · obtain ⟨w, hw, rfl⟩ := List.mem_map.mp he
    exact ⟨w, hw, hkey, he, heq⟩

/-- Some tick of the run finds the bucket at the tier `p` with the slack `s` and gives it the tier `t`. -/
def Found (ticks : List DepTick) (key : BucketKey) (p : ℕ) (s : Option ℤ) (t : ℕ) : Prop :=
  ∃ pre i post, ticks = pre ++ i :: post ∧ after pre key = some p ∧ (⟨key, s, t⟩ : DepEntry) ∈ (depTick i (after pre)).1

/-- In the tick the slack of the bucket is within the band around the boundary above the tier `k`, or nothing is done. -/
def Near (key : BucketKey) (k : ℕ) (i : DepTick) : Prop :=
  i.idle ∨ (∃ w ∈ i.works, w.key = key) ∧ ∀ w ∈ i.works, w.key = key →
    ∃ v, w.slack i.now = some v ∧ depBoundary k - DEP_HYST_S ≤ v ∧ v < depBoundary k + DEP_HYST_S

/-- What the hysteresis is for. A bucket without a deadline is above every boundary. -/
structure Hysteretic (ticks : List DepTick) : Prop where
  urgent : ∀ key p s t, Found ticks key p s t → rawTier s ≤ p → t = rawTier s
  band : ∀ key p s t, Found ticks key p s t → ∀ k, p ≤ k → k < t → ∀ v, s = some v → depBoundary k + DEP_HYST_S ≤ v
  mono : ∀ key p s t, Found ticks key p s t → ∀ key' p' t', Found ticks key' p' s t' → p ≤ p' → t ≤ t'
  settled : ∀ key k, k < 2 → ∀ pre seg post, ticks = pre ++ seg ++ post → ∀ p, after pre key = some p → p ≤ k + 1 →
    (∀ i ∈ seg, Near key k i) → changes ((seg.scanl (fun m i => (depTick i m).2) (after pre)).map fun m => m key) ≤ 1

theorem Found.tier_eq {ticks : List DepTick} {key : BucketKey} {p t : ℕ} {s : Option ℤ} (h : Found ticks key p s t) :
    t = tier p s := by
  obtain ⟨pre, i, post, -, hp, hmem⟩ := h
  obtain ⟨w, -, heq⟩ := mem_depTick hmem
  obtain ⟨rfl, rfl, rfl⟩ := DepEntry.mk.inj heq
  rw [hp, Option.getD_some]

/-- Near a boundary a remembered tier that is not above it stays, or becomes the one below the boundary. -/
theorem depTick_near {key : BucketKey} {k p : ℕ} (hk : k < 2) {i : DepTick} {m : Tiers} (hnear : Near key k i)
    (hleap : ∀ e ∈ (depTick i m).1, e.key = key → ∀ p, m key = some p → ¬ Leap p e.slack) (hm : m key = some p)
    (hp : p ≤ k + 1) : (depTick i m).2 key = some k ∨ (p ≠ k ∧ (depTick i m).2 key = some p) ∨
      (i.idle ∧ (depTick i m).2 key = some p) := by
  by_cases hidle : i.idle
  · rw [depTick_idle hidle]
    exact Or.inr (Or.inr ⟨hidle, hm⟩)
  · obtain ⟨hseen, hslack⟩ := hnear.resolve_left hidle
    obtain ⟨w, hw, hkey, hmem, hafter⟩ := depTick_remembers (m := m) hidle hseen
    obtain ⟨v, hv, hwindow⟩ := hslack w hw hkey
    have htier : (depEntry i.now m w).tier = settledTier p (some v) := by
      rw [← tier_eq_settled (hv ▸ hleap _ hmem hkey p hm)]
      simp only [depEntry, hkey, hm, hv, Option.getD_some]
    rw [hafter, htier]
    rcases settledTier_near hk hwindow hp with heq | ⟨rfl, heq⟩
    · exact Or.inl (congrArg some heq)
    · exact Or.inr (Or.inl ⟨by omega, congrArg some heq⟩)

theorem after_append (pre seg : List DepTick) : after (pre ++ seg) = seg.foldl (fun m i => (depTick i m).2) (after pre) :=
  lastOf_append

theorem tier_of_leap {p : ℕ} {s : Option ℤ} (h : Leap p s) : tier p s = 2 ∧ p = 0 ∧
    ∃ v, s = some v ∧ v < depBoundary 1 + DEP_HYST_S := by
  obtain ⟨rfl, v, rfl, hge, hlt⟩ := h
  refine ⟨?_, rfl, v, rfl, hlt⟩
  have hraw := rawTier_some v
  simp only [DEP_TIGHT_S] at hge
  have htwo : rawTier (some v) = 2 := by omega
  have hneed : DEP_HYST_S ≤ v := by
    simp only [DEP_HYST_S]
    omega
  simp [tier, htwo, hneed]

/-- Without a leap a bucket changes its tier at most once while its slack is near one boundary. -/
theorem changes_near {ticks pre seg post : List DepTick} (hleap : ∀ key p s t, Found ticks key p s t → ¬ Leap p s)
    {key : BucketKey} {k p : ℕ} (hk : k < 2) (hticks : ticks = pre ++ seg ++ post) (hp : after pre key = some p)
    (hpk : p ≤ k + 1) (hnear : ∀ i ∈ seg, Near key k i) :
    changes ((seg.scanl (fun m i => (depTick i m).2) (after pre)).map fun m => m key) ≤ 1 := by
  refine changes_scanl (some k) (P := fun x => ∃ p, x = some p ∧ p ≤ k + 1)
    (R := fun m i => Near key k i ∧ ∀ e ∈ (depTick i m).1, e.key = key → ∀ p, m key = some p → ¬ Leap p e.slack)
    (fun m i hR hm => ?_) (fun m i hR hm => ?_) (fun pre' i post' hseg => ?_) ⟨p, hp, hpk⟩
  · rcases depTick_near hk hR.1 hR.2 hm (Nat.le_succ k) with h | ⟨h, -⟩ | ⟨-, h⟩
    · exact h
    · exact absurd rfl h
    · exact h
  · obtain ⟨q, hq, hqk⟩ := hm
    rcases depTick_near hk hR.1 hR.2 hq hqk with h | ⟨-, h⟩ | ⟨-, h⟩
    · exact Or.inr h
    · exact Or.inl (h.trans hq.symm)
    · exact Or.inl (h.trans hq.symm)
  · rw [← after_append]
    refine ⟨hnear i (by simp [hseg]), fun e he hkey q hq => ?_⟩
    refine hleap key q e.slack e.tier ⟨pre ++ pre', i, post' ++ post, by simp [hticks, hseg], hq, ?_⟩
    rw [← hkey]
    exact he

/-- **The tiers of a run have the hysteresis they are meant to have exactly when no tick finds a late bucket whose slack has
reached the upper boundary and is still within the band of it.** -/
theorem departure_tiers (ticks : List DepTick) :
    Hysteretic ticks ↔ ∀ key p s t, Found ticks key p s t → ¬ Leap p s := by
  constructor
  · intro h key p s t hfound hleap
    obtain ⟨htwo, rfl, v, rfl, hlt⟩ := tier_of_leap hleap
    rw [← hfound.tier_eq] at htwo
    exact hlt.not_ge (h.band key 0 (some v) t hfound 1 (by decide) (by omega) v rfl)
  · intro hleap
    have hsettled : ∀ {key p s t}, Found ticks key p s t → t = settledTier p s := fun hfound =>
      hfound.tier_eq.trans (tier_eq_settled (hleap _ _ _ _ hfound))
    refine ⟨fun key p s t hfound hle => ?_, fun key p s t hfound k hpk hkt v hv => ?_,
      fun key p s t hfound key' p' t' hfound' hle => ?_, fun key k hk pre seg post hticks p hp hpk hnear => ?_⟩
    · rw [hsettled hfound, rawTier_eq_reached]
      refine settle_of_lt (fun k => WithTop.coe_le_coe.mpr ?_) (rawTier_eq_reached s ▸ hle)
      simp [DEP_HYST_S]
    · rw [hsettled hfound] at hkt
      exact coe_le_asTop.mp (reached_of_lt_settle (bound_mono DEP_HYST_S) hpk hkt) v hv
    · rw [hsettled hfound, hsettled hfound']
      exact settle_mono hle
    · exact changes_near hleap hk hticks hp hpk hnear

/-- A tick with one bucket that has the deadline, and 1100 s of work left. -/
def oneBucket (now deadline : ℤ) : DepTick where
  noVehicles := false
  now := now
  work := [⟨"101", "VSL", "Q1", some (1, 1), some now, some deadline, some 1100⟩]

/-- A bucket that is 100 s late at one tick and, its deadline put off, has a slack of 1900 s at the next is ample at once. -/
theorem late_bucket_leaps : ¬ Hysteretic [oneBucket 0 1000000, oneBucket 60000 3060000] := by
  intro h
  have hfound : Found [oneBucket 0 1000000, oneBucket 60000 3060000] ("101", "VSL", "Q1") 0 (some 1900) 2 :=
    ⟨[oneBucket 0 1000000], oneBucket 60000 3060000, [], rfl, by decide, by decide⟩
  exact absurd (h.band _ _ _ _ hfound 1 (by decide) (by decide) 1900 rfl) (by decide)

end TtAiops.Stage2.DepTier
