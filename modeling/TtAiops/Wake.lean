import TtAiops.Lib.Marks

/-!
# The wait for the next tick (`wait_for_workpool_landing`)

Between two ticks the loop polls when the work list and the free events last landed, and wakes for what is new.

* `shouldWake`, `freeAdvanced`, `combineWake`, `advanceFreeSeen` : the decisions of a poll;
* `pollStep`, `waitForWorkpoolLanding`, `runPolls` : a poll, a wait, and the polls of successive waits;
* `pollStep_moves`, `pollStep_rises`, `pollStep_wakes`, `pollStep_first` : what a poll does to the baseline;
* `wake_once` : **every wake but the fallback raises the baseline, and nothing new is missed.**
-/

namespace TtAiops.Wake
open TtAiops.Lib

inductive WakeSrc
  | startup
  | landing
  | fallback
  | free
  deriving DecidableEq

inductive WakeStep
  | wake (src : WakeSrc)
  | keepWaiting
  deriving DecidableEq

def WAKE_MAX_WAIT_MS : ℕ := 150000

def shouldWake (seen landed : Option ℤ) (waited : ℕ) : WakeStep :=
  let otherwise := if WAKE_MAX_WAIT_MS ≤ waited then .wake .fallback else .keepWaiting
  match seen, landed with
  | none, some _ => .wake .startup
  | some seen, some landed => if seen < landed then .wake .landing else otherwise
  | _, none => otherwise

def freeAdvanced (seen landed : Option ℤ) : Bool :=
  match seen, landed with
  | some s, some l => s < l
  | _, _ => false

def combineWake (wp : WakeStep) (freeNew : Bool) : WakeStep :=
  match wp with
  | .wake .startup | .wake .landing => wp
  | _ => if freeNew then .wake .free else wp

def advanceFreeSeen (seen landed : Fin 2 → Option ℤ) (woke : Bool) : Fin 2 → Option ℤ := fun i =>
  if (landed i).isSome && (woke || (seen i).isNone) then landed i else seen i

/-- A row of `SQL_WORKPOOL_FRESHNESS`. -/
structure Row where
  age : Option ℤ
  tableAge : Option ℤ
  landed : Option ℤ
  ld : Option ℤ
  ds : Option ℤ

/-- A poll: the row or the error of the query, and how long the wait has lasted, in milliseconds. -/
structure Poll where
  row : Except String Row
  waited : ℕ

def Poll.landed (p : Poll) : Option ℤ := p.row.toOption.bind Row.landed

/-- `free_landed`: the load and the discharge events. -/
def Poll.freeLanded (p : Poll) : Fin 2 → Option ℤ :=
  match p.row with
  | .ok r => ![r.ld, r.ds]
  | .error _ => ![none, none]

def Poll.gateInput (p : Poll) : Except String (Option ℤ × Option ℤ) := p.row.map fun r => (r.age, r.tableAge)

/-- `seen` and `free_seen`, which outlast the waits. -/
structure Baseline where
  seen : Option ℤ
  freeSeen : Fin 2 → Option ℤ

def freeNew (wakeOnFree : Bool) (b : Baseline) (p : Poll) : Bool :=
  wakeOnFree && (List.finRange 2).any fun i => freeAdvanced (b.freeSeen i) (p.freeLanded i)

/-- The body of the loop of `wait_for_workpool_landing`. -/
def pollStep (wakeOnFree : Bool) (p : Poll) (b : Baseline) : WakeStep × Baseline :=
  match combineWake (shouldWake b.seen p.landed p.waited) (freeNew wakeOnFree b p) with
  | .wake src =>
    (.wake src, ⟨if p.landed.isSome then p.landed else b.seen, advanceFreeSeen b.freeSeen p.freeLanded true⟩)
  | .keepWaiting => (.keepWaiting, { b with freeSeen := advanceFreeSeen b.freeSeen p.freeLanded false })

/-- `wait_for_workpool_landing` over the polls to come: the reason and the last query, the baseline, and the polls that
are left. Without a reason it still waits when the polls end. -/
def waitForWorkpoolLanding (wakeOnFree : Bool) :
    List Poll → Baseline → Option (WakeSrc × Except String (Option ℤ × Option ℤ)) × Baseline × List Poll
  | [], b => (none, b, [])
  | p :: ps, b =>
    match pollStep wakeOnFree p b with
    | (.wake src, b') => (some (src, p.gateInput), b', ps)
    | (.keepWaiting, b') => waitForWorkpoolLanding wakeOnFree ps b'

/-- A poll with the baseline before and after it. -/
structure Outcome where
  before : Baseline
  poll : Poll
  step : WakeStep
  after : Baseline

def runPolls (wakeOnFree : Bool) : List Poll → Baseline → List Outcome
  | [], _ => []
  | p :: ps, b =>
    ⟨b, p, (pollStep wakeOnFree p b).1, (pollStep wakeOnFree p b).2⟩ :: runPolls wakeOnFree ps (pollStep wakeOnFree p b).2

def WakeStep.isLanding : WakeStep → Bool
  | .wake .fallback | .keepWaiting => false
  | .wake _ => true

/-- **A wait is the polls up to the first wake**, and the next wait goes on from there. -/
theorem runPolls_wait {wakeOnFree : Bool} {ps rest : List Poll} {b b' : Baseline} {src : WakeSrc}
    {gate : Except String (Option ℤ × Option ℤ)}
    (h : waitForWorkpoolLanding wakeOnFree ps b = (some (src, gate), b', rest)) :
    ∃ front last, runPolls wakeOnFree ps b = front ++ last :: runPolls wakeOnFree rest b' ∧
      (∀ o ∈ front, o.step = .keepWaiting) ∧ last.step = .wake src ∧ last.poll.gateInput = gate ∧ last.after = b' := by
  induction ps generalizing b with
  | nil => simp [waitForWorkpoolLanding] at h
  | cons p ps ih =>
    rw [waitForWorkpoolLanding] at h
    rcases hstep : pollStep wakeOnFree p b with ⟨_ | _, b1⟩ <;> rw [hstep] at h
    · obtain ⟨hgate, rfl, rfl⟩ : (_, _) = (src, gate) ∧ b1 = b' ∧ ps = rest := by simpa using h
      obtain ⟨rfl, rfl⟩ := Prod.mk.inj hgate
      refine ⟨[], ⟨b, p, (pollStep wakeOnFree p b).1, (pollStep wakeOnFree p b).2⟩, ?_, by simp, ?_, rfl, ?_⟩
      · rw [runPolls, hstep, List.nil_append]
      · rw [hstep]
      · rw [hstep]
    · obtain ⟨front, last, hrun, hfront, hlast⟩ := ih h
      refine ⟨⟨b, p, .keepWaiting, b1⟩ :: front, last, ?_, List.forall_mem_cons.mpr ⟨rfl, hfront⟩, hlast⟩
      rw [runPolls, hstep, hrun, List.cons_append]

/-! ## The baseline as marks -/

inductive Source
  | workpool
  | free (i : Fin 2)
  deriving DecidableEq

def sources : List Source := [.workpool, .free 0, .free 1]

theorem mem_sources (k : Source) : k ∈ sources := by
  rcases k with - | i
  · decide
  · fin_cases i <;> decide

def Baseline.mark (b : Baseline) : Source → Option ℤ
  | .workpool => b.seen
  | .free i => b.freeSeen i

def Poll.value (p : Poll) : Source → Option ℤ
  | .workpool => p.landed
  | .free i => p.freeLanded i

theorem pollStep_moves (wakeOnFree : Bool) (p : Poll) (b : Baseline) :
    Moves b.mark (pollStep wakeOnFree p b).2.mark p.value := by
  have hfree : ∀ woke i, advanceFreeSeen b.freeSeen p.freeLanded woke i = b.freeSeen i ∨
      (p.freeLanded i).isSome = true ∧ advanceFreeSeen b.freeSeen p.freeLanded woke i = p.freeLanded i := by
    intro woke i
    unfold advanceFreeSeen
    split_ifs with h
    · exact Or.inr ⟨(Bool.and_eq_true_iff.mp h).1, rfl⟩
    · exact Or.inl rfl
  intro k
  unfold pollStep
  split
  · cases k with
    | workpool =>
      simp only [Baseline.mark, Poll.value]
      split_ifs with h
      · exact Or.inr ⟨h, rfl⟩
      · exact Or.inl rfl
    | free i => exact hfree true i
  · cases k with
    | workpool => exact Or.inl rfl
    | free i => exact hfree false i

/-- What the source has landed is new: for the work list anything beyond the baseline, for free events only beyond a
baseline that the source already has. -/
def IsNew (b : Baseline) (p : Poll) : Source → Prop
  | .workpool => Beyond b.seen p.landed
  | .free i => (b.freeSeen i).isSome = true ∧ Beyond (b.freeSeen i) (p.freeLanded i)

theorem freeAdvanced_iff {seen landed : Option ℤ} :
    freeAdvanced seen landed = true ↔ seen.isSome = true ∧ Beyond seen landed := by
  unfold freeAdvanced Beyond
  cases seen <;> cases landed <;> simp

theorem freeNew_iff {b : Baseline} {p : Poll} : freeNew true b p = true ↔ ∃ i, IsNew b p (.free i) := by
  simp only [freeNew, Bool.true_and, List.any_eq_true, List.mem_finRange, true_and, IsNew]
  exact exists_congr fun i => freeAdvanced_iff

theorem shouldWake_isLanding_iff {seen landed : Option ℤ} {waited : ℕ} :
    (shouldWake seen landed waited).isLanding = true ↔ Beyond seen landed := by
  have hfallback : (if WAKE_MAX_WAIT_MS ≤ waited then WakeStep.wake .fallback else .keepWaiting).isLanding = false := by
    split_ifs <;> rfl
  cases landed with
  | none => cases seen <;> simp [shouldWake, Beyond, hfallback]
  | some l =>
    cases seen with
    | none => simp [shouldWake, Beyond, WakeStep.isLanding]
    | some s =>
      by_cases hlt : s < l
      · simp [shouldWake, Beyond, WakeStep.isLanding, hlt]
      · simp [shouldWake, Beyond, hfallback, hlt]

theorem combineWake_isLanding_iff {wp : WakeStep} {freeNew : Bool} :
    (combineWake wp freeNew).isLanding = true ↔ wp.isLanding = true ∨ freeNew = true := by
  rcases wp with (_ | _ | _ | _) | _ <;> cases freeNew <;> decide

theorem pollStep_fst (wakeOnFree : Bool) (p : Poll) (b : Baseline) :
    (pollStep wakeOnFree p b).1 = combineWake (shouldWake b.seen p.landed p.waited) (freeNew wakeOnFree b p) := by
  unfold pollStep
  split <;> simp [*]

/-- **The loop wakes for a landing exactly when a source has something new.** -/
theorem pollStep_wakes {p : Poll} {b : Baseline} :
    (pollStep true p b).1.isLanding = true ↔ ∃ k, IsNew b p k := by
  rw [pollStep_fst, combineWake_isLanding_iff, shouldWake_isLanding_iff, freeNew_iff]
  constructor
  · rintro (h | ⟨i, h⟩)
    · exact ⟨.workpool, h⟩
    · exact ⟨.free i, h⟩
  · rintro ⟨_ | i, h⟩
    · exact Or.inl h
    · exact Or.inr ⟨i, h⟩

theorem pollStep_takes {p : Poll} {b : Baseline} {src : WakeSrc} (h : (pollStep true p b).1 = .wake src) {k : Source}
    (hk : (p.value k).isSome = true) : (pollStep true p b).2.mark k = p.value k := by
  rw [pollStep_fst] at h
  unfold pollStep
  rw [h]
  cases k with
  | workpool => exact if_pos hk
  | free i =>
    change (p.freeLanded i).isSome = true at hk
    simp [Baseline.mark, Poll.value, advanceFreeSeen, hk]

/-- **A wake for a landing raises the mark of a source.** -/
theorem pollStep_rises {p : Poll} {b : Baseline} (h : (pollStep true p b).1.isLanding = true) :
    ∃ k, Beyond (b.mark k) ((pollStep true p b).2.mark k) := by
  obtain ⟨k, hk⟩ := pollStep_wakes.mp h
  obtain ⟨src, hsrc⟩ : ∃ src, (pollStep true p b).1 = .wake src := by
    rcases hstep : (pollStep true p b).1 with src | _
    · exact ⟨src, rfl⟩
    · rw [hstep] at h
      exact absurd h (by decide)
  have hbeyond : Beyond (b.mark k) (p.value k) := by
    cases k with
    | workpool => exact hk
    | free i => exact hk.2
  have hsome : (p.value k).isSome = true := Option.isSome_iff_exists.mpr ⟨_, hbeyond.choose_spec.1⟩
  exact ⟨k, by rw [pollStep_takes hsrc hsome]; exact hbeyond⟩

/-- The poll without what free source `i` has landed. -/
def Poll.without (p : Poll) (i : Fin 2) : Poll :=
  { p with row := p.row.map fun r => if i = 0 then { r with ld := none } else { r with ds := none } }

theorem without_landed (p : Poll) (i : Fin 2) : (p.without i).landed = p.landed := by
  unfold Poll.landed Poll.without
  rcases p.row with _ | r
  · rfl
  · simp only [Except.map, Except.toOption, Option.bind_some]
    split_ifs <;> rfl

theorem without_freeLanded (p : Poll) (i j : Fin 2) :
    (p.without i).freeLanded j = if j = i then none else p.freeLanded j := by
  unfold Poll.freeLanded Poll.without
  rcases p.row with _ | r
  · fin_cases j <;> simp [Except.map]
  · fin_cases i <;> fin_cases j <;> simp [Except.map]

/-- **A free source without a baseline gets one, and the loop does as if the source had landed nothing.** -/
theorem pollStep_first {p : Poll} {b : Baseline} {i : Fin 2} (hb : b.freeSeen i = none) {v : ℤ}
    (hv : p.freeLanded i = some v) :
    (pollStep true p b).2.freeSeen i = some v ∧ (pollStep true p b).1 = (pollStep true (p.without i) b).1 := by
  constructor
  · unfold pollStep
    split <;> simp [advanceFreeSeen, hb, hv]
  · have hnew : freeNew true b (p.without i) = freeNew true b p := by
      rw [Bool.eq_iff_iff, freeNew_iff, freeNew_iff]
      refine exists_congr fun j => ?_
      simp only [IsNew, without_freeLanded]
      split_ifs with hj
      · subst hj
        simp [hb]
      · rfl
    rw [pollStep_fst, pollStep_fst, without_landed, hnew]
    rfl

/-! ## Runs -/

def freshBaseline : Baseline := ⟨none, fun _ => none⟩

theorem runPolls_behind {ps : List Poll} {b : Baseline} (hbehind : Behind b.mark (ps.map Poll.value))
    (hrising : Rising (ps.map Poll.value)) {o : Outcome} (ho : o ∈ runPolls true ps b) :
    ((o.step, o.after) = pollStep true o.poll o.before) ∧ Behind o.before.mark [o.poll.value] := by
  induction ps generalizing b with
  | nil => exact absurd ho List.not_mem_nil
  | cons p ps ih =>
    rcases List.mem_cons.mp ho with rfl | ho
    · refine ⟨rfl, fun k x hx q hq => ?_⟩
      rw [List.mem_singleton.mp hq]
      exact hbehind k x hx p.value List.mem_cons_self
    · exact ih ((pollStep_moves true p b).behind hbehind hrising) (List.pairwise_cons.mp hrising).2 ho

theorem countP_runPolls (ps : List Poll) (b : Baseline) :
    (runPolls true ps b).countP (fun o => o.step.isLanding) =
      countRun (fun p b => ((pollStep true p b).1.isLanding, (pollStep true p b).2)) ps b := by
  induction ps generalizing b with
  | nil => rfl
  | cons p ps ih =>
    rw [runPolls, List.countP_cons, ih, countRun, add_comm]

/-- **The wait neither spins nor misses a landing.** Over the polls of any number of waits, when no source goes back:
every wake but the fallback raises the mark of a source, so there are at most as many as values seen; no mark is lost or
goes back, and nothing but a value changes it; what is new wakes the loop at that poll; and a free source without a
baseline only gets one. -/
theorem wake_once (ps : List Poll) (hrising : Rising (ps.map Poll.value)) :
    (∀ o ∈ runPolls true ps freshBaseline, o.step.isLanding = true → ∃ k, Beyond (o.before.mark k) (o.after.mark k)) ∧
      (runPolls true ps freshBaseline).countP (fun o => o.step.isLanding) ≤ (seenValues Poll.value sources ps).card ∧
      (∀ o ∈ runPolls true ps freshBaseline, ∀ k, (∀ x ∈ o.before.mark k, ∃ y ∈ o.after.mark k, x ≤ y) ∧
        (o.poll.value k = none → o.after.mark k = o.before.mark k)) ∧
      (∀ o ∈ runPolls true ps freshBaseline, ∀ k, IsNew o.before o.poll k → o.step.isLanding = true) ∧
      ∀ o ∈ runPolls true ps freshBaseline, ∀ i v, o.before.freeSeen i = none → o.poll.freeLanded i = some v →
        o.after.freeSeen i = some v ∧ o.step = (pollStep true (o.poll.without i) o.before).1 := by
  have hfresh : Behind freshBaseline.mark (ps.map Poll.value) := by
    rintro (_ | i) b hb <;> simp [freshBaseline, Baseline.mark] at hb
  have hstep : ∀ o ∈ runPolls true ps freshBaseline, o.step = (pollStep true o.poll o.before).1 ∧
      o.after = (pollStep true o.poll o.before).2 ∧ Behind o.before.mark [o.poll.value] := by
    intro o ho
    obtain ⟨h, hbehind⟩ := runPolls_behind hfresh hrising ho
    exact ⟨congrArg Prod.fst h, congrArg Prod.snd h, hbehind⟩
  refine ⟨fun o ho h => ?_, ?_, fun o ho k => ?_, fun o ho k hk => ?_, fun o ho i v hb hv => ?_⟩
  · obtain ⟨hs, ha, -⟩ := hstep o ho
    rw [ha]
    exact pollStep_rises (hs ▸ h)
  · rw [countP_runPolls]
    exact rises_le Baseline.mark Poll.value sources mem_sources (fun p b => pollStep_moves true p b)
      (fun p b h => pollStep_rises h) ps freshBaseline hfresh hrising
  · obtain ⟨-, ha, hbehind⟩ := hstep o ho
    have hmoves := pollStep_moves true o.poll o.before
    rw [ha]
    refine ⟨fun x hx => hmoves.le hbehind hx, fun hnone => ?_⟩
    rcases hmoves k with h | ⟨hsome, -⟩
    · exact h
    · rw [hnone] at hsome
      exact absurd hsome (by decide)
  · rw [(hstep o ho).1]
    exact pollStep_wakes.mpr ⟨k, hk⟩
  · obtain ⟨hs, ha, -⟩ := hstep o ho
    rw [hs, ha]
    exact pollStep_first hb hv

/-- The first free event only sets a baseline; the work list and the next free event wake the loop. -/
def threePolls : List Poll :=
  [⟨.ok ⟨none, none, none, some 1, none⟩, 0⟩, ⟨.ok ⟨some 0, some 0, some 5, some 1, none⟩, 2000⟩,
    ⟨.ok ⟨some 2, some 2, some 5, some 2, none⟩, 0⟩]

theorem wake_once_three :
    (runPolls true threePolls freshBaseline).map Outcome.step = [.keepWaiting, .wake .startup, .wake .free] ∧
      (runPolls true threePolls freshBaseline).countP (fun o => o.step.isLanding) ≤
        (seenValues Poll.value sources threePolls).card := by
  refine ⟨by decide, (wake_once threePolls ?_).2.1⟩
  simp only [threePolls, List.map_cons, List.map_nil, Rising, List.pairwise_cons, List.Pairwise.nil, and_true,
    List.mem_cons, List.not_mem_nil, or_false, forall_eq_or_imp, forall_eq, false_imp_iff, forall_const]
  refine ⟨⟨fun k v hv w hw => ?_, fun k v hv w hw => ?_⟩, fun k v hv w hw => ?_⟩ <;>
    rcases k with _ | i <;> try fin_cases i
  all_goals
    simp [Poll.value, Poll.landed, Poll.freeLanded, Except.toOption] at hv hw
  all_goals omega

end TtAiops.Wake
