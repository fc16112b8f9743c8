import Mathlib

/-!
# Runs made of stages

A step of a loop is a list of stages. A stage reads the state, has effects one after the other (each an event with the
state after it) and says whether the step goes on; a crash can stop the loop between any two effects.

* `Stage`, `runStages` : stages run in turn until one of them ends the step;
* `runStages_inv`, `runStages_inv_at` : what every stage keeps (under a condition on the state in which it starts) holds
  after every effect;
* `Reached`, `Reached.inv` : the states reached by steps and crashes, and their invariants;
* `events_forall`, `events_pairwise` : what holds of every event, and of any two events one after the other;
* `Until`, `Keeps`, `runStages_until` : nothing bad happens up to an ending event, if every stage keeps the state in
  which nothing bad can happen up to such an event;
* `Starts`, `starts_cons`, `starts_steps` : the same from an event on that puts the loop into that state.

A step is itself a stage (`stepStage`), so the same rules serve runs of many steps. Where a step has one effect, a run is
`runInputs`, with `runInputs_inv` as its rule.
-/

namespace TtAiops.Lib

variable {E S : Type*}

/-- The effects of a stage, each with the state after it, and whether the step goes on. -/
abbrev Stage (E S : Type*) := S → List (E × S) × Bool

/-- The state after the effects `l`, from `s` on. -/
def lastState (s : S) (l : List (E × S)) : S := (l.getLast?.map Prod.snd).getD s

def events (l : List (E × S)) : List E := l.map Prod.fst

def runStages : List (Stage E S) → S → List (E × S)
  | [], _ => []
  | f :: fs, s => (f s).1 ++ if (f s).2 then runStages fs (lastState s (f s).1) else []

/-- A list of stages as one stage; what follows it runs in any case. -/
def stepStage (fs : List (Stage E S)) : Stage E S := fun s => (runStages fs s, true)

@[simp] theorem lastState_nil (s : S) : lastState s ([] : List (E × S)) = s := rfl

@[simp] theorem lastState_cons (s : S) (x : E × S) (l : List (E × S)) : lastState s (x :: l) = lastState x.2 l := by
  unfold lastState
  rw [List.getLast?_cons]
  cases l.getLast? <;> rfl

theorem lastState_append (s : S) (l l' : List (E × S)) : lastState s (l ++ l') = lastState (lastState s l) l' := by
  induction l generalizing s with
  | nil => rfl
  | cons x l ih => rw [List.cons_append, lastState_cons, lastState_cons, ih]

@[simp] theorem events_append (l l' : List (E × S)) : events (l ++ l') = events l ++ events l' := List.map_append

theorem lastState_of_forall {P : S → Prop} {s : S} {l : List (E × S)} (hs : P s) (h : ∀ x ∈ l, P x.2) :
    P (lastState s l) := by
  induction l generalizing s with
  | nil => exact hs
  | cons x l ih =>
    rw [lastState_cons]
    exact ih (h x List.mem_cons_self) fun y hy => h y (List.mem_cons_of_mem _ hy)

/-- **An invariant of the stages holds after every effect of a run.** -/
theorem runStages_inv {P : S → Prop} {fs : List (Stage E S)} (h : ∀ f ∈ fs, ∀ s, P s → ∀ x ∈ (f s).1, P x.2) {s : S}
    (hs : P s) : ∀ x ∈ runStages fs s, P x.2 := by
  induction fs generalizing s with
  | nil => exact fun x hx => absurd hx List.not_mem_nil
  | cons f fs ih =>
    intro x hx
    have hf := h f List.mem_cons_self s hs
    rcases List.mem_append.mp hx with hx | hx
    · exact hf x hx
    · split_ifs at hx
      · exact ih (fun g hg => h g (List.mem_cons_of_mem _ hg)) (lastState_of_forall hs hf) x hx
      · exact absurd hx List.not_mem_nil

/-- The rule for one stage in front of others that need a state with `R`. -/
theorem runStages_inv_cons {P Q R : S → Prop} {f : Stage E S} {fs : List (Stage E S)}
    (hf : ∀ s, Q s → ∀ x ∈ (f s).1, P x.2) (hgo : ∀ s, Q s → (f s).2 = true → R (lastState s (f s).1))
    (hfs : ∀ s, R s → ∀ x ∈ runStages fs s, P x.2) {s : S} (hs : Q s) : ∀ x ∈ runStages (f :: fs) s, P x.2 := by
  intro x hx
  rcases List.mem_append.mp hx with hx | hx
  · exact hf s hs x hx
  · split_ifs at hx with hok
    · exact hfs _ (hgo s hs hok) x hx
    · exact absurd hx List.not_mem_nil

/-- The conditions hold in the states in which their stages start. -/
def AtStages : List (Stage E S × (S → Prop)) → S → Prop
  | [], _ => True
  | (f, c) :: fs, s => c s ∧ ((f s).2 = true → AtStages fs (lastState s (f s).1))

/-- The rule for stages that keep an invariant under a condition on the state in which they start. -/
theorem runStages_inv_at {P : S → Prop} {fs : List (Stage E S × (S → Prop))}
    (h : ∀ fc ∈ fs, ∀ s, P s → fc.2 s → ∀ x ∈ (fc.1 s).1, P x.2) {s : S} (hs : P s) (hat : AtStages fs s) :
    ∀ x ∈ runStages (fs.map Prod.fst) s, P x.2 := by
  induction fs generalizing s with
  | nil => exact fun x hx => absurd hx List.not_mem_nil
  | cons fc fs ih =>
    obtain ⟨f, c⟩ := fc
    have hf := h (f, c) List.mem_cons_self s hs hat.1
    intro x hx
    rcases List.mem_append.mp hx with hx | hx
    · exact hf x hx
    · split_ifs at hx with hok
      · exact ih (fun fc hfc => h fc (List.mem_cons_of_mem _ hfc)) (lastState_of_forall hs hf) (hat.2 hok) x hx
      · exact absurd hx List.not_mem_nil

/-- The states in which a loop takes its next step: it has taken steps that were `ok`, and it may have crashed after any
effect and been restarted. -/
inductive Reached {I : Type*} (step : I → S → List (E × S)) (ok : I → S → Prop) (restart : S → S) (init : S) : S → Prop
  | init : Reached step ok restart init init
  | step {s : S} (i : I) : Reached step ok restart init s → ok i s → Reached step ok restart init (lastState s (step i s))
  | crash {s : S} (i : I) {x : E × S} : Reached step ok restart init s → ok i s → x ∈ step i s →
      Reached step ok restart init (restart x.2)
  | crashIdle {s : S} : Reached step ok restart init s → Reached step ok restart init (restart s)

/-- **An invariant of the steps and of the restart holds in every state reached.** -/
theorem Reached.inv {I : Type*} {step : I → S → List (E × S)} {ok : I → S → Prop} {restart : S → S} {init : S}
    {P : S → Prop} (hinit : P init) (hstep : ∀ i s, P s → ok i s → ∀ x ∈ step i s, P x.2)
    (hrestart : ∀ s, P s → P (restart s)) {s : S} (h : Reached step ok restart init s) : P s := by
  induction h with
  | init => exact hinit
  | step i _ hok ih => exact lastState_of_forall ih (hstep i _ ih hok)
  | crash i _ hok hx ih => exact hrestart _ (hstep i _ ih hok _ hx)
  | crashIdle _ ih => exact hrestart _ ih

/-- What holds of every event of the stages holds of every event of a run. -/
theorem events_forall {p : E → Prop} {fs : List (Stage E S)} (h : ∀ f ∈ fs, ∀ s, ∀ e ∈ events (f s).1, p e) {s : S} :
    ∀ e ∈ events (runStages fs s), p e := by
  induction fs generalizing s with
  | nil => exact fun e he => absurd he List.not_mem_nil
  | cons f fs ih =>
    intro e he
    rw [runStages, events_append] at he
    rcases List.mem_append.mp he with he | he
    · exact h f List.mem_cons_self s e he
    · split_ifs at he
      · exact ih (fun g hg => h g (List.mem_cons_of_mem _ hg)) e he
      · exact absurd he List.not_mem_nil

/-- What holds of every effect of the stages holds of every effect of a run. -/
theorem effects_forall {p : E × S → Prop} {fs : List (Stage E S)} (h : ∀ f ∈ fs, ∀ s, ∀ e ∈ (f s).1, p e) {s : S} :
    ∀ e ∈ runStages fs s, p e := by
  induction fs generalizing s with
  | nil => exact fun e he => absurd he List.not_mem_nil
  | cons f fs ih =>
    intro e he
    rw [runStages] at he
    rcases List.mem_append.mp he with he | he
    · exact h f List.mem_cons_self s e he
    · split_ifs at he
      · exact ih (fun g hg => h g (List.mem_cons_of_mem _ hg)) e he
      · exact absurd he List.not_mem_nil

/-- **The events of a run are pairwise related.** `B s e` : a run from `s` on may have the event `e`. -/
theorem events_pairwise {P : S → Prop} {B : S → E → Prop} {R : E → E → Prop} {fs : List (Stage E S × (S → Prop))}
    (h : ∀ fc ∈ fs, ∀ s, P s → fc.2 s → P (lastState s (fc.1 s).1) ∧ (events (fc.1 s).1).Pairwise R ∧
      (∀ e ∈ events (fc.1 s).1, B s e ∧ ∀ e', B (lastState s (fc.1 s).1) e' → R e e') ∧
      ∀ e, B (lastState s (fc.1 s).1) e → B s e)
    {s : S} (hs : P s) (hat : AtStages fs s) :
    (events (runStages (fs.map Prod.fst) s)).Pairwise R ∧ ∀ e ∈ events (runStages (fs.map Prod.fst) s), B s e := by
  induction fs generalizing s with
  | nil => exact ⟨List.Pairwise.nil, fun e he => absurd he List.not_mem_nil⟩
  | cons fc fs ih =>
    obtain ⟨hlast, hpair, hnow, hlater⟩ := h fc List.mem_cons_self s hs hat.1
    rw [List.map_cons, runStages, events_append]
    split_ifs with hgo
    · obtain ⟨hrest, hbound⟩ := ih (fun fc' hfc' => h fc' (List.mem_cons_of_mem _ hfc')) hlast (hat.2 hgo)
      refine ⟨List.pairwise_append.mpr ⟨hpair, hrest, fun e he e' he' => (hnow e he).2 e' (hbound e' he')⟩, ?_⟩
      intro e he
      rcases List.mem_append.mp he with he | he
      · exact (hnow e he).1
      · exact hlater e (hbound e he)
    · rw [show events ([] : List (E × S)) = [] from rfl, List.append_nil]
      exact ⟨hpair, fun e he => (hnow e he).1⟩

/-! ## Until an event -/

/-- Nothing bad happens up to an ending event, that event included. -/
def Until (ends bad : E → Prop) : List E → Prop
  | [] => True
  | e :: es => ¬ bad e ∧ (ends e ∨ Until ends bad es)

variable {ends bad : E → Prop}

theorem until_append {l l' : List E} (h : Until ends bad l) (h' : (∀ e ∈ l, ¬ ends e) → Until ends bad l') :
    Until ends bad (l ++ l') := by
  induction l with
  | nil => exact h' fun e he => absurd he List.not_mem_nil
  | cons e l ih =>
    obtain ⟨hbad, hl⟩ := h
    refine ⟨hbad, ?_⟩
    by_cases he : ends e
    · exact Or.inl he
    · exact Or.inr (ih (hl.resolve_left he) fun hno => h' (List.forall_mem_cons.mpr ⟨he, hno⟩))

theorem until_of_not_bad {l : List E} (h : ∀ e ∈ l, ¬ bad e) : Until ends bad l := by
  induction l with
  | nil => trivial
  | cons e l ih => exact ⟨h e List.mem_cons_self, Or.inr (ih fun x hx => h x (List.mem_cons_of_mem _ hx))⟩

theorem Until.exists_ends {pre post : List E} {e : E} (h : Until ends bad (pre ++ e :: post)) (he : bad e) :
    ∃ x ∈ pre, ends x := by
  induction pre with
  | nil => exact absurd he h.1
  | cons x pre ih =>
    rcases h.2 with h | h
    · exact ⟨x, List.mem_cons_self, h⟩
    · obtain ⟨y, hy, hey⟩ := ih h
      exact ⟨y, List.mem_cons_of_mem _ hy, hey⟩

/-- What a stage owes from a state in which nothing bad can happen: it does nothing bad up to an ending event, and
without an ending event it stays in such a state. -/
def Keeps (P : S → Prop) (ends bad : E → Prop) (f : Stage E S) : Prop :=
  ∀ s, P s → Until ends bad (events (f s).1) ∧ ((∀ e ∈ events (f s).1, ¬ ends e) → P (lastState s (f s).1))

theorem keeps_silent {P : S → Prop} {f : Stage E S} (h : ∀ s, P s → (f s).1 = []) : Keeps P ends bad f := by
  intro s hs
  rw [h s hs]
  exact ⟨trivial, fun _ => hs⟩

/-- **Nothing bad happens up to an ending event.** -/
theorem runStages_until {P : S → Prop} {fs : List (Stage E S)} (h : ∀ f ∈ fs, Keeps P ends bad f) {s : S} (hs : P s) :
    Until ends bad (events (runStages fs s)) ∧
      ((∀ e ∈ events (runStages fs s), ¬ ends e) → P (lastState s (runStages fs s))) := by
  induction fs generalizing s with
  | nil => exact ⟨trivial, fun _ => hs⟩
  | cons f fs ih =>
    obtain ⟨hf, hlast⟩ := h f List.mem_cons_self s hs
    have hrest : ∀ g ∈ fs, Keeps P ends bad g := fun g hg => h g (List.mem_cons_of_mem _ hg)
    rw [runStages, events_append, lastState_append]
    split_ifs with hgo
    · refine ⟨until_append hf fun hno => (ih hrest (hlast hno)).1, fun hno => ?_⟩
      have hno1 := hlast fun e he => hno e (List.mem_append_left _ he)
      exact (ih hrest hno1).2 fun e he => hno e (List.mem_append_right _ he)
    · rw [show events ([] : List (E × S)) = [] from rfl, List.append_nil, lastState_nil]
      exact ⟨hf, hlast⟩

theorem keeps_stepStage {P : S → Prop} {fs : List (Stage E S)} (h : ∀ f ∈ fs, Keeps P ends bad f) :
    Keeps P ends bad (stepStage fs) := fun _ hs => runStages_until h hs

/-- After a starting event of a run from a state with `Q` nothing bad happens up to an ending event, and without one the
run ends in a state with `P`. -/
def Starts (Q P : S → Prop) (starts ends bad : E → Prop) (run : S → List (E × S)) : Prop :=
  ∀ s, Q s → ∀ pre e post, events (run s) = pre ++ e :: post → starts e →
    Until ends bad post ∧ ((∀ x ∈ post, ¬ ends x) → P (lastState s (run s)))

variable {Q R P : S → Prop} {starts : E → Prop}

theorem starts_silent {run : S → List (E × S)} (h : ∀ s, Q s → ∀ e ∈ events (run s), ¬ starts e) :
    Starts Q P starts ends bad run := by
  intro s hs pre e post hsplit he
  exact absurd he (h s hs e (by rw [hsplit]; simp))

theorem starts_cons {f : Stage E S} {fs : List (Stage E S)} (hf : Starts Q P starts ends bad fun s => (f s).1)
    (hgo : ∀ s, Q s → (f s).2 = true → R (lastState s (f s).1)) (hkeep : ∀ g ∈ fs, Keeps P ends bad g)
    (hfs : Starts R P starts ends bad (runStages fs)) : Starts Q P starts ends bad (runStages (f :: fs)) := by
  intro s hs pre e post hsplit he
  rw [runStages, events_append] at hsplit
  rw [runStages, lastState_append]
  split_ifs at hsplit ⊢ with hok
  · -- the event lies in the stages that follow, or in this one
    rcases List.append_eq_append_iff.mp hsplit with ⟨mid, hpre, hrest⟩ | ⟨mid, hmid, hrest⟩
    · exact hfs _ (hgo s hs hok) mid e post hrest he
    · cases mid with
      | nil =>
        rw [List.nil_append] at hrest
        exact hfs _ (hgo s hs hok) [] e post hrest.symm he
      | cons x mid =>
        obtain ⟨rfl, rfl⟩ : e = x ∧ post = mid ++ events (runStages fs (lastState s (f s).1)) := by
          simpa using hrest
        obtain ⟨hm, hlast⟩ := hf s hs pre e mid hmid he
        refine ⟨until_append hm fun hno => (runStages_until hkeep (hlast hno)).1, fun hno => ?_⟩
        have hno1 := hlast fun y hy => hno y (List.mem_append_left _ hy)
        exact (runStages_until hkeep hno1).2 fun y hy => hno y (List.mem_append_right _ hy)
  · rw [show events ([] : List (E × S)) = [] from rfl, List.append_nil] at hsplit
    exact hf s hs pre e post hsplit he

theorem starts_nil : Starts Q P starts ends bad (runStages ([] : List (Stage E S))) :=
  starts_silent fun _ _ _ he => absurd he List.not_mem_nil

/-- **After a starting event of a run of steps nothing bad happens up to an ending event.** -/
theorem starts_steps {steps : List (List (Stage E S))} (hkeep : ∀ fs ∈ steps, ∀ f ∈ fs, Keeps P ends bad f)
    (hstart : ∀ fs ∈ steps, Starts (fun _ => True) P starts ends bad (runStages fs)) :
    Starts (fun _ => True) P starts ends bad (runStages (steps.map stepStage)) := by
  induction steps with
  | nil => exact starts_nil
  | cons fs steps ih =>
    obtain ⟨hk, hkeep'⟩ := List.forall_mem_cons.mp hkeep
    obtain ⟨hs, hstart'⟩ := List.forall_mem_cons.mp hstart
    refine starts_cons hs (fun _ _ _ => trivial) (fun g hg => ?_) (ih hkeep' hstart')
    obtain ⟨fs', hfs', rfl⟩ := List.mem_map.mp hg
    exact keeps_stepStage (hkeep' fs' hfs')

/-! ## Inputs one after the other -/

section Inputs

variable {I : Type*} (step : I → S → E × S)

/-- What the inputs bring about one after the other, each with the state after it. -/
def runInputs : List I → S → List (E × S)
  | [], _ => []
  | i :: is, s => step i s :: runInputs is (step i s).2

def lastOf (is : List I) (s : S) : S := is.foldl (fun s i => (step i s).2) s

/-- Every input is `ok` in the state in which it comes. -/
def Meets (ok : I → S → Prop) : List I → S → Prop
  | [], _ => True
  | i :: is, s => ok i s ∧ Meets ok is (step i s).2

variable {step}

theorem lastOf_append {is is' : List I} {s : S} : lastOf step (is ++ is') s = lastOf step is' (lastOf step is s) :=
  List.foldl_append

theorem runInputs_append {is is' : List I} {s : S} :
    runInputs step (is ++ is') s = runInputs step is s ++ runInputs step is' (lastOf step is s) := by
  induction is generalizing s with
  | nil => rfl
  | cons i is ih =>
    show step i s :: runInputs step (is ++ is') _ = step i s :: (runInputs step is _ ++ _)
    rw [ih]
    rfl

theorem meets_of_inv {P : S → Prop} {ok : I → S → Prop} {is : List I}
    (h : ∀ i ∈ is, ∀ s, P s → ok i s ∧ P (step i s).2) {s : S} (hs : P s) : Meets step ok is s := by
  induction is generalizing s with
  | nil => trivial
  | cons i is ih =>
    obtain ⟨hok, hnext⟩ := h i List.mem_cons_self s hs
    exact ⟨hok, ih (fun i' hi' => h i' (List.mem_cons_of_mem _ hi')) hnext⟩

theorem Meets.imp {ok ok' : I → S → Prop} {is : List I} {s : S} (h : Meets step ok is s)
    (himp : ∀ i ∈ is, ∀ s, ok i s → ok' i s) : Meets step ok' is s := by
  induction is generalizing s with
  | nil => trivial
  | cons i is ih =>
    exact ⟨himp i List.mem_cons_self s h.1, ih h.2 fun i' hi' => himp i' (List.mem_cons_of_mem _ hi')⟩

theorem meets_append {ok : I → S → Prop} {is is' : List I} {s : S} :
    Meets step ok (is ++ is') s ↔ Meets step ok is s ∧ Meets step ok is' (lastOf step is s) := by
  induction is generalizing s with
  | nil => exact ⟨fun h => ⟨trivial, h⟩, And.right⟩
  | cons i is ih =>
    show ok i s ∧ Meets step ok (is ++ is') _ ↔ (ok i s ∧ Meets step ok is _) ∧ _
    rw [ih, and_assoc]
    rfl

/-- **What every `ok` input keeps, and what it brings about, along a run.** -/
theorem runInputs_inv {P : S → Prop} {Q : E → S → Prop} {ok : I → S → Prop}
    (h : ∀ i s, P s → ok i s → P (step i s).2 ∧ Q (step i s).1 (step i s).2) {is : List I} {s : S} (hs : P s)
    (hok : Meets step ok is s) : ∀ x ∈ runInputs step is s, P x.2 ∧ Q x.1 x.2 := by
  induction is generalizing s with
  | nil => exact fun x hx => absurd hx List.not_mem_nil
  | cons i is ih =>
    obtain ⟨hi, hrest⟩ := hok
    exact List.forall_mem_cons.mpr ⟨h i s hs hi, ih (h i s hs hi).1 hrest⟩

end Inputs

end TtAiops.Lib
