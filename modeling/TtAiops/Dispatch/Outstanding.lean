import TtAiops.Dispatch.Tick

/-!
# No second instruction while one is outstanding

After a row for a truck was written, the truck is held with the box of the row until the hold is released.

* `Releases` : the evidence that a hold is over: a work list taken after it was sent, signals of later work of the
  truck, or a later row for the truck;
* `SecondInstruction` : an assign row that gives the truck another box, or the box to another truck;
* `HeldFor` : the state of the loop in which no such row can be written;
* `keeps_tickStage`, `starts_tick` : every stage of a tick keeps that state up to a release, and a write brings it about;
* `no_second_instruction` : **between a row and a second instruction there is a release.**
-/

namespace TtAiops.Dispatch
open TtAiops.Lib TtAiops.Stage2

/-- The event shows that the hold of truck `yt`, sent at `sentMs`, is over. -/
def Releases (yt : String) (kind : HoldKind) (sentMs : ℤ) : Event → Prop
  | .wrote rows _ => ∃ r ∈ rows, r.ytno = yt
  | .looked listAsOfMs sig => listedAfter listAsOfMs sentMs = true ∨ truckBusyAfter (sig yt) kind sentMs = true
  | _ => False

/-- The event writes an assign row that gives truck `yt` a box other than `contno`, or `contno` to another truck. -/
def SecondInstruction (yt contno : String) : Event → Prop
  | .wrote rows _ =>
    ∃ r ∈ rows, r.kind = .assign ∧ (r.ytno = yt ∧ r.contno ≠ contno ∨ r.ytno ≠ yt ∧ r.contno = contno)
  | _ => False

/-- The holds were restored, and truck `yt` is held with the box. -/
def HeldFor (yt contno : String) (kind : HoldKind) (sentMs : ℤ) (st : Loop) : Prop :=
  st.restored = true ∧ ∃ id, st.held.lookup yt = some ⟨contno, sentMs, id, kind⟩

theorem zip_newIds (uuid : ℕ → String) (front : List SentRow) (r : SentRow) (back : List SentRow) (n : ℕ) :
    (front ++ r :: back).zip (newIds uuid n (front ++ r :: back).length) =
      front.zip (newIds uuid n front.length) ++
        (r, uuid (n + front.length)) :: back.zip (newIds uuid (n + front.length + 1) back.length) := by
  induction front generalizing n with
  | nil => rfl
  | cons x front ih =>
    have hids : newIds uuid n (x :: front ++ r :: back).length =
        uuid n :: newIds uuid (n + 1) (front ++ r :: back).length := rfl
    rw [hids, List.cons_append, List.zip_cons_cons, ih]
    have h1 : n + 1 + front.length = n + (x :: front).length := by rw [List.length_cons]; omega
    rw [h1]
    rfl

section Outstanding

variable {uuid : ℕ → String} {holdSent : Bool} {yt contno : String} {kind : HoldKind} {sentMs : ℤ}

/-- A write without rows for the truck and without assign rows for the box keeps the hold. -/
theorem keeps_sendRows (uuid : ℕ → String) (writtenAt : Option ℤ) (closeOk : Bool) (rows : List SentRow) {st : Loop}
    (hst : HeldFor yt contno kind sentMs st)
    (hrows : ∀ r ∈ rows, r.ytno ≠ yt ∧ (r.kind = .assign → r.contno ≠ contno)) :
    Until (Releases yt kind sentMs) (SecondInstruction yt contno)
        (events (sendRows uuid writtenAt closeOk rows st)) ∧
      HeldFor yt contno kind sentMs (lastState st (sendRows uuid writtenAt closeOk rows st)) := by
  rcases sendRows_cases uuid writtenAt closeOk rows st with h | h | ⟨us, -, -, h⟩
  · rw [h]
    exact ⟨trivial, hst⟩
  · rw [h]
    exact ⟨until_of_not_bad (by simp [events, SecondInstruction]), hst⟩
  · obtain ⟨hrest, id, hheld⟩ := hst
    rw [h]
    refine ⟨until_of_not_bad ?_, ?_⟩
    · simp only [events, List.map_cons, List.map_nil, List.mem_cons, List.not_mem_nil, or_false, forall_eq_or_imp,
        forall_eq, SecondInstruction, not_false_eq_true, and_true]
      rintro ⟨r, hr, hk, h | h⟩
      · exact (hrows r hr).1 h.1
      · exact (hrows r hr).2 hk h.2
    · simp only [lastState_cons, lastState_nil]
      refine ⟨by simpa using hrest, id, ?_⟩
      rw [close_held]
      refine (lookup_applyRows_of_notMem _ _ fun x hx => ?_).trans hheld
      exact (hrows x.1 (List.of_mem_zip hx).1).1

theorem starts_sendRows {writtenAt : Option ℤ} {closeOk : Bool} {rows : List SentRow} {st : Loop}
    (hrest : st.restored = true) {front back : List SentRow} {r : SentRow} (hlast : ∀ x ∈ back, x.ytno ≠ r.ytno)
    {pre post : List Event}
    (hsplit : events (sendRows uuid writtenAt closeOk rows st) = pre ++ .wrote (front ++ r :: back) sentMs :: post) :
    Until (Releases r.ytno r.kind sentMs) (SecondInstruction r.ytno r.contno) post ∧
      HeldFor r.ytno r.contno r.kind sentMs (lastState st (sendRows uuid writtenAt closeOk rows st)) := by
  rcases sendRows_cases uuid writtenAt closeOk rows st with h | h | ⟨us, -, -, h⟩
  · rw [h] at hsplit
    simp [events] at hsplit
  · rw [h] at hsplit
    simp [events, List.singleton_eq_append_iff] at hsplit
  · rw [h] at hsplit ⊢
    have hpost : rows = front ++ r :: back ∧ millis us = sentMs ∧ post = [.applied, .closed] := by
      rcases pre with _ | ⟨x, _ | ⟨y, _ | ⟨z, pre⟩⟩⟩
      · simp only [events, List.map_cons, List.map_nil, List.nil_append, List.cons.injEq, Event.wrote.injEq] at hsplit
        exact ⟨hsplit.1.1, hsplit.1.2, hsplit.2.symm⟩
      all_goals simp [events] at hsplit
    obtain ⟨rfl, rfl, rfl⟩ := hpost
    refine ⟨until_of_not_bad (by simp [SecondInstruction]), ?_⟩
    simp only [lastState_cons, lastState_nil]
    refine ⟨by simpa using hrest, uuid (st.next + front.length), ?_⟩
    rw [close_held]
    simp only [Loop.applied, applyWritten]
    rw [zip_newIds]
    exact lookup_applyRows_last _ _ (r, uuid (st.next + front.length)) _ fun y hy => hlast y.1 (List.of_mem_zip hy).1

/-- **Every stage keeps the hold up to a release.** -/
theorem keeps_tickStage (uuid : ℕ → String) (yt contno : String) (kind : HoldKind) (sentMs : ℤ) (inp : TickIn) :
    ∀ f ∈ tickStages uuid true inp,
      Keeps (HeldFor yt contno kind sentMs) (Releases yt kind sentMs) (SecondInstruction yt contno) f := by
  simp only [tickStages, List.mem_cons, List.not_mem_nil, or_false, forall_eq_or_imp, forall_eq]
  refine ⟨keeps_silent fun _ _ => rfl, keeps_silent fun st hst => ?_, keeps_silent fun _ _ => rfl, fun st hst => ?_,
    fun st hst => ?_, keeps_silent fun _ _ => rfl, fun st hst => ?_, fun st hst => ?_⟩
  · rw [restoreStage, if_pos rfl, if_pos hst.1]
  · obtain ⟨-, id, hheld⟩ := id hst
    obtain ⟨h1, h2⟩ := keeps_sendRows uuid inp.swapAt inp.swapClose (swapRows inp st.held) hst
      fun r hr => by
        refine ⟨fun he => ?_, fun hk => ?_⟩
        · have := swapRows_not_held hr
          rw [he, hheld] at this
          exact absurd this (by simp)
        · rw [(mem_swapRows hr).1] at hk
          exact absurd hk (by decide)
    exact ⟨h1, fun _ => h2⟩
  · rcases pruneStage_cases inp st with h | ⟨us, -, h⟩
    · rw [h]
      exact ⟨trivial, fun _ => hst⟩
    · rw [h]
      exact ⟨until_of_not_bad (by simp [events, SecondInstruction]), fun _ => hst⟩
  · obtain ⟨hrest, id, hheld⟩ := hst
    refine ⟨until_of_not_bad (by simp [releaseStage, events, SecondInstruction]), fun hno => ?_⟩
    have hlook : ¬ Releases yt kind sentMs (.looked (listAsOfMs inp) (sigOf inp)) :=
      hno _ (by simp [releaseStage, events])
    simp only [Releases, not_or, Bool.not_eq_true] at hlook
    simp only [releaseStage, if_true, lastState_cons, lastState_nil]
    refine ⟨by simpa using hrest, id, ?_⟩
    rw [close_held]
    exact lookup_releaseHeld.mpr ⟨hheld, releaseWhy_eq_none.mpr hlook⟩
  · obtain ⟨-, id, hheld⟩ := id hst
    obtain ⟨h1, h2⟩ := keeps_sendRows uuid inp.assignAt inp.assignClose (assignRows inp st.held) hst
      fun r hr => by
        obtain ⟨-, hnone, hbox⟩ := assignRows_allowed hr
        refine ⟨fun he => ?_, fun _ he => hbox _ _ hheld he.symm⟩
        rw [he, hheld] at hnone
        exact absurd hnone (by simp)
    exact ⟨h1, fun _ => h2⟩

/-- **A write in a tick brings the hold about.** -/
theorem starts_tick (inp : TickIn) {front back : List SentRow} {r : SentRow} (hlast : ∀ x ∈ back, x.ytno ≠ r.ytno) :
    Starts (fun _ => True) (HeldFor r.ytno r.contno r.kind sentMs) (fun e => e = .wrote (front ++ r :: back) sentMs)
      (Releases r.ytno r.kind sentMs) (SecondInstruction r.ytno r.contno) (runStages (tickStages uuid true inp)) := by
  have hkeep := keeps_tickStage uuid r.ytno r.contno r.kind sentMs inp
  simp only [tickStages, List.mem_cons, List.not_mem_nil, or_false, forall_eq_or_imp, forall_eq] at hkeep
  obtain ⟨-, hrestore, hread, hswap, hprune, hpool, hrelease, hassign⟩ := hkeep
  have hsend : ∀ (writtenAt : Option ℤ) (closeOk : Bool) (rows : Loop → List SentRow),
      Starts (fun st => st.restored = true) (HeldFor r.ytno r.contno r.kind sentMs)
        (fun e => e = .wrote (front ++ r :: back) sentMs) (Releases r.ytno r.kind sentMs)
        (SecondInstruction r.ytno r.contno) (fun st => sendRows uuid writtenAt closeOk (rows st) st) := by
    rintro writtenAt closeOk rows st hst pre e post hsplit rfl
    obtain ⟨h1, h2⟩ := starts_sendRows hst hlast hsplit
    exact ⟨h1, fun _ => h2⟩
  have hrestored : ∀ (writtenAt : Option ℤ) (closeOk : Bool) (rows : List SentRow) (st : Loop), st.restored = true →
      (lastState st (sendRows uuid writtenAt closeOk rows st)).restored = true := by
    intro writtenAt closeOk rows st hst
    rcases sendRows_cases uuid writtenAt closeOk rows st with h | h | ⟨us, -, -, h⟩ <;> rw [h] <;> simpa using hst
  have hquiet : ∀ {Q : Loop → Prop} {f : Stage Event Loop},
      (∀ st, Q st → ∀ e ∈ events (f st).1, ∀ rows ms, e ≠ .wrote rows ms) →
      Starts Q (HeldFor r.ytno r.contno r.kind sentMs) (fun e => e = .wrote (front ++ r :: back) sentMs)
        (Releases r.ytno r.kind sentMs) (SecondInstruction r.ytno r.contno) (fun st => (f st).1) :=
    fun h => starts_silent fun st hst e he heq => h st hst e he _ _ heq
  refine starts_cons (R := fun _ => True) (hquiet (by simp [gateStage, events])) (fun _ _ _ => trivial) (by simp [*]) ?_
  -- the restore writes nothing, and a tick that goes on after it has the holds restored
  refine starts_cons (R := fun st => st.restored = true) (hquiet fun st _ => ?_) (fun st _ hgo => ?_) (by simp [*]) ?_
  · rcases restoreStage_cases inp st with ⟨-, h⟩ | ⟨-, h⟩ | ⟨held, closes, -, -, h⟩ <;> rw [h] <;> simp [events]
  · rcases restoreStage_cases inp st with ⟨hst, h⟩ | ⟨-, h⟩ | ⟨held, closes, -, -, h⟩
    · rw [h]; exact hst
    · rw [h] at hgo; exact absurd hgo (by decide)
    · rw [h]; simp
  refine starts_cons (R := fun st => st.restored = true) (hquiet (by simp [readStage, events]))
    (fun _ hst _ => hst) (by simp [*]) ?_
  refine starts_cons (R := fun st => st.restored = true) (hsend inp.swapAt inp.swapClose fun st => swapRows inp st.held)
    (fun st hst _ => hrestored _ _ _ st hst) (by simp [*]) ?_
  refine starts_cons (R := fun st => st.restored = true) (hquiet fun st _ => ?_) (fun st hst _ => ?_) (by simp [*]) ?_
  · rcases pruneStage_cases inp st with h | ⟨us, -, h⟩ <;> rw [h] <;> simp [events]
  · rcases pruneStage_cases inp st with h | ⟨us, -, h⟩ <;> rw [h] <;> exact hst
  refine starts_cons (R := fun st => st.restored = true) (hquiet (by simp [poolStage, events]))
    (fun _ hst _ => hst) (by simp [*]) ?_
  refine starts_cons (R := fun st => st.restored = true) (hquiet fun st _ => ?_) (fun st hst _ => ?_) (by simp [*]) ?_
  · simp [releaseStage, events]
  · simpa [releaseStage] using hst
  exact starts_cons (hsend inp.assignAt inp.assignClose fun st => assignRows inp st.held)
    (fun _ _ _ => trivial) (by simp) (starts_nil (Q := fun _ => True))

theorem quiet_tickStage (inp : TickIn) :
    ∀ f ∈ tickStages uuid false inp, ∀ st, ∀ e ∈ events (f st).1, ∀ rows ms, e ≠ .wrote rows ms := by
  simp only [tickStages, List.mem_cons, List.not_mem_nil, or_false, forall_eq_or_imp, forall_eq]
  refine ⟨by simp [gateStage, events], by simp [restoreStage, events], by simp [readStage, events],
    by simp [swapStage, events], fun st => ?_, by simp [poolStage, events], by simp [releaseStage, events],
    by simp [assignStage, events]⟩
  rcases pruneStage_cases inp st with h | ⟨us, -, h⟩ <;> rw [h] <;> simp [events]

/-- **Between a row of a write and a second instruction there is a release of the truck's hold.** The row is the last
one that its write has for the truck. -/
theorem no_second_instruction (uuid : ℕ → String) (holdSent : Bool) (inps : List TickIn) (st : Loop)
    {pre mid post : List Event} {front back rows' : List SentRow} {r r' : SentRow} {sentMs sentMs' : ℤ}
    (hrun : events (runTicks uuid holdSent inps st) =
      pre ++ .wrote (front ++ r :: back) sentMs :: (mid ++ .wrote rows' sentMs' :: post))
    (hlast : ∀ x ∈ back, x.ytno ≠ r.ytno) (hr' : r' ∈ rows') (hassign : r'.kind = .assign)
    (hsecond : r'.ytno = r.ytno ∧ r'.contno ≠ r.contno ∨ r'.ytno ≠ r.ytno ∧ r'.contno = r.contno) :
    ∃ e ∈ mid, Releases r.ytno r.kind sentMs e := by
  cases holdSent with
  | true =>
    have hsteps : Starts (fun _ => True) (HeldFor r.ytno r.contno r.kind sentMs)
        (fun e => e = .wrote (front ++ r :: back) sentMs) (Releases r.ytno r.kind sentMs)
        (SecondInstruction r.ytno r.contno) (runTicks uuid true inps) := by
      refine starts_steps (fun fs hfs => ?_) fun fs hfs => ?_
      · obtain ⟨inp, -, rfl⟩ := List.mem_map.mp hfs
        exact keeps_tickStage uuid _ _ _ _ inp
      · obtain ⟨inp, -, rfl⟩ := List.mem_map.mp hfs
        exact starts_tick inp hlast
    exact (hsteps st trivial pre _ _ hrun rfl).1.exists_ends ⟨r', hr', hassign, hsecond⟩
  | false =>
    have hquiet : ∀ e ∈ events (runTicks uuid false inps st), ∀ rows ms, e ≠ .wrote rows ms := by
      refine events_forall fun f hf st => ?_
      obtain ⟨fs, hfs, rfl⟩ := List.mem_map.mp hf
      obtain ⟨inp, -, rfl⟩ := List.mem_map.mp hfs
      exact events_forall fun g hg st => quiet_tickStage inp g hg st
    exact absurd rfl (hquiet (.wrote (front ++ r :: back) sentMs) (by rw [hrun]; simp) _ _)

end Outstanding

/-- Two ticks give the free truck two boxes: between them the work list shows that the first hold is over. -/
theorem no_second_instruction_two :
    ∃ e ∈ [.applied, .closed, .looked (some 10000) (sigOf (assignTick "TT1" "B" 10000 10000000)), .closed],
      Releases "TT1" .assign 1000 e :=
  @no_second_instruction letters true [assignTick "TT1" "A" 0 1000000, assignTick "TT1" "B" 10000 10000000] freshLoop
    [.closed, .restored, .looked (some 0) (sigOf (assignTick "TT1" "A" 0 1000000)), .closed] _ [.applied, .closed] [] []
    [⟨.assign, "TT1", "B"⟩] ⟨.assign, "TT1", "A"⟩ ⟨.assign, "TT1", "B"⟩ 1000 10000 rfl (by simp) (by simp) rfl
    (Or.inl ⟨rfl, by decide⟩)

end TtAiops.Dispatch
