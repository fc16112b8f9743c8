import TtAiops.Cycle.Legs

/-!
# The legs of the tracker in a run

* `EndsLeg`, `FrameClear` : a frame and the state before it when no arrival is ahead of the clock where a leg ends, and
  the first movement is not after the assignment of a leg to the drop;
* `LegOk`, `AfterStart`, `TrackInv` : the legs follow one another, and what comes after the first movement;
* `Goes` : what a frame does to a leg;
* `trackInv_startTravel` … `trackInv_assignLeg` : every step of the tracker keeps the legs in order;
* `RecordOk`, `recordOk_run` : **what a run of clear frames hands to the flusher is in order.**
-/

namespace TtAiops.Cycle
open TtAiops.Lib

variable {dist : ℚ × ℚ → ℚ × ℚ → ℚ}

/-! ## The condition on a frame -/

def Unloads (prev : Option Pos) (f : Frame) : Prop := oldC1 prev ≠ "" ∧ f.c1 ≠ oldC1 prev

/-- The frame names a new target or takes the box out of field 1: the current leg may end. -/
def EndsLeg (prev : Option Pos) (f : Frame) : Prop :=
  f.topos1.getD "" ≠ "" ∧ prev.bind Pos.latchedTopos ≠ some (f.topos1.getD "") ∨ Unloads prev f

/-- The legs of the cycle, the current one included. -/
def V2State.allLegs (v2 : V2State) : List V2Leg := v2.legs ++ v2.cur.toList

/-- The target lies on the side of the pickup: at a crane for a discharge, at a block otherwise. -/
def pickupSide (jobtype : Option String) (l : V2Leg) : Prop := l.crane = (jobtype == some "DS")

/-- Where a leg may end, neither its arrival nor the arrival time that the truck reported last is ahead of the clock. Where
the box is gone, the first movement of the cycle was not after the assignment of the first leg, unless that one leads to
the pickup, and not after the arrival that v1 has for the drop. -/
structure FrameClear (dist : ℚ × ℚ → ℚ × ℚ → ℚ) (f : Frame) (p : Pos) : Prop where
  arrived : EndsLeg (some p) f → ∀ l ∈ p.v2.cur, l.arrivedMs ≤ f.now ∧ (sight dist (some p) f).arrDtimeMs ≤ f.now
  first : Unloads (some p) f → ∀ l ∈ p.v2.allLegs.head?,
    (startTravel f p.v2).emptyTravelStartMs ≤ l.assignedMs ∨
      pickupSide (p.v2.jobtype <|> f.jobtype <|> p.latchedJobtype) l
  v1 : Unloads (some p) f → ∀ oc ∈ p.cycleOpen, oc.arrivedAtMs = 0 ∨
    (startTravel f p.v2).emptyTravelStartMs ≤ oc.arrivedAtMs

instance (prev : Option Pos) (f : Frame) : Decidable (Unloads prev f) := inferInstanceAs (Decidable (_ ∧ _))

instance (prev : Option Pos) (f : Frame) : Decidable (EndsLeg prev f) := inferInstanceAs (Decidable (_ ∨ _))

instance (jobtype : Option String) (l : V2Leg) : Decidable (pickupSide jobtype l) := inferInstanceAs (Decidable (_ = _))

instance (f : Frame) (p : Pos) : Decidable (FrameClear dist f p) :=
  decidable_of_iff (_ ∧ _ ∧ _) ⟨fun h => ⟨h.1, h.2.1, h.2.2⟩, fun h => ⟨h.1, h.2, h.3⟩⟩

/-- Every frame is clear in the state before it. -/
def RowClear (dist : ℚ × ℚ → ℚ × ℚ → ℚ) : Input → Truck → Prop
  | .frame f, s => ∀ p ∈ s.pos, FrameClear dist f p
  | .prune _, _ => True

instance : ∀ (i : Input) (s : Truck), Decidable (RowClear dist i s)
  | .frame f, s => inferInstanceAs (Decidable (∀ p ∈ s.pos, FrameClear dist f p))
  | .prune _, _ => .isTrue trivial

/-! ## The legs of the tracker -/

/-- A leg was assigned before it was reached, and reached before it was left. -/
structure LegOk (clock : ℤ) (l : V2Leg) : Prop where
  assigned : 0 < l.assignedMs ∧ l.assignedMs ≤ clock
  arrived : 0 ≤ l.arrivedMs
  order : l.arrivedMs ≠ 0 → l.assignedMs ≤ l.arrivedMs
  left : 0 ≤ l.leftMs ∧ l.leftMs ≤ clock
  gone : l.leftMs ≠ 0 → l.arrivedMs ≠ 0
  src : l.arrSrc ≠ .v1

/-- The first leg was reached before the second was assigned. -/
def Follows (l l' : V2Leg) : Prop := l.arrivedMs ≤ l'.assignedMs

structure LegsOk (clock : ℤ) (legs : List V2Leg) : Prop where
  each : ∀ l ∈ legs, LegOk clock l ∧ l.arrivedMs ≤ clock
  follow : legs.Pairwise Follows

/-- No leg was left before the first movement, and all but the first were assigned after it. -/
structure AfterStart (start : ℤ) (legs : List V2Leg) : Prop where
  left : ∀ l ∈ legs, l.leftMs ≠ 0 → start ≤ l.leftMs
  later : ∀ l ∈ legs.tail, start ≤ l.assignedMs

structure TrackInv (clock : ℤ) (v2 : V2State) : Prop where
  opened : 0 ≤ v2.openedMs ∧ v2.openedMs ≤ clock
  start : 0 ≤ v2.emptyTravelStartMs ∧ v2.emptyTravelStartMs ≤ clock
  legs : LegsOk clock v2.legs
  cur : ∀ l, v2.cur = some l → LegOk clock l ∧ ∀ l' ∈ v2.legs, Follows l' l
  noCur : v2.cur = none → v2.legs = []
  after : AfterStart v2.emptyTravelStartMs v2.allLegs

section Track

variable {clock clock' : ℤ}

theorem LegOk.mono {l : V2Leg} (h : LegOk clock l) (hle : clock ≤ clock') : LegOk clock' l :=
  ⟨⟨h.assigned.1, h.assigned.2.trans hle⟩, h.arrived, h.order, ⟨h.left.1, h.left.2.trans hle⟩, h.gone, h.src⟩

theorem LegsOk.mono {legs : List V2Leg} (h : LegsOk clock legs) (hle : clock ≤ clock') : LegsOk clock' legs :=
  ⟨fun l hl => ⟨(h.each l hl).1.mono hle, (h.each l hl).2.trans hle⟩, h.follow⟩

theorem TrackInv.mono {v2 : V2State} (h : TrackInv clock v2) (hle : clock ≤ clock') : TrackInv clock' v2 :=
  ⟨⟨h.opened.1, h.opened.2.trans hle⟩, ⟨h.start.1, h.start.2.trans hle⟩, h.legs.mono hle,
    fun l hl => ⟨(h.cur l hl).1.mono hle, (h.cur l hl).2⟩, h.noCur, h.after⟩

theorem legsOk_nil : LegsOk clock [] := ⟨fun _ hl => absurd hl List.not_mem_nil, List.Pairwise.nil⟩

theorem LegsOk.concat {legs : List V2Leg} {l : V2Leg} (h : LegsOk clock legs) (hl : LegOk clock l)
    (hpast : l.arrivedMs ≤ clock) (hfollow : ∀ l' ∈ legs, Follows l' l) : LegsOk clock (legs ++ [l]) := by
  refine ⟨fun x hx => ?_, List.pairwise_append.mpr ⟨h.follow, List.pairwise_singleton _ _, fun x hx y hy => ?_⟩⟩
  · rcases List.mem_append.mp hx with hx | hx
    · exact h.each x hx
    · rw [List.mem_singleton.mp hx]
      exact ⟨hl, hpast⟩
  · rw [List.mem_singleton.mp hy]
    exact hfollow x hx

theorem afterStart_single {start : ℤ} {l : V2Leg} (h : l.leftMs ≠ 0 → start ≤ l.leftMs) : AfterStart start [l] :=
  ⟨fun x hx => by rw [List.mem_singleton.mp hx]; exact h, fun x hx => absurd hx List.not_mem_nil⟩

theorem afterStart_nil {start : ℤ} : AfterStart start [] :=
  ⟨fun _ hx => absurd hx List.not_mem_nil, fun _ hx => absurd hx List.not_mem_nil⟩

theorem AfterStart.concat {start : ℤ} {legs : List V2Leg} {l : V2Leg} (h : AfterStart start legs)
    (hassigned : start ≤ l.assignedMs) (hleft : l.leftMs ≠ 0 → start ≤ l.leftMs) : AfterStart start (legs ++ [l]) := by
  refine ⟨fun x hx => ?_, fun x hx => ?_⟩
  · rcases List.mem_append.mp hx with hx | hx
    · exact h.left x hx
    · rw [List.mem_singleton.mp hx]
      exact hleft
  · cases legs with
    | nil => exact absurd hx List.not_mem_nil
    | cons a legs =>
      rcases List.mem_append.mp hx with hx | hx
      · exact h.later x hx
      · rw [List.mem_singleton.mp hx]
        exact hassigned

theorem AfterStart.eraseSecond {start : ℤ} {legs : List V2Leg} (h : AfterStart start legs) :
    AfterStart start (legs.eraseIdx 1) := by
  refine ⟨fun x hx => h.left x ((List.eraseIdx_sublist legs 1).subset hx), fun x hx => ?_⟩
  cases legs with
  | nil => exact absurd hx List.not_mem_nil
  | cons a legs => exact h.later x ((List.eraseIdx_sublist legs 0).subset hx)

theorem trackInv_default (hclock : 0 ≤ clock) : TrackInv clock V2State.default :=
  ⟨⟨le_rfl, hclock⟩, ⟨le_rfl, hclock⟩, legsOk_nil, fun _ hl => by simp [V2State.default] at hl, fun _ => rfl,
    afterStart_nil⟩

theorem TrackInv.withCur {v2 : V2State} {l : V2Leg} (h : TrackInv clock v2) (hl : LegOk clock l)
    (hfollow : ∀ l' ∈ v2.legs, Follows l' l) (hafter : AfterStart v2.emptyTravelStartMs (v2.legs ++ [l])) :
    TrackInv clock { v2 with cur := some l } := by
  refine ⟨h.opened, h.start, h.legs, fun l' hl' => ?_, fun hnone => by simp at hnone, hafter⟩
  rw [← Option.some.inj hl']
  exact ⟨hl, hfollow⟩

variable {f : Frame} {v2 : V2State}

theorem trackInv_startTravel (h : TrackInv f.now v2) : TrackInv f.now (startTravel f v2) := by
  unfold startTravel
  split_ifs with hmoves
  · obtain ⟨-, -, -, hnil, hwaits⟩ := hmoves
    refine ⟨h.opened, ⟨f.now_pos.le, le_rfl⟩, h.legs, h.cur, h.noCur, ?_⟩
    show AfterStart f.now (v2.legs ++ v2.cur.toList)
    rw [hnil, List.nil_append]
    cases hcur : v2.cur with
    | none => exact afterStart_nil
    | some l =>
      rw [hcur] at hwaits
      have hnot : l.arrivedMs = 0 := by simpa using hwaits
      exact afterStart_single fun hleft => absurd hnot ((h.cur l hcur).1.gone hleft)
  · exact h

/-- What a frame does to a leg: its target and its assignment stay, and it is left now if it was not left before. -/
structure Goes (f : Frame) (l l' : V2Leg) : Prop where
  ok : LegOk f.now l → LegOk f.now l'
  assigned : l'.assignedMs = l.assignedMs
  crane : l'.crane = l.crane
  left : l'.leftMs ≠ 0 → l'.leftMs = l.leftMs ∨ l'.leftMs = f.now

theorem Goes.refl (l : V2Leg) : Goes f l l := ⟨id, rfl, rfl, fun _ => Or.inl rfl⟩

theorem Goes.trans {l l' l'' : V2Leg} (h : Goes f l l') (h' : Goes f l' l'') : Goes f l l'' := by
  refine ⟨h'.ok ∘ h.ok, h'.assigned.trans h.assigned, h'.crane.trans h.crane, fun hleft => ?_⟩
  rcases h'.left hleft with heq | heq
  · rw [heq]
    exact h.left (heq ▸ hleft)
  · exact Or.inr heq

theorem AfterStart.goes {start : ℤ} {legs : List V2Leg} {l l' : V2Leg} (h : AfterStart start (legs ++ [l]))
    (hgoes : Goes f l l') (hstart : start ≤ f.now) : AfterStart start (legs ++ [l']) := by
  refine ⟨fun x hx => ?_, fun x hx => ?_⟩
  · rcases List.mem_append.mp hx with hx | hx
    · exact h.left x (List.mem_append_left _ hx)
    · rw [List.mem_singleton.mp hx]
      intro hleft
      rcases hgoes.left hleft with heq | heq
      · rw [heq]
        exact h.left l (List.mem_append_right _ List.mem_cons_self) (heq ▸ hleft)
      · rw [heq]
        exact hstart
  · cases legs with
    | nil => exact absurd hx List.not_mem_nil
    | cons a legs =>
      rcases List.mem_append.mp hx with hx | hx
      · exact h.later x (List.mem_append_left _ hx)
      · rw [List.mem_singleton.mp hx, hgoes.assigned]
        exact h.later l (List.mem_append_right _ List.mem_cons_self)

variable (dist) in
theorem goes_arriveLeg (edge : Bool) (ms : ℤ) (l : V2Leg) :
    Goes f l (arriveLeg dist edge ms f l) ∧
      (l.arrivedMs ≤ f.now → ms ≤ f.now → (arriveLeg dist edge ms f l).arrivedMs ≤ f.now) := by
  have hnow := f.now_pos
  have hset : ∀ (src : ArrSrc) (at' : ℤ), src ≠ .v1 → 0 < at' → (LegOk f.now l → l.assignedMs ≤ at') →
      ∀ (p : Prop) [Decidable p], Goes f l { l with arrivedMs := at', arrSrc := src, leftMs := if p then 0 else l.leftMs } := by
    intro src at' hsrc hpos hle p _
    refine ⟨fun h => ⟨h.assigned, hpos.le, fun _ => hle h, ?_, fun _ => hpos.ne', hsrc⟩, rfl, rfl, ?_⟩
    · dsimp only
      split_ifs
      · exact ⟨le_rfl, hnow.le⟩
      · exact h.left
    · dsimp only
      split_ifs
      · exact fun hno => absurd rfl hno
      · exact fun _ => Or.inl rfl
  simp only [arriveLeg]
  by_cases hopen : l.arrivedMs = 0 ∨ l.arrSrc = .curLoc
  · rw [if_pos hopen]
    by_cases hdtime : 0 < ms ∧ l.assignedMs ≤ ms
    · rw [if_pos hdtime]
      exact ⟨hset _ ms (by simp) hdtime.1 (fun _ => hdtime.2) _, fun _ hms => hms⟩
    · rw [if_neg hdtime]
      by_cases hedge : edge = true
      · rw [if_pos hedge]
        exact ⟨hset _ f.now (by simp) hnow (fun h => h.assigned.2) _, fun _ _ => le_rfl⟩
      · rw [if_neg hedge]
        split
        · cases hat : stoppedAt dist f l with
          | none => exact ⟨Goes.refl l, fun hl _ => hl⟩
          | some src =>
            have hs : src ≠ .v1 := by
              unfold stoppedAt at hat
              simp only at hat
              split_ifs at hat <;> simp_all
              all_goals rw [← hat]; decide
            exact ⟨hset src f.now hs hnow (fun h => h.assigned.2) False, fun _ _ => le_rfl⟩
        · exact ⟨Goes.refl l, fun hl _ => hl⟩
  · rw [if_neg hopen]
    exact ⟨Goes.refl l, fun hl _ => hl⟩

theorem goes_leaveLeg (l : V2Leg) : Goes f l (leaveLeg f l) ∧ (leaveLeg f l).arrivedMs = l.arrivedMs := by
  unfold leaveLeg
  split_ifs with h
  · exact ⟨⟨fun hl => ⟨hl.assigned, hl.arrived, hl.order, ⟨f.now_pos.le, le_rfl⟩, fun _ => h.1.ne', hl.src⟩, rfl, rfl,
      fun _ => Or.inr rfl⟩, rfl⟩
  · exact ⟨Goes.refl l, rfl⟩

theorem goes_endLeg (l : V2Leg) : Goes f l (endLeg f.now l) ∧ (endLeg f.now l).arrivedMs = l.arrivedMs := by
  unfold endLeg
  split_ifs with h
  · exact ⟨⟨fun hl => ⟨hl.assigned, hl.arrived, hl.order, ⟨f.now_pos.le, le_rfl⟩, fun _ => h.1.ne', hl.src⟩, rfl, rfl,
      fun _ => Or.inr rfl⟩, rfl⟩
  · exact ⟨Goes.refl l, rfl⟩

variable (dist) in
theorem goes_progressLeg (edge : Bool) (ms : ℤ) (l : V2Leg) :
    Goes f l (progressLeg dist edge ms f l) ∧
      (l.arrivedMs ≤ f.now → ms ≤ f.now → (progressLeg dist edge ms f l).arrivedMs ≤ f.now) := by
  obtain ⟨harrive, hpast⟩ := goes_arriveLeg dist edge ms l
  obtain ⟨hleave, heq⟩ := goes_leaveLeg (f := f) (arriveLeg dist edge ms f l)
  refine ⟨harrive.trans hleave, fun hl hms => ?_⟩
  rw [progressLeg, heq]
  exact hpast hl hms

theorem TrackInv.goes {l l' : V2Leg} (h : TrackInv f.now v2) (hcur : v2.cur = some l) (hgoes : Goes f l l') :
    TrackInv f.now { v2 with cur := some l' } := by
  obtain ⟨hok, hfollow⟩ := h.cur l hcur
  have hafter := h.after
  rw [V2State.allLegs, hcur] at hafter
  refine h.withCur (hgoes.ok hok) (fun x hx => ?_) (hafter.goes hgoes h.start.2)
  have hx := hfollow x hx
  unfold Follows at hx ⊢
  rwa [hgoes.assigned]

variable (dist) in
theorem trackInv_progress (edge : Bool) (ms : ℤ) (h : TrackInv f.now v2) :
    TrackInv f.now { v2 with cur := v2.cur.map (progressLeg dist edge ms f) } := by
  cases hcur : v2.cur with
  | none =>
    rw [Option.map_none, ← hcur]
    exact h
  | some l => exact h.goes hcur (goes_progressLeg dist edge ms l).1

theorem trackInv_openV2 (jobtype : Option String) {ms : ℤ} (hms : 0 ≤ ms ∧ ms ≤ f.now) (h : TrackInv f.now v2) :
    TrackInv f.now (openV2 ms jobtype v2) := by
  unfold openV2
  split_ifs
  · exact ⟨hms, h.start, h.legs, h.cur, h.noCur, h.after⟩
  · exact h

theorem openV2_pos {ms : ℤ} (jobtype : Option String) (hms : 0 < ms) (h : 0 ≤ v2.openedMs) :
    0 < (openV2 ms jobtype v2).openedMs := by
  unfold openV2
  split_ifs with hzero
  · exact hms
  · exact lt_of_le_of_ne h (Ne.symm hzero)

theorem TrackInv.firstLeg {l : V2Leg} (h : TrackInv clock v2) (hnil : v2.legs = []) (hl : LegOk clock l)
    (hleft : l.leftMs ≠ 0 → v2.emptyTravelStartMs ≤ l.leftMs) : TrackInv clock { v2 with cur := some l } := by
  refine h.withCur hl (fun l' hl' => ?_) ?_
  · rw [hnil] at hl'
    exact absurd hl' List.not_mem_nil
  · rw [hnil]
    exact afterStart_single hleft

theorem trackInv_pickupLeg (prev : Option Pos) (pos : Pos) (h : TrackInv f.now v2) :
    TrackInv f.now (pickupLeg prev f pos v2) := by
  have hnow := f.now_pos
  unfold pickupLeg
  split
  · have hopen := trackInv_openV2 (f := f) pos.latchedJobtype ⟨hnow.le, le_rfl⟩ h
    have hpos := openV2_pos pos.latchedJobtype hnow h.opened.1
    simp only
    split
    · rename_i leg hcur
      split_ifs
      · refine hopen.goes hcur ⟨fun hl => ?_, rfl, rfl, fun _ => Or.inl rfl⟩
        exact ⟨hl.assigned, hnow.le, fun _ => hl.assigned.2, hl.left, fun _ => hnow.ne', by simp⟩
      · exact hopen
    · rename_i hcur
      split_ifs
      · refine hopen.firstLeg (hopen.noCur hcur) ?_ fun hleft => absurd rfl hleft
        exact ⟨⟨hpos, hopen.opened.2⟩, hnow.le, fun _ => hopen.opened.2, ⟨le_rfl, hnow.le⟩, fun hleft => absurd rfl hleft,
          by simp⟩
      · exact hopen
  · exact h

theorem legOk_newLeg (f : Frame) (target : String) :
    LegOk f.now (newLeg f target) ∧ (newLeg f target).arrivedMs ≤ f.now := by
  have hnow := f.now_pos
  simp only [newLeg]
  split_ifs
  · exact ⟨⟨⟨hnow, le_rfl⟩, hnow.le, fun _ => le_rfl, ⟨le_rfl, hnow.le⟩, fun hleft => absurd rfl hleft, by simp⟩, le_rfl⟩
  · exact ⟨⟨⟨hnow, le_rfl⟩, le_rfl, fun hno => absurd rfl hno, ⟨le_rfl, hnow.le⟩, fun hleft => absurd rfl hleft, by simp⟩,
      hnow.le⟩

theorem LegsOk.concat_endLeg {legs : List V2Leg} {l : V2Leg} (h : LegsOk f.now legs) (hl : LegOk f.now l)
    (hpast : l.arrivedMs ≤ f.now) (hfollow : ∀ l' ∈ legs, Follows l' l) : LegsOk f.now (legs ++ [endLeg f.now l]) := by
  obtain ⟨hgoes, harrived⟩ := goes_endLeg (f := f) l
  refine h.concat (hgoes.ok hl) (harrived ▸ hpast) fun l' hl' => ?_
  have hf := hfollow l' hl'
  unfold Follows at hf ⊢
  rwa [hgoes.assigned]

/-- The legs of a closed cycle follow one another, and the leg that is taken over is in order. -/
theorem legsOk_closedLegs (pos : Pos) (h : TrackInv f.now v2) (hpast : ∀ l ∈ v2.cur, l.arrivedMs ≤ f.now) :
    LegsOk f.now (closedLegs f pos v2).1 ∧ AfterStart v2.emptyTravelStartMs (closedLegs f pos v2).1 ∧
      ∀ l, (closedLegs f pos v2).2 = some l → LegOk f.now l ∧ l.arrivedMs ≤ f.now := by
  have hafter := h.after
  have hfront : AfterStart v2.emptyTravelStartMs v2.legs := by
    refine ⟨fun l hl => hafter.left l (List.mem_append_left _ hl), fun l hl => hafter.later l ?_⟩
    rw [V2State.allLegs]
    cases hlegs : v2.legs with
    | nil => rw [hlegs] at hl; exact absurd hl List.not_mem_nil
    | cons a rest => rw [hlegs] at hl; exact List.mem_append_left _ hl
  unfold closedLegs
  cases hcur : v2.cur with
  | none => exact ⟨h.legs, hfront, fun l hl => by simp at hl⟩
  | some cur =>
    obtain ⟨hok, hfollow⟩ := h.cur cur hcur
    have hcurPast := hpast cur hcur
    rw [V2State.allLegs, hcur] at hafter
    simp only
    split_ifs
    · exact ⟨h.legs, hfront, fun l hl => by rw [← Option.some.inj hl]; exact ⟨hok, hcurPast⟩⟩
    · exact ⟨h.legs, hfront, fun l hl => by rw [← Option.some.inj hl]; exact ⟨hok, hcurPast⟩⟩
    · exact ⟨h.legs.concat_endLeg hok hcurPast hfollow, hafter.goes (goes_endLeg cur).1 h.start.2, fun l hl => by simp at hl⟩

theorem trackInv_nextV2 (f : Frame) (pos : Pos) :
    TrackInv f.now (nextV2 f pos) ∧ (nextV2 f pos).legs = [] ∧ (nextV2 f pos).emptyTravelStartMs = 0 := by
  have hnow := f.now_pos
  unfold nextV2
  split_ifs
  · exact ⟨⟨⟨hnow.le, le_rfl⟩, ⟨le_rfl, hnow.le⟩, legsOk_nil, fun _ hl => by simp [V2State.default] at hl, fun _ => rfl,
      afterStart_nil⟩, rfl, rfl⟩
  · exact ⟨trackInv_default hnow.le, rfl, rfl⟩

theorem trackInv_reopenV2 (prev : Option Pos) (pos : Pos) {carry : Option V2Leg}
    (hcarry : ∀ l, carry = some l → LegOk f.now l ∧ l.arrivedMs ≤ f.now) :
    TrackInv f.now (reopenV2 prev f pos carry) ∧ ∀ l ∈ (reopenV2 prev f pos carry).cur, l.arrivedMs ≤ f.now := by
  have hnow := f.now_pos
  obtain ⟨hinv, hlegs, hstart⟩ := trackInv_nextV2 f pos
  have hnone : (nextV2 f pos).cur = none := by
    unfold nextV2
    split_ifs <;> rfl
  unfold reopenV2
  cases carry with
  | some c =>
    obtain ⟨hc, hpast⟩ := hcarry c rfl
    have hmin : 0 ≤ min c.assignedMs f.now ∧ min c.assignedMs f.now ≤ f.now :=
      ⟨le_min hc.assigned.1.le hnow.le, min_le_right _ _⟩
    refine ⟨(trackInv_openV2 pos.latchedJobtype hmin hinv).firstLeg ?_ hc fun _ => ?_, fun l hl => ?_⟩
    · unfold openV2
      split
      · exact hlegs
      · exact hlegs
    · have hzero : (openV2 (min c.assignedMs f.now) pos.latchedJobtype (nextV2 f pos)).emptyTravelStartMs = 0 := by
        unfold openV2
        split
        · exact hstart
        · exact hstart
      rw [hzero]
      exact hc.left.1
    · rw [← Option.some.inj hl]
      exact hpast
  | none =>
    have hnew : ∀ t, TrackInv f.now { nextV2 f pos with cur := some (newLeg f t) } ∧
        ∀ l ∈ some (newLeg f t), l.arrivedMs ≤ f.now := by
      intro t
      obtain ⟨hok, hpast⟩ := legOk_newLeg f t
      refine ⟨hinv.firstLeg hlegs hok fun _ => by rw [hstart]; exact hok.left.1, fun l hl => ?_⟩
      rw [← Option.some.inj hl]
      exact hpast
    have hsame : TrackInv f.now (nextV2 f pos) ∧ ∀ l ∈ (nextV2 f pos).cur, l.arrivedMs ≤ f.now :=
      ⟨hinv, fun l hl => by rw [hnone] at hl; simp at hl⟩
    simp only
    split
    · split
      · split
        · exact hnew _
        · exact hsame
      · exact hsame
    · exact hsame

theorem legsOk_pushLeg (h : TrackInv f.now v2) (hpast : ∀ l ∈ v2.cur, l.arrivedMs ≤ f.now) :
    LegsOk f.now (pushLeg f.now v2) ∧ AfterStart v2.emptyTravelStartMs (pushLeg f.now v2) := by
  unfold pushLeg
  cases hcur : v2.cur with
  | none =>
    rw [h.noCur hcur]
    exact ⟨legsOk_nil, afterStart_nil⟩
  | some cur =>
    obtain ⟨hok, hfollow⟩ := h.cur cur hcur
    have hsub := List.eraseIdx_sublist v2.legs 1
    have hafter := h.after
    rw [V2State.allLegs, hcur] at hafter
    have hended : AfterStart v2.emptyTravelStartMs (v2.legs ++ [endLeg f.now cur]) :=
      hafter.goes (goes_endLeg cur).1 h.start.2
    simp only
    split_ifs with hmany
    · refine ⟨LegsOk.concat_endLeg ⟨fun l hl => h.legs.each l (hsub.subset hl), h.legs.follow.sublist hsub⟩ hok
        (hpast cur hcur) fun l hl => hfollow l (hsub.subset hl), ?_⟩
      have herase := hended.eraseSecond
      rwa [List.eraseIdx_append_of_lt_length (by unfold V2_LEGS_MAX at hmany; omega)] at herase
    · exact ⟨h.legs.concat_endLeg hok (hpast cur hcur) hfollow, hended⟩

theorem trackInv_assignLeg (prev : Option Pos) (pos : Pos) (h : TrackInv f.now v2)
    (hpast : f.topos1.getD "" ≠ "" → prev.bind Pos.latchedTopos ≠ some (f.topos1.getD "") →
      ∀ l ∈ v2.cur, l.arrivedMs ≤ f.now) : TrackInv f.now (assignLeg prev f pos v2) := by
  have hnow := f.now_pos
  have hopen := trackInv_openV2 (f := f) pos.latchedJobtype ⟨hnow.le, le_rfl⟩ h
  have hsame : (openV2 f.now pos.latchedJobtype v2).cur = v2.cur := by
    unfold openV2
    split_ifs <;> rfl
  unfold assignLeg
  simp only
  split_ifs with hnew
  · obtain ⟨hlegs, hafter⟩ := legsOk_pushLeg hopen (hsame ▸ hpast hnew.1 hnew.2.1)
    obtain ⟨hok, -⟩ := legOk_newLeg f (f.topos1.getD "")
    refine ⟨hopen.opened, hopen.start, hlegs, fun l hl => ?_, fun hnone => by simp at hnone, ?_⟩
    · rw [← Option.some.inj hl]
      -- the new leg is assigned now, when the others have arrived
      exact ⟨hok, fun l' hl' => (hlegs.each l' hl').2⟩
    · exact hafter.concat hopen.start.2 fun hleft => absurd rfl hleft
  · exact hopen
  · exact h

/-! ## What is handed to the flusher -/

/-- What the tracker hands to the flusher: legs that follow one another, nothing after the drop, and a first movement that
comes before what it is compared with. -/
structure RecordOk (c : CompletedV2) : Prop where
  dropped : 0 < c.droppedMs
  start : 0 ≤ c.emptyTravelStartMs ∧ c.emptyTravelStartMs ≤ c.droppedMs
  legs : LegsOk c.droppedMs c.legs
  after : AfterStart c.emptyTravelStartMs c.legs
  first : ∀ l ∈ c.legs.head?, c.emptyTravelStartMs ≤ l.assignedMs ∨ pickupSide c.jobtype l
  v1 : c.v1DropArrivedMs = 0 ∨ c.emptyTravelStartMs ≤ c.v1DropArrivedMs

variable (dist) in
theorem ingestV1_latchedJobtype (prev : Option Pos) (f : Frame) :
    (ingestV1 dist prev f).1.latchedJobtype = (sight dist prev f).latchedJobtype := by
  have harrive : (arrive dist prev f).latchedJobtype = (sight dist prev f).latchedJobtype := rfl
  rw [← harrive, ingestV1]
  generalize arrive dist prev f = pos
  have hload : ∀ was (pos : Pos), (load was f pos).latchedJobtype = pos.latchedJobtype := by
    intro was pos
    unfold load
    split_ifs <;> rfl
  rcases containerEdge_cases prev f pos with ⟨-, h⟩ | ⟨-, -, -, h⟩ | ⟨-, -, -, h⟩ <;> rw [h]
  · exact hload false pos
  · rw [hload]
    rcases unload_cases f pos with ⟨-, -, hu⟩ | ⟨-, -, hu⟩ | ⟨-, hu⟩ <;> rw [hu]

variable (dist) in
theorem stamped_arrivedAt (prev : Option Pos) (f : Frame) (pos pos' : Pos) (oc : OpenCycle) :
    (craneStamp dist f pos (phaseStamp prev f pos' oc)).arrivedAtMs = oc.arrivedAtMs ∨
      (craneStamp dist f pos (phaseStamp prev f pos' oc)).arrivedAtMs = f.now := by
  have hcrane : ∀ oc, (craneStamp dist f pos oc).arrivedAtMs = oc.arrivedAtMs := by
    intro oc
    unfold craneStamp
    split
    · split
      · simp only [stampCraneCycle]
        split_ifs <;> rfl
      · rfl
    · rfl
  rw [hcrane, phaseStamp]
  unfold stampCycle
  split_ifs <;> simp

/-- A delivery takes the box out of field 1; its arrival at the drop is that of the open cycle, or now. -/
theorem completed_facts {prev : Option Pos} {f : Frame} {done : CompletedCycle}
    (h : (ingestV1 dist prev f).2.completed = some done) :
    Unloads prev f ∧ (done.arrivedAtMs = 0 ∨ done.arrivedAtMs = f.now ∨
      ∃ oc ∈ prev.bind Pos.cycleOpen, done.arrivedAtMs = oc.arrivedAtMs) := by
  rcases containerEdge_cases prev f (arrive dist prev f) with ⟨-, he⟩ | ⟨-, -, -, he⟩ | ⟨hold, hc1, -, he⟩
  · simp [ingestV1, he, Out.quiet] at h
  · simp [ingestV1, he, Out.quiet] at h
  · refine ⟨⟨hold, hc1⟩, ?_⟩
    rcases unload_cases f (arrive dist prev f) with ⟨-, -, hu⟩ | ⟨-, -, hu⟩ | ⟨-, hu⟩
    · simp only [ingestV1, he, hu] at h
      obtain rfl := Option.some.inj h
      have hcycle : (arrive dist prev f).cycleOpen = ((prev.bind Pos.cycleOpen).map (phaseStamp prev f (sight dist prev f))).map
          (craneStamp dist f (stampEmpty prev f (stampPhases prev f (sight dist prev f)))) := by
        cases prev <;> rfl
      show ((arrive dist prev f).cycleOpen.getD OpenCycle.default).arrivedAtMs = 0 ∨ _
      rw [hcycle]
      cases hoc : prev.bind Pos.cycleOpen with
      | none => exact Or.inl rfl
      | some oc =>
        rcases stamped_arrivedAt dist prev f (stampEmpty prev f (stampPhases prev f (sight dist prev f)))
          (sight dist prev f) oc with heq | heq
        · exact Or.inr (Or.inr ⟨oc, rfl, heq⟩)
        · exact Or.inr (Or.inl heq)
    · simp [ingestV1, he, hu, Out.quiet] at h
    · simp [ingestV1, he, hu, Out.quiet] at h

theorem head_closedLegs {f : Frame} {pos : Pos} {v2 v2' : V2State} (hlegs : v2'.legs = v2.legs)
    (hcur : ∀ l' ∈ v2'.cur, ∃ l ∈ v2.cur, Goes f l l') :
    ∀ l' ∈ (closedLegs f pos v2').1.head?, ∃ l ∈ v2.allLegs.head?, l'.assignedMs = l.assignedMs ∧ l'.crane = l.crane := by
  intro l' hl'
  unfold V2State.allLegs
  cases hnil : v2.legs with
  | cons a rest =>
    have hhead : (closedLegs f pos v2').1.head? = some a := by
      unfold closedLegs
      cases v2'.cur with
      | none => simp [hlegs, hnil]
      | some cur =>
        simp only
        split_ifs <;> simp [hlegs, hnil]
    rw [hhead] at hl'
    obtain rfl := Option.some.inj hl'
    exact ⟨a, rfl, rfl, rfl⟩
  | nil =>
    cases hc : v2'.cur with
    | none => simp [closedLegs, hc, hlegs, hnil] at hl'
    | some cur =>
      obtain ⟨l, hl, hgoes⟩ := hcur cur hc
      have hend : l' = endLeg f.now cur := by
        simp only [closedLegs, hc, hlegs, hnil] at hl'
        split_ifs at hl' <;> simp_all
      have hsame := hgoes.trans (goes_endLeg cur).1
      refine ⟨l, ?_, by rw [hend]; exact hsame.assigned, by rw [hend]; exact hsame.crane⟩
      rw [Option.mem_def.mp hl]
      rfl

variable (dist) in
/-- The tracker when a delivery may close the cycle. -/
def tracked (prev : Option Pos) (f : Frame) (pos : Pos) : V2State :=
  let v2 := startTravel f pos.v2
  pickupLeg prev f pos { v2 with cur := v2.cur.map (progressLeg dist (arrivedEdge prev f) pos.arrDtimeMs f) }

theorem startTravel_same (f : Frame) (v2 : V2State) : (startTravel f v2).cur = v2.cur ∧
    (startTravel f v2).legs = v2.legs ∧ (startTravel f v2).jobtype = v2.jobtype := by
  unfold startTravel
  split_ifs <;> exact ⟨rfl, rfl, rfl⟩

variable (dist) in
theorem trackInv_tracked (prev : Option Pos) {f : Frame} {pos : Pos} (h : TrackInv f.now pos.v2) :
    TrackInv f.now (tracked dist prev f pos) :=
  trackInv_pickupLeg prev pos (trackInv_progress dist _ _ (trackInv_startTravel h))

theorem pickupLeg_past {prev : Option Pos} {f : Frame} {pos : Pos} {v2 : V2State}
    (h : ∀ l ∈ v2.cur, l.arrivedMs ≤ f.now) : ∀ l ∈ (pickupLeg prev f pos v2).cur, l.arrivedMs ≤ f.now := by
  have hopen : (openV2 f.now pos.latchedJobtype v2).cur = v2.cur := by
    unfold openV2
    split_ifs <;> rfl
  unfold pickupLeg
  split
  · simp only
    split
    · rename_i leg hcur
      split_ifs
      · intro l hl
        rw [← Option.some.inj hl]
      · rw [hopen]
        exact h
    · rename_i hcur
      split_ifs
      · intro l hl
        rw [← Option.some.inj hl]
      · rw [hcur]
        exact fun l hl => by simp at hl
  · exact h

variable (dist) in
theorem tracked_past (prev : Option Pos) {f : Frame} {pos : Pos}
    (h : ∀ l ∈ pos.v2.cur, l.arrivedMs ≤ f.now ∧ pos.arrDtimeMs ≤ f.now) :
    ∀ l ∈ (tracked dist prev f pos).cur, l.arrivedMs ≤ f.now := by
  refine pickupLeg_past fun l hl => ?_
  obtain ⟨l0, hl0, rfl⟩ := Option.map_eq_some_iff.mp hl
  rw [(startTravel_same f pos.v2).1] at hl0
  exact (goes_progressLeg dist _ _ l0).2 (h l0 hl0).1 (h l0 hl0).2

variable (dist) in
/-- Where a box leaves field 1, the legs are those of before, as far as they go on. -/
theorem tracked_of_unloads {prev : Option Pos} {f : Frame} (pos : Pos) (h : Unloads prev f) :
    (tracked dist prev f pos).legs = pos.v2.legs ∧ (tracked dist prev f pos).jobtype = pos.v2.jobtype ∧
      (tracked dist prev f pos).emptyTravelStartMs = (startTravel f pos.v2).emptyTravelStartMs ∧
      ∀ l' ∈ (tracked dist prev f pos).cur, ∃ l ∈ pos.v2.cur, Goes f l l' := by
  obtain ⟨hcur, hlegs, hjob⟩ := startTravel_same f pos.v2
  have hno : tracked dist prev f pos = { startTravel f pos.v2 with
      cur := (startTravel f pos.v2).cur.map (progressLeg dist (arrivedEdge prev f) pos.arrDtimeMs f) } :=
    if_neg fun hempty => h.1 hempty.1
  rw [hno]
  refine ⟨hlegs, hjob, rfl, fun l' hl' => ?_⟩
  obtain ⟨l, hl, rfl⟩ := Option.map_eq_some_iff.mp hl'
  exact ⟨l, hcur ▸ hl, (goes_progressLeg dist _ _ l).1⟩

variable (dist) in
/-- **A clear frame keeps the legs in order**, and so they are in the cycle it closes. -/
theorem trackInv_ingest {prev : Option Pos} {f : Frame} (h : TrackInv f.now (sight dist prev f).v2)
    (hclear : ∀ p ∈ prev, FrameClear dist f p) :
    TrackInv f.now (ingest dist prev f).1.v2 ∧ ∀ c ∈ (ingest dist prev f).2.completedV2, RecordOk c := by
  obtain ⟨hv2, harr⟩ := ingestV1_v2 dist prev f
  have hjob := ingestV1_latchedJobtype dist prev f
  set pos := (ingestV1 dist prev f).1 with hpos
  rw [← hv2] at h
  have htracked := trackInv_tracked dist prev h
  -- where a leg may end, its arrival is not ahead of the clock
  have hpast : EndsLeg prev f → ∀ l ∈ (tracked dist prev f pos).cur, l.arrivedMs ≤ f.now := by
    intro hends
    refine tracked_past dist prev ?_
    rw [hv2, harr]
    cases hprev : prev with
    | none => exact fun l hl => by simp [sight, V2State.default] at hl
    | some p => exact (hclear p hprev).arrived (hprev ▸ hends)
  have hassign : ∀ v2, TrackInv f.now v2 → (EndsLeg prev f → ∀ l ∈ v2.cur, l.arrivedMs ≤ f.now) →
      TrackInv f.now (assignLeg prev f pos v2) := fun v2 hinv hcur =>
    trackInv_assignLeg prev pos hinv fun hne hnew => hcur (Or.inl ⟨hne, hnew⟩)
  show TrackInv f.now (trackLegs dist prev f pos _).1 ∧ ∀ c ∈ (trackLegs dist prev f pos _).2, RecordOk c
  cases hdone : (ingestV1 dist prev f).2.completed with
  | none => exact ⟨hassign _ htracked hpast, fun c hc => absurd hc (Option.not_mem_none c)⟩
  | some done =>
    show TrackInv f.now (assignLeg prev f pos (closeV2 prev f pos done (tracked dist prev f pos)).1) ∧
      ∀ c ∈ (closeV2 prev f pos done (tracked dist prev f pos)).2, RecordOk c
    obtain ⟨hunloads, harrivedAt⟩ := completed_facts hdone
    obtain ⟨hsame, hjobtype, hstart, hcur⟩ := tracked_of_unloads dist pos hunloads
    obtain ⟨hclosed, hafter, hcarry⟩ := legsOk_closedLegs pos htracked (hpast (Or.inr hunloads))
    obtain ⟨hreopen, hreopenPast⟩ := trackInv_reopenV2 prev pos hcarry
    refine ⟨hassign _ hreopen fun _ => hreopenPast, fun c hc => ?_⟩
    simp only [closeV2, Option.mem_def, Option.ite_none_right_eq_some, Option.some.injEq] at hc
    obtain ⟨-, rfl⟩ := hc
    obtain ⟨p, hprev⟩ : ∃ p, prev = some p := by
      cases hprev : prev with
      | none => exact absurd (by rw [hprev]; rfl) hunloads.1
      | some p => exact ⟨p, rfl⟩
    have hp := hclear p hprev
    subst hprev
    have hv2p : pos.v2 = p.v2 := hv2
    refine ⟨f.now_pos, htracked.start, hclosed, hafter, fun l hl => ?_, ?_⟩
    · obtain ⟨l0, hl0, hassigned, hcrane⟩ := head_closedLegs hsame hcur l hl
      show (tracked dist (some p) f pos).emptyTravelStartMs ≤ l.assignedMs ∨
        pickupSide ((tracked dist (some p) f pos).jobtype <|> pos.latchedJobtype) l
      rw [hstart, hjobtype, hjob, hassigned, pickupSide, hcrane, hv2p]
      exact hp.first hunloads l0 (hv2p ▸ hl0)
    · show done.arrivedAtMs = 0 ∨ (tracked dist (some p) f pos).emptyTravelStartMs ≤ done.arrivedAtMs
      rcases harrivedAt with hzero | hnow | ⟨oc, hoc, heq⟩
      · exact Or.inl hzero
      · exact Or.inr (hnow ▸ htracked.start.2)
      · rw [heq, hstart, hv2p]
        exact hp.v1 hunloads oc hoc

def TrackOk (s : Truck) : Prop := 0 ≤ s.clock ∧ ∀ p, s.pos = some p → TrackInv s.clock p.v2

theorem trackOk_step {i : Input} {s : Truck} (hs : TrackOk s) (hclock : s.clock ≤ i.now) (hclear : RowClear dist i s) :
    TrackOk (step dist i s).2 ∧ ∀ c ∈ (step dist i s).1.completedV2, RecordOk c := by
  cases i with
  | frame f =>
    have hnow := f.now_pos
    have hsight : TrackInv f.now (sight dist s.pos f).v2 := by
      cases hp : s.pos with
      | none => exact trackInv_default hnow.le
      | some p => exact (hs.2 p hp).mono hclock
    obtain ⟨hinv, hrecord⟩ := trackInv_ingest dist hsight hclear
    refine ⟨⟨hnow.le, fun p hp => ?_⟩, hrecord⟩
    obtain rfl := Option.some.inj hp
    exact hinv
  | prune now =>
    change s.clock ≤ now at hclock
    refine ⟨⟨hs.1.trans hclock, fun p hp => ?_⟩, fun c hc => by simp [step, Out.quiet] at hc⟩
    obtain ⟨hmem, -⟩ := Option.filter_eq_some_iff.mp hp
    exact (hs.2 p hmem).mono hclock

/-- **In every run of clear frames the cycles that are closed are in order.** -/
theorem recordOk_run {inputs : List Input} (hclear : Steps dist (RowClear dist) inputs unseen) :
    ∀ x ∈ runInputs dist inputs unseen, ∀ c ∈ x.1.completedV2, RecordOk c := by
  have hrun := runInputs_inv (P := TrackOk) (Q := fun o => ∀ c ∈ o.completedV2, RecordOk c)
    (fun i s hs hle hok => trackOk_step hs hle hok) ⟨le_rfl, fun p hp => by simp [unseen] at hp⟩ hclear
  exact fun x hx => (hrun x hx).2

end Track

end TtAiops.Cycle
