import TtAiops.Api.Workpool

/-!
# The pace of a ship (`workpool.rs`)

When a box is due does not depend on how long a move takes: the time that is left until the ship has to be done is shared out
among the moves that are left, at least a second to each, and a box is due after the moves before it. The arithmetic is that of
`i64`: what does not fit is a fault.

* `paceDue` : when the box at a place is due;
* `firstDue`, `boxDue` : the work that is known by its number only, and a box with its place in the queue;
* `PaceSound`, `pace_sound` : **a box behind another is not due before it; a ship in time is not kept beyond its target; while
  nothing is done the slack does not grow; and nobody divides by zero**;
* `timeline_due` : along the timeline the queues of a ship are due one after the other.
-/

namespace TtAiops.Api.Workpool
open TtAiops.Lib

/-! ## The arithmetic -/

/-- What stops the program. -/
inductive Fault
  | zeroDivisor
  | overflow
  deriving DecidableEq

/-- `i64`, of 64 bits. -/
def i64 (x : ℤ) : Except Fault ℤ := if InI64 x then .ok x else .error .overflow

/-- `/`: towards zero. -/
def divI64 (a b : ℤ) : Except Fault ℤ := if b = 0 then .error .zeroDivisor else i64 (a.tdiv b)

def MIN_UTC : ℤ := -8334601315200 * second

/-- `Duration::seconds`: whole milliseconds have to fit. -/
def seconds (s : ℤ) : Except Fault ℤ :=
  if -9223372036854775 ≤ s ∧ s ≤ 9223372036854775 then .ok (s * second) else .error .overflow

/-- `+`, of an instant and a duration. -/
def later (t d : ℤ) : Except Fault ℤ := if MIN_UTC ≤ t + d ∧ t + d ≤ MAX_UTC then .ok (t + d) else .error .overflow

/-! ## The pace -/

def totalN (total : Option ℤ) : ℤ := max (total.getD 0) 1

def beforeN (before : Option ℤ) : ℤ := max (before.getD 0) 0

/-- `pace`: the seconds for a move. -/
def pace (finishBy now : ℤ) (total : Option ℤ) : Except Fault ℤ := do
  let each ← divI64 (numSeconds (finishBy - now)) (totalN total)
  return max each 1

def paceDue (finishBy now : ℤ) (total before : Option ℤ) (slotIdx : ℤ) : Except Fault ℤ := do
  let pace ← pace finishBy now total
  let place ← i64 (beforeN before + slotIdx)
  let s ← i64 (place * pace)
  let d ← seconds s
  later now d

/-- What `eta` has of a queue, as far as the deadlines go. -/
structure EtaRow where
  workEta : ℤ
  paceBeforeN : Option ℤ
  paceTotalN : Option ℤ
  paceFinishBy : Option ℤ

/-- `eta`: the queues with a forecast. -/
def etaRow (s : Slot) : Option EtaRow := s.workEta.map fun e => ⟨e, s.paceBeforeN, s.paceTotalN, s.paceFinishBy⟩

/-- `first_due`, of work that is known by its number only. Without a target it is the forecast. -/
def firstDue (row : Option EtaRow) (now : ℤ) : Except Fault (Option ℤ) :=
  match row with
  | none => .ok none
  | some r =>
    match r.paceFinishBy with
    | some finishBy => some <$> paceDue finishBy now r.paceTotalN r.paceBeforeN 0
    | none => .ok (some r.workEta)

/-- `tw.f`: the part of the ship's rows that are of a twin. -/
def twinPart (rows : List Bool) : ℚ := (rows.count true : ℚ) / rows.length

/-- `slot_idx`: the place in the plan, in lifts; for a box that is not planned the place among the orders. -/
def slotIdx (pos : Option ℕ) (rows : List Bool) (rowNumber : ℕ) : ℤ :=
  match pos with
  | some pos => ⌊(pos : ℚ) * (1 - twinPart rows / 2)⌋
  | none => rowNumber

/-- `box_due`, of a box with a place in its queue. `box_eta` is computed in any case. -/
def boxDue (row : Option EtaRow) (slotIdx moveS now : ℤ) : Except Fault (Option ℤ) :=
  match row with
  | none => .ok none
  | some r => do
    let s ← i64 (slotIdx * moveS)
    let d ← seconds s
    let boxEta ← later r.workEta d
    match r.paceFinishBy with
    | some finishBy => some <$> paceDue finishBy now r.paceTotalN r.paceBeforeN slotIdx
    | none => return some boxEta

/-! ## What it should be -/

/-- What is right about the pace of a ship with this target and so many moves. -/
structure PaceSound (finishBy : ℤ) (total : Option ℤ) : Prop where
  divisor : ∀ now before slot, paceDue finishBy now total before slot ≠ .error .zeroDivisor
  /-- A box behind another is not due before it. -/
  position : ∀ now before slot before' slot' d d', beforeN before + slot ≤ beforeN before' + slot' →
    paceDue finishBy now total before slot = .ok d → paceDue finishBy now total before' slot' = .ok d' → d ≤ d'
  /-- If there is a second for each of the first `n` moves, none of them is due after the target. -/
  schedule : ∀ now before slot n, n ≤ totalN total → n * second ≤ finishBy - now → beforeN before + slot ≤ n →
    ∀ d, paceDue finishBy now total before slot = .ok d → d ≤ finishBy
  /-- And it is due at some time: there is no fault. -/
  computed : ∀ now before slot n, n ≤ totalN total → n * second ≤ finishBy - now → beforeN before + slot ≤ n →
    0 ≤ beforeN before + slot → MIN_UTC ≤ now → finishBy ≤ MAX_UTC →
    ∃ d, paceDue finishBy now total before slot = .ok d ∧ now ≤ d
  /-- While nothing is done, the slack does not grow. -/
  slack : ∀ now now' before slot d d', now ≤ now' → 0 ≤ beforeN before + slot →
    paceDue finishBy now total before slot = .ok d → paceDue finishBy now' total before slot = .ok d' → d' - now' ≤ d - now

/-! ## The arithmetic, when it fits -/

theorem bind_eq_ok {α β : Type} {x : Except Fault α} {f : α → Except Fault β} {b : β} :
    (x >>= f) = .ok b ↔ ∃ a, x = .ok a ∧ f a = .ok b := by
  cases x with
  | error e =>
    constructor
    · intro h
      cases h
    · intro ⟨a, h, _⟩
      cases h
  | ok a =>
    constructor
    · intro h
      exact ⟨a, rfl, h⟩
    · intro ⟨a', h, h'⟩
      rw [Except.ok.inj h]
      exact h'

theorem i64_eq_ok {x y : ℤ} : i64 x = .ok y ↔ InI64 x ∧ y = x := by
  unfold i64
  by_cases h : InI64 x
  · rw [if_pos h, Except.ok.injEq, and_iff_right h, eq_comm]
  · rw [if_neg h]
    exact iff_of_false (by simp) fun hx => h hx.1

theorem seconds_eq_ok {s d : ℤ} : seconds s = .ok d ↔ (-9223372036854775 ≤ s ∧ s ≤ 9223372036854775) ∧ d = s * second := by
  unfold seconds
  split <;> simp [*, eq_comm]

theorem later_eq_ok {t d u : ℤ} : later t d = .ok u ↔ (MIN_UTC ≤ t + d ∧ t + d ≤ MAX_UTC) ∧ u = t + d := by
  unfold later
  split <;> simp [*, eq_comm]

theorem i64_ne_zeroDivisor (x : ℤ) : i64 x ≠ .error .zeroDivisor := by
  unfold i64
  split <;> simp

theorem bind_ne_zeroDivisor {α β : Type} {x : Except Fault α} {f : α → Except Fault β} (hx : x ≠ .error .zeroDivisor)
    (hf : ∀ a, f a ≠ .error .zeroDivisor) : (x >>= f) ≠ .error .zeroDivisor := by
  cases x with
  | error e =>
    intro h
    exact hx (congrArg Except.error (Except.error.inj h))
  | ok a => exact hf a

/-! ## The share of a move -/

theorem totalN_pos (total : Option ℤ) : 1 ≤ totalN total := le_max_right _ _

/-- The seconds for a move, as a number. -/
def share (finishBy now : ℤ) (total : Option ℤ) : ℤ := max ((numSeconds (finishBy - now)).tdiv (totalN total)) 1

theorem share_pos (finishBy now : ℤ) (total : Option ℤ) : 1 ≤ share finishBy now total := le_max_right _ _

/-- The less time is left, the less there is for a move: the division towards zero keeps the order, across zero as well. -/
theorem share_anti (finishBy : ℤ) (total : Option ℤ) : Antitone (fun now => share finishBy now total) := by
  intro now now' h
  have hseconds : numSeconds (finishBy - now') ≤ numSeconds (finishBy - now) :=
    Int.tdiv_le_tdiv second_pos (by omega)
  have htotal := totalN_pos total
  exact max_le_max_right 1 (Int.tdiv_le_tdiv (by omega) hseconds)

/-- If each of the first `n` moves has a second, then with its share as well they are done in time. -/
theorem mul_share_le {finishBy now n : ℤ} {total : Option ℤ} (hn : n ≤ totalN total) (htime : n * second ≤ finishBy - now)
    {place : ℤ} (hplace : place ≤ n) : place * share finishBy now total * second ≤ finishBy - now := by
  have hshare := share_pos finishBy now total
  have htotal := totalN_pos total
  obtain hneg | hpos := lt_or_ge place 0
  · -- Before the first move a longer share is earlier still.
    have hle : place * share finishBy now total ≤ n := by nlinarith
    exact (mul_le_mul_of_nonneg_right hle second_pos.le).trans htime
  · have htimeleft : 0 ≤ finishBy - now := (mul_nonneg (hpos.trans hplace) second_pos.le).trans htime
    have hseconds : numSeconds (finishBy - now) * second ≤ finishBy - now := by
      rw [mul_comm]
      exact Int.mul_tdiv_self_le htimeleft
    have hseconds' : n ≤ numSeconds (finishBy - now) := Int.le_tdiv_of_mul_le second_pos htime
    have hdone : place * share finishBy now total ≤ numSeconds (finishBy - now) := by
      unfold share
      obtain h | h := max_choice ((numSeconds (finishBy - now)).tdiv (totalN total)) 1
      · have heach : 0 ≤ (numSeconds (finishBy - now)).tdiv (totalN total) := by
          rw [← h]
          exact zero_le_one.trans (le_max_right _ _)
        rw [h]
        calc place * (numSeconds (finishBy - now)).tdiv (totalN total)
            ≤ totalN total * (numSeconds (finishBy - now)).tdiv (totalN total) :=
              mul_le_mul_of_nonneg_right (hplace.trans hn) heach
          _ ≤ numSeconds (finishBy - now) := Int.mul_tdiv_self_le (by omega)
      · rw [h, mul_one]
        omega
    exact (mul_le_mul_of_nonneg_right hdone second_pos.le).trans hseconds

/-! ## When a box is due -/

theorem pace_eq_ok {finishBy now : ℤ} {total : Option ℤ} {p : ℤ} :
    pace finishBy now total = .ok p ↔ i64 ((numSeconds (finishBy - now)).tdiv (totalN total)) =
      .ok ((numSeconds (finishBy - now)).tdiv (totalN total)) ∧ p = share finishBy now total := by
  have htotal := totalN_pos total
  unfold pace divI64
  rw [if_neg (by omega), bind_eq_ok]
  constructor
  · intro ⟨each, heach, hp⟩
    obtain ⟨hfits, rfl⟩ := i64_eq_ok.mp heach
    exact ⟨heach, (Except.ok.inj hp).symm⟩
  · intro ⟨heach, hp⟩
    exact ⟨_, heach, congrArg Except.ok hp.symm⟩

theorem paceDue_ok {finishBy now : ℤ} {total before : Option ℤ} {slot d : ℤ}
    (h : paceDue finishBy now total before slot = .ok d) :
    d = now + (beforeN before + slot) * share finishBy now total * second := by
  obtain ⟨p, hp, h⟩ := bind_eq_ok.mp h
  obtain ⟨place, hplace, h⟩ := bind_eq_ok.mp h
  obtain ⟨s, hs, h⟩ := bind_eq_ok.mp h
  obtain ⟨span, hspan, h⟩ := bind_eq_ok.mp h
  obtain ⟨_, rfl⟩ := pace_eq_ok.mp hp
  obtain ⟨_, rfl⟩ := i64_eq_ok.mp hplace
  obtain ⟨_, rfl⟩ := i64_eq_ok.mp hs
  obtain ⟨_, rfl⟩ := seconds_eq_ok.mp hspan
  exact (later_eq_ok.mp h).2

theorem paceDue_ne_zeroDivisor (finishBy now : ℤ) (total before : Option ℤ) (slot : ℤ) :
    paceDue finishBy now total before slot ≠ .error .zeroDivisor := by
  have htotal := totalN_pos total
  apply bind_ne_zeroDivisor
  · unfold pace divI64
    rw [if_neg (by omega)]
    apply bind_ne_zeroDivisor (i64_ne_zeroDivisor _)
    intro each h
    cases h
  · intro p
    apply bind_ne_zeroDivisor (i64_ne_zeroDivisor _)
    intro place
    apply bind_ne_zeroDivisor (i64_ne_zeroDivisor _)
    intro s
    apply bind_ne_zeroDivisor
    · unfold seconds
      split <;> simp
    · intro span
      unfold later
      split <;> simp

theorem paceDue_computed {finishBy now n : ℤ} {total before : Option ℤ} {slot : ℤ} (hn : n ≤ totalN total)
    (htime : n * second ≤ finishBy - now) (hplace : beforeN before + slot ≤ n) (hnonneg : 0 ≤ beforeN before + slot)
    (hmin : MIN_UTC ≤ now) (hmax : finishBy ≤ MAX_UTC) :
    paceDue finishBy now total before slot = .ok (now + (beforeN before + slot) * share finishBy now total * second) := by
  have hsecond : second = 1000000000 := rfl
  have hdone := mul_share_le hn htime hplace
  have hshare := share_pos finishBy now total
  have hle : beforeN before + slot ≤ (beforeN before + slot) * share finishBy now total := le_mul_of_one_le_right hnonneg hshare
  have htimeleft : 0 ≤ finishBy - now := (mul_nonneg (hnonneg.trans hplace) second_pos.le).trans htime
  have hmin' : -8334601315200 * second ≤ now := hmin
  have hmax' : finishBy ≤ 8210266876799 * second + 999999999 := hmax
  have hseconds : 0 ≤ numSeconds (finishBy - now) := Int.tdiv_nonneg htimeleft second_pos.le
  have hseconds' : second * numSeconds (finishBy - now) ≤ finishBy - now := Int.mul_tdiv_self_le htimeleft
  have heach : 0 ≤ (numSeconds (finishBy - now)).tdiv (totalN total) :=
    Int.tdiv_nonneg hseconds (zero_le_one.trans (totalN_pos total))
  have heach' : (numSeconds (finishBy - now)).tdiv (totalN total) ≤ numSeconds (finishBy - now) := Int.tdiv_le_self _ hseconds
  rw [hsecond] at hdone hmin' hmax' hseconds'
  generalize hs : (beforeN before + slot) * share finishBy now total = s at *
  have hpace : pace finishBy now total = .ok (share finishBy now total) :=
    pace_eq_ok.mpr ⟨i64_eq_ok.mpr ⟨⟨by omega, by omega⟩, rfl⟩, rfl⟩
  apply bind_eq_ok.mpr
  refine ⟨_, hpace, bind_eq_ok.mpr ⟨_, i64_eq_ok.mpr ⟨⟨by omega, by omega⟩, rfl⟩, ?_⟩⟩
  rw [hs]
  refine bind_eq_ok.mpr ⟨_, i64_eq_ok.mpr ⟨⟨by omega, by omega⟩, rfl⟩, ?_⟩
  refine bind_eq_ok.mpr ⟨_, seconds_eq_ok.mpr ⟨⟨by omega, by omega⟩, rfl⟩, ?_⟩
  apply later_eq_ok.mpr
  rw [hsecond]
  unfold MIN_UTC MAX_UTC
  rw [hsecond]
  exact ⟨⟨by omega, by omega⟩, rfl⟩

/-- **The pace of a ship**: a box behind another is not due before it; with a second for each of the first moves none of them is
due after the target; while nothing is done the slack does not grow; and nobody divides by zero. -/
theorem pace_sound (finishBy : ℤ) (total : Option ℤ) : PaceSound finishBy total := by
  refine ⟨?_, ?_, ?_, ?_, ?_⟩
  · intro now before slot
    exact paceDue_ne_zeroDivisor finishBy now total before slot
  · intro now before slot before' slot' d d' hplace hd hd'
    rw [paceDue_ok hd, paceDue_ok hd']
    have hshare := zero_le_one.trans (share_pos finishBy now total)
    have := mul_le_mul_of_nonneg_right (mul_le_mul_of_nonneg_right hplace hshare) second_pos.le
    omega
  · intro now before slot n hn htime hplace d hd
    rw [paceDue_ok hd]
    have := mul_share_le hn htime hplace
    omega
  · intro now before slot n hn htime hplace hnonneg hmin hmax
    refine ⟨_, paceDue_computed hn htime hplace hnonneg hmin hmax, ?_⟩
    have := mul_nonneg (mul_nonneg hnonneg (zero_le_one.trans (share_pos finishBy now total))) second_pos.le
    omega
  · intro now now' before slot d d' hnow hnonneg hd hd'
    rw [paceDue_ok hd, paceDue_ok hd']
    have := mul_le_mul_of_nonneg_right (mul_le_mul_of_nonneg_left (share_anti finishBy total hnow) hnonneg) second_pos.le
    dsimp only at this
    omega

/-- Seven moves in a hundred seconds are fourteen seconds each; of a ship that is late each move has one. -/
example : paceDue (100 * second) 0 (some 7) (some 3) 1 = .ok (56 * second) ∧
    paceDue (-100 * second) 0 (some 7) (some 3) 1 = .ok (4 * second) := ⟨rfl, rfl⟩

theorem slotIdx_nonneg (pos : Option ℕ) (rows : List Bool) (rowNumber : ℕ) : 0 ≤ slotIdx pos rows rowNumber := by
  cases pos with
  | none => exact Int.natCast_nonneg rowNumber
  | some pos =>
    have hpart : twinPart rows ≤ 1 := by
      apply div_le_one_of_le₀ _ (Nat.cast_nonneg _)
      exact_mod_cast List.count_le_length
    apply Int.floor_nonneg.mpr
    apply mul_nonneg (Nat.cast_nonneg pos)
    linarith

/-! ## Along the timeline -/

theorem roundI64_mono : Monotone roundI64 := by
  intro x y hxy
  unfold roundI64
  split_ifs with hx hy
  · exact Int.floor_mono (by linarith)
  · exact absurd (hx.trans hxy) hy
  · calc ⌈x - 1 / 2⌉ ≤ 0 := Int.ceil_le.mpr (by push_cast; linarith)
      _ ≤ ⌊y + 1 / 2⌋ := Int.floor_nonneg.mpr (by linarith)
  · exact Int.ceil_mono (by linarith)

variable {w : World} {c : Qc}

theorem movesN_nonneg : ∀ n ∈ movesN w c, 0 ≤ n := by
  intro n hn
  obtain ⟨q, _, rfl⟩ := List.mem_map.mp hn
  apply mul_nonneg _ (moveFactor_nonneg q.vessel)
  exact_mod_cast le_max_right _ _

theorem etaRow_slot {k : ℕ} {q : Queue} {r : EtaRow} (h : etaRow (slot w c k q) = some r) :
    ∃ finish, finishBy w c q.vessel = some finish ∧ r.paceFinishBy = some finish ∧
      r.paceBeforeN = some (roundI64 (suffixN w c 0 - suffixN w c k)) ∧
      r.paceTotalN = some (roundI64 (suffixN w c 0 - suffixN w c ((lastOf w c q.vessel).getD k + 1))) := by
  unfold etaRow slot at h
  cases hfinish : finishBy w c q.vessel with
  | none =>
    rw [hfinish] at h
    cases h
  | some finish =>
    rw [hfinish] at h
    obtain rfl := Option.some.inj h
    exact ⟨finish, rfl, rfl, rfl, rfl⟩

/-- Along the timeline the queues of a ship are due one after the other. -/
theorem timeline_due {i j : ℕ} (hj : j < (order w c).length) (hij : i ≤ j)
    (hvessel : (order w c)[i].vessel = (order w c)[j].vessel) {r r' : EtaRow}
    (hr : etaRow (slot w c i (order w c)[i]) = some r) (hr' : etaRow (slot w c j (order w c)[j]) = some r') {now d d' : ℤ}
    (hd : firstDue (some r) now = .ok (some d)) (hd' : firstDue (some r') now = .ok (some d')) : d ≤ d' := by
  obtain ⟨finish, hfinish, hby, hbefore, htotal⟩ := etaRow_slot hr
  obtain ⟨finish', hfinish', hby', hbefore', htotal'⟩ := etaRow_slot hr'
  obtain ⟨last, hlast, _⟩ := lastOf_spec hj
  rw [hvessel] at hfinish htotal
  obtain rfl := Option.mem_unique hfinish hfinish'
  rw [hlast, Option.getD_some] at htotal htotal'
  unfold firstDue at hd hd'
  dsimp only at hd hd'
  rw [hby] at hd
  rw [hby'] at hd'
  have hsome : ∀ {x : Except Fault ℤ} {u : ℤ}, some <$> x = .ok (some u) → x = .ok u := by
    intro x u h
    cases x with
    | error e => cases h
    | ok a => rw [Option.some.inj (Except.ok.inj h)]
  have hdue := hsome hd
  have hdue' := hsome hd'
  rw [htotal] at hdue
  rw [htotal'] at hdue'
  apply (pace_sound finish _).position now _ _ _ _ d d' _ hdue hdue'
  rw [hbefore, hbefore', add_zero, add_zero]
  have hsuffix : suffixN w c j ≤ suffixN w c i := suffix_antitone movesN_nonneg hij
  exact max_le_max_right 0 (roundI64_mono (by linarith))

end TtAiops.Api.Workpool
