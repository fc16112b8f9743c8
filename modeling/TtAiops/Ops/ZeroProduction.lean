import TtAiops.Lib.Runs

/-!
# The alarm of a matcher that matches nothing

* `ZeroWatch`, `Turn`, `watch` : the three variables of the alarm, what a turn of the matcher comes to, and what it does to them;
* `zeros`, `Dead` : the turns without a match since the last reset, and when they count as three minutes of them;
* `watch_after` : the variables say of the past exactly that;
* `rings_once` : a stretch of turns rings once if it gets there, and else not at all.
-/

namespace TtAiops.Ops
open TtAiops.Lib

/-- What a turn of the matcher comes to; instants in milliseconds. -/
inductive Turn
  /-- The feed is down, the work list is stale, or a query has failed: the turn ends before the alarm. -/
  | skipped
  /-- No truck, or no work with a place and a time. -/
  | idle
  | matched (at_ : ℤ) (driving assign : ℕ)

structure ZeroWatch where
  zeroStreak : ℕ
  zeroSince : Option ℤ
  zeroAlerted : Bool
deriving DecidableEq

def ZeroWatch.reset : ZeroWatch := { zeroStreak := 0, zeroSince := none, zeroAlerted := false }

/-- Trucks and work, and no match: whether it rings, and the variables after it. -/
def zeroTurn (at_ : ℤ) (w : ZeroWatch) : Bool × ZeroWatch :=
  let streak := w.zeroStreak + 1
  let since := w.zeroSince.getD at_
  let rings := 3 ≤ streak && (180000 ≤ at_ - since && !w.zeroAlerted)
  (rings, { zeroStreak := streak, zeroSince := some since, zeroAlerted := w.zeroAlerted || rings })

/-- Whether the turn rings, and the variables after it. -/
def watch : Turn → ZeroWatch → Bool × ZeroWatch
  | .skipped, w => (false, w)
  | .idle, _ => (false, .reset)
  | .matched at_ driving assign, w => if 0 < driving ∧ assign = 0 then zeroTurn at_ w else (false, .reset)

/-! ## What the variables say -/

/-- A turn with work and no match. -/
def Turn.zero : Turn → Option ℤ
  | .matched at_ driving assign => if 0 < driving ∧ assign = 0 then some at_ else none
  | _ => none

/-- A turn after which the stretch starts anew. -/
def Turn.Resets : Turn → Prop
  | .skipped => False
  | .idle => True
  | .matched _ driving assign => ¬ (0 < driving ∧ assign = 0)

instance (t : Turn) : Decidable t.Resets := by
  cases t <;> unfold Turn.Resets <;> infer_instance

/-- The turns without a match since the last reset. -/
def zeros (turns : List Turn) : List ℤ :=
  turns.foldl (fun l t => if t.Resets then [] else l ++ t.zero.toList) []

/-- Three of them at least, and three minutes from the first to the last. -/
def Dead (l : List ℤ) : Prop := 3 ≤ l.length ∧ ∃ first ∈ l.head?, ∃ last ∈ l.getLast?, 180000 ≤ last - first

def watchAfter (turns : List Turn) : ZeroWatch := lastOf watch turns .reset

/-- How often a run rings, from the variables `w` on. -/
def ringings (turns : List Turn) (w : ZeroWatch) : ℕ := (runInputs watch turns w).countP fun x => x.1

theorem zeros_concat (turns : List Turn) (t : Turn) :
    zeros (turns ++ [t]) = if t.Resets then [] else zeros turns ++ t.zero.toList := by
  unfold zeros
  rw [List.foldl_append]
  rfl

theorem watchAfter_concat (turns : List Turn) (t : Turn) : watchAfter (turns ++ [t]) = (watch t (watchAfter turns)).2 := by
  unfold watchAfter
  rw [lastOf_append]
  rfl

theorem not_dead_nil : ¬ Dead [] := fun h => absurd h.1 (by decide)

def Ordered (turns : List Turn) : Prop := (turns.filterMap Turn.zero).Pairwise (· ≤ ·)

theorem zeros_sublist (turns : List Turn) : (zeros turns).Sublist (turns.filterMap Turn.zero) := by
  induction turns using List.reverseRecOn with
  | nil => exact List.Sublist.refl _
  | append_singleton turns t ih =>
    have hone : [t].filterMap Turn.zero = t.zero.toList := by
      cases h : t.zero <;> simp [h]
    rw [zeros_concat, List.filterMap_append, hone]
    split_ifs
    · exact List.nil_sublist _
    · exact ih.append (List.Sublist.refl _)

theorem Dead.concat {l : List ℤ} {at_ : ℤ} (h : Dead l) (hle : ∀ z ∈ l, z ≤ at_) : Dead (l ++ [at_]) := by
  obtain ⟨hlength, first, hfirst, last, hlast, hlong⟩ := h
  have hle' := hle last (List.mem_of_getLast? hlast)
  refine ⟨by rw [List.length_append]; omega, first, ?_, at_, by simp, by omega⟩
  rw [List.head?_append, Option.mem_def.mp hfirst]
  rfl

theorem dead_concat_iff (l : List ℤ) (at_ : ℤ) :
    Dead (l ++ [at_]) ↔ 3 ≤ l.length + 1 ∧ 180000 ≤ at_ - l.head?.getD at_ := by
  unfold Dead
  rw [List.length_append, List.length_singleton, List.getLast?_concat, List.head?_append]
  cases l.head? <;> simp

/-- The variables after a run: the count, the first and the ringing of the stretch. -/
structure Says (w : ZeroWatch) (l : List ℤ) : Prop where
  streak : w.zeroStreak = l.length
  since : w.zeroSince = l.head?
  alerted : w.zeroAlerted = true ↔ Dead l

theorem says_reset : Says .reset [] where
  streak := rfl
  since := rfl
  alerted := iff_of_false Bool.false_ne_true not_dead_nil

/-- What a turn does: it rings where it makes the stretch long enough, and the variables go on saying so. -/
theorem watch_spec {w : ZeroWatch} {l : List ℤ} (h : Says w l) (t : Turn) (hle : ∀ at_ ∈ t.zero, ∀ z ∈ l, z ≤ at_) :
    ((watch t w).1 = true ↔ Dead (if t.Resets then [] else l ++ t.zero.toList) ∧ ¬ Dead l) ∧
      Says (watch t w).2 (if t.Resets then [] else l ++ t.zero.toList) := by
  cases t with
  | skipped =>
    have hsame : l ++ Turn.skipped.zero.toList = l := List.append_nil l
    rw [if_neg (show ¬ Turn.skipped.Resets from id), hsame]
    exact ⟨⟨fun hfalse => absurd hfalse Bool.false_ne_true, fun hdead => absurd hdead.1 hdead.2⟩, h⟩
  | idle =>
    rw [if_pos (show Turn.idle.Resets from trivial)]
    exact ⟨⟨fun hfalse => absurd hfalse Bool.false_ne_true, fun hdead => absurd hdead.1 not_dead_nil⟩, says_reset⟩
  | matched at_ driving assign =>
    by_cases hzero : 0 < driving ∧ assign = 0
    · have hz : (Turn.matched at_ driving assign).zero = some at_ := if_pos hzero
      have hreset : ¬ (Turn.matched at_ driving assign).Resets := fun hno => hno hzero
      have hdead := dead_concat_iff l at_
      rw [if_neg hreset, hz, Option.toList_some]
      have hturn : watch (Turn.matched at_ driving assign) w = zeroTurn at_ w := if_pos hzero
      have hsince : some (l.head?.getD at_) = (l ++ [at_]).head? := by
        rw [List.head?_append]
        cases l.head? <;> rfl
      rw [hturn]
      by_cases hold : Dead l
      · -- it has rung already
        have hnew := hold.concat (hle at_ hz)
        have hrung := h.alerted.mpr hold
        refine ⟨by simp [zeroTurn, hrung, hold], ?_, ?_, ?_⟩
        · simp [zeroTurn, h.streak]
        · rw [← hsince, ← h.since]
          rfl
        · simp [zeroTurn, hrung, hnew]
      · have hrung : w.zeroAlerted = false := Bool.eq_false_iff.mpr fun hrung => hold (h.alerted.mp hrung)
        refine ⟨?_, ?_, ?_, ?_⟩
        · rw [hdead]
          simp [zeroTurn, h.streak, h.since, hrung, hold]
        · simp [zeroTurn, h.streak]
        · rw [← hsince, ← h.since]
          rfl
        · rw [hdead]
          simp [zeroTurn, h.streak, h.since, hrung]
    · have hturn : watch (Turn.matched at_ driving assign) w = (false, .reset) := if_neg hzero
      rw [if_pos (show (Turn.matched at_ driving assign).Resets from hzero), hturn]
      exact ⟨⟨fun hfalse => absurd hfalse Bool.false_ne_true, fun hdead => absurd hdead.1 not_dead_nil⟩, says_reset⟩

theorem Ordered.le_zero {turns : List Turn} {t : Turn} (h : Ordered (turns ++ [t])) :
    ∀ at_ ∈ t.zero, ∀ z ∈ zeros turns, z ≤ at_ := by
  intro at_ hat z hz
  unfold Ordered at h
  rw [List.filterMap_append, List.pairwise_append] at h
  exact h.2.2 z ((zeros_sublist turns).subset hz) at_ (by simp [Option.mem_def.mp hat])

theorem Ordered.of_append {turns more : List Turn} (h : Ordered (turns ++ more)) : Ordered turns := by
  unfold Ordered at h
  rw [List.filterMap_append] at h
  exact (List.pairwise_append.mp h).1

/-- **The variables say what has been since the last reset.** -/
theorem says_after {turns : List Turn} (h : Ordered turns) : Says (watchAfter turns) (zeros turns) := by
  induction turns using List.reverseRecOn with
  | nil => exact says_reset
  | append_singleton turns t ih =>
    rw [watchAfter_concat, zeros_concat]
    exact (watch_spec (ih h.of_append) t h.le_zero).2

theorem dead_stays {turns stretch : List Turn} (h : Ordered (turns ++ stretch)) (hno : ∀ t ∈ stretch, ¬ t.Resets)
    (hdead : Dead (zeros turns)) : Dead (zeros (turns ++ stretch)) := by
  induction stretch using List.reverseRecOn with
  | nil => rwa [List.append_nil]
  | append_singleton stretch t ih =>
    rw [← List.append_assoc] at h ⊢
    have hbefore := ih h.of_append fun t' ht' => hno t' (List.mem_append_left _ ht')
    rw [zeros_concat, if_neg (hno t (List.mem_append_right _ List.mem_cons_self))]
    cases hz : t.zero with
    | none => simpa using hbefore
    | some at_ => exact hbefore.concat (h.le_zero at_ hz)

theorem ringings_concat (turns : List Turn) (t : Turn) (w : ZeroWatch) :
    ringings (turns ++ [t]) w = ringings turns w + if (watch t (lastOf watch turns w)).1 then 1 else 0 := by
  unfold ringings
  have hone : runInputs watch [t] (lastOf watch turns w) = [watch t (lastOf watch turns w)] := rfl
  rw [runInputs_append, List.countP_append, hone, List.countP_singleton]

/-- **A stretch rings once.** After any run, turns without a reset ring exactly once if the stretch gets to three turns and
three minutes without a match in them, and else not at all, however often turns are skipped in between. -/
theorem rings_once {turns stretch : List Turn} (h : Ordered (turns ++ stretch)) (hno : ∀ t ∈ stretch, ¬ t.Resets) :
    (ringings stretch (watchAfter turns) = 1 ↔ Dead (zeros (turns ++ stretch)) ∧ ¬ Dead (zeros turns)) ∧
      ringings stretch (watchAfter turns) ≤ 1 := by
  induction stretch using List.reverseRecOn with
  | nil =>
    have hnone : ringings [] (watchAfter turns) = 0 := rfl
    rw [List.append_nil, hnone]
    exact ⟨⟨fun hzero => absurd hzero (by decide), fun hdead => absurd hdead.1 hdead.2⟩, Nat.zero_le _⟩
  | append_singleton stretch t ih =>
    rw [← List.append_assoc] at h ⊢
    obtain ⟨hiff, hle⟩ := ih h.of_append fun t' ht' => hno t' (List.mem_append_left _ ht')
    have hsays := says_after h.of_append
    have hspec := watch_spec hsays t h.le_zero
    have hafter : lastOf watch stretch (watchAfter turns) = watchAfter (turns ++ stretch) := by
      unfold watchAfter
      rw [lastOf_append]
    rw [← zeros_concat] at hspec
    rw [ringings_concat, hafter]
    have hno' : ∀ t' ∈ stretch, ¬ t'.Resets := fun t' ht' => hno t' (List.mem_append_left _ ht')
    have hstays : Dead (zeros (turns ++ stretch)) → Dead (zeros (turns ++ stretch ++ [t])) :=
      dead_stays h fun t' ht' => hno t' (List.mem_append_right _ ht')
    by_cases hrings : (watch t (watchAfter (turns ++ stretch))).1 = true
    · obtain ⟨hnew, hold⟩ := hspec.1.mp hrings
      have hbefore : ¬ Dead (zeros turns) := fun hdead => hold (dead_stays h.of_append hno' hdead)
      have hzero : ringings stretch (watchAfter turns) = 0 := by
        have hne : ringings stretch (watchAfter turns) ≠ 1 := fun hone => hold (hiff.mp hone).1
        omega
      rw [if_pos hrings, hzero]
      exact ⟨⟨fun _ => ⟨hnew, hbefore⟩, fun _ => rfl⟩, le_rfl⟩
    · rw [if_neg hrings, Nat.add_zero, hiff]
      refine ⟨and_congr_left fun hbefore => ⟨hstays, fun hnew => ?_⟩, hle⟩
      by_contra hold
      exact hrings (hspec.1.mpr ⟨hnew, hold⟩)

/-- Three turns in three minutes, with one that was skipped. -/
theorem rings_once_three :
    ringings [.matched 0 5 0, .matched 60000 5 0, .skipped, .matched 180000 4 0] (watchAfter [.idle]) = 1 :=
  (rings_once (by unfold Ordered; decide) (by simp [Turn.Resets])).1.mpr
    ⟨by simp [Dead, zeros, Turn.Resets, Turn.zero], by simp [Dead, zeros, Turn.Resets]⟩

end TtAiops.Ops
