import Mathlib
import TtAiops.Lib.Ints

/-!
# The moves of a crane, by the load on its hook (`livemap.rs`)

A crane is laden from a load of two tons on and empty below half a ton; between the two it stays what it was. Becoming laden
is a pickup, and a pickup is counted as a move if the last move is long enough ago.

* `ingest`, `ingestCtab`, `run` : the frames of the cranes;
* `ladenAfter`, `Pickup`, `Emptied` : what the loads say by themselves;
* `Moves` : the moves are pickups, with the gap between them; `moves_ingest`, `moves_state` : every reading keeps that;
* `exists_emptied` : the load was below the lower threshold between two pickups;
* `plc_moves` : **the moves are in order, the gap apart, and pickups of their own, and none is old after a push**.

A load is a number, or there is none. The clock is that of the server, whose differences fit into 64 bits.
-/

namespace TtAiops.Api.Cranes
open TtAiops.Lib

variable {K : Type*}

def MIN_MOVE_GAP_MS : ℤ := 40000
def MOVE_WINDOW_MS : ℤ := 3600000

structure Reading (K : Type*) where
  now : ℤ
  load : Option K

/-- `Plc`, as far as the moves and the load go. -/
structure Plc (K : Type*) where
  loadT : Option K
  lastSeenMs : ℤ
  laden : Bool
  moves : List ℤ
  lastMoveMs : ℤ

/-- `Plc::default()`. -/
def unseen : Plc K := ⟨none, 0, false, [], 0⟩

/-- `since_last`; a crane without a move has its last move at 0. -/
def sinceLast (e : Plc K) (now : ℤ) : ℤ := if e.lastMoveMs = 0 then i64Max else now - e.lastMoveMs

def pickUp (e : Plc K) (now : ℤ) : Plc K :=
  if MIN_MOVE_GAP_MS ≤ sinceLast e now then
    { e with moves := (e.moves ++ [now]).dropWhile fun f => MOVE_WINDOW_MS < now - f, lastMoveMs := now }
  else e

def timeOf (rs : List (Reading K)) (i : ℕ) : ℤ := (rs[i]?.map Reading.now).getD 0

theorem timeOf_append {rs : List (Reading K)} {i : ℕ} (hi : i < rs.length) (r : Reading K) :
    timeOf (rs ++ [r]) i = timeOf rs i := by
  rw [timeOf, timeOf, List.getElem?_append_left hi]

theorem timeOf_last (rs : List (Reading K)) (r : Reading K) : timeOf (rs ++ [r]) rs.length = r.now := by
  simp [timeOf]

variable [Field K] [LinearOrder K]

def PLC_LADEN_T : K := (2 : ℕ)
def PLC_EMPTY_T : K := 1 / (2 : ℕ)

def nowLaden (laden : Bool) : Option K → Bool
  | some t => if PLC_LADEN_T ≤ t then true else if t < PLC_EMPTY_T then false else laden
  | none => laden

def ingest (e : Plc K) (r : Reading K) : Plc K :=
  let laden := nowLaden e.laden r.load
  let e := if !e.laden && laden then pickUp e r.now else e
  { e with laden := laden, loadT := r.load, lastSeenMs := r.now }

/-- `ingest_ctab`, of a frame with a crane and a reading. -/
def ingestCtab (plc : String → Plc K) (frame : String × Reading K) : String → Plc K :=
  Function.update plc frame.1 (ingest (plc frame.1) frame.2)

def run (frames : List (String × Reading K)) : String → Plc K := frames.foldl ingestCtab fun _ => unseen

/-! ## Crane by crane -/

def readingsOf (crane : String) (frames : List (String × Reading K)) : List (Reading K) :=
  (frames.filter fun f => f.1 = crane).map Prod.snd

/-- A crane after its readings. -/
def state (rs : List (Reading K)) : Plc K := rs.foldl ingest unseen

@[simp] theorem state_append (rs : List (Reading K)) (r : Reading K) : state (rs ++ [r]) = ingest (state rs) r := by
  rw [state, List.foldl_append]
  rfl

theorem run_eq (frames : List (String × Reading K)) (crane : String) :
    run frames crane = state (readingsOf crane frames) := by
  induction frames using List.reverseRecOn with
  | nil => rfl
  | append_singleton frames f ih =>
    rw [run, List.foldl_append, ← run, List.foldl_cons, List.foldl_nil, ingestCtab, readingsOf, List.filter_append]
    by_cases hf : f.1 = crane
    · subst hf
      rw [Function.update_self, ih]
      simp [readingsOf]
    · rw [Function.update_of_ne (Ne.symm hf), ih]
      simp [readingsOf, hf]

/-! ## What the loads say -/

/-- Whether a crane is laden after some readings. -/
def ladenAfter (rs : List (Reading K)) : Bool := rs.foldl (fun laden r => nowLaden laden r.load) false

/-- The reading `i` is the first of a laden crane that was empty. -/
def Pickup (rs : List (Reading K)) (i : ℕ) : Prop :=
  i < rs.length ∧ ladenAfter (rs.take i) = false ∧ ladenAfter (rs.take (i + 1)) = true

/-- The load of the reading `i` is below the lower threshold. -/
def Emptied (rs : List (Reading K)) (i : ℕ) : Prop := ∃ r ∈ rs[i]?, ∃ t ∈ r.load, t < PLC_EMPTY_T

@[simp] theorem ladenAfter_append (rs : List (Reading K)) (r : Reading K) :
    ladenAfter (rs ++ [r]) = nowLaden (ladenAfter rs) r.load := by
  rw [ladenAfter, List.foldl_append]
  rfl

theorem state_laden (rs : List (Reading K)) : (state rs).laden = ladenAfter rs := by
  induction rs using List.reverseRecOn with
  | nil => rfl
  | append_singleton rs r ih => rw [state_append, ladenAfter_append, ingest, ih]

theorem nowLaden_eq_false {load : Option K} (h : nowLaden true load = false) : ∃ t ∈ load, t < PLC_EMPTY_T := by
  cases load with
  | none => cases h
  | some t =>
    refine ⟨t, rfl, ?_⟩
    simp only [nowLaden] at h
    split_ifs at h with h1 h2
    exact h2

theorem exists_emptied_of_laden {rs : List (Reading K)} {i j : ℕ} (hij : i ≤ j) (hi : ladenAfter (rs.take i) = true)
    (hj : ladenAfter (rs.take j) = false) : ∃ k, i ≤ k ∧ k < j ∧ Emptied rs k := by
  induction j, hij using Nat.le_induction with
  | base => exact absurd (hi.symm.trans hj) (by decide)
  | succ j hij ih =>
    by_cases hlt : j < rs.length
    · rw [List.take_succ_eq_append_getElem hlt, ladenAfter_append] at hj
      cases hladen : ladenAfter (rs.take j) with
      | true =>
        rw [hladen] at hj
        obtain ⟨t, ht, hempty⟩ := nowLaden_eq_false hj
        exact ⟨j, hij, Nat.lt_succ_self j, rs[j], List.getElem?_eq_getElem hlt, t, ht, hempty⟩
      | false =>
        obtain ⟨k, hik, hkj, hk⟩ := ih hladen
        exact ⟨k, hik, by omega, hk⟩
    · rw [List.take_of_length_le (by omega)] at hj
      obtain ⟨k, hik, hkj, hk⟩ := ih (by rwa [List.take_of_length_le (by omega)])
      exact ⟨k, hik, by omega, hk⟩

/-- **Between two pickups the load was below the lower threshold.** -/
theorem exists_emptied {rs : List (Reading K)} {i j : ℕ} (hij : i < j) (hi : Pickup rs i) (hj : Pickup rs j) :
    ∃ k, i < k ∧ k < j ∧ Emptied rs k :=
  exists_emptied_of_laden hij hi.2.2 hj.2.1

/-! ## The moves -/

/-- The moves of a crane after some readings. -/
structure Moves (rs : List (Reading K)) (e : Plc K) : Prop where
  counted : ∃ idxs : List ℕ, idxs.Pairwise (· < ·) ∧ (∀ i ∈ idxs, Pickup rs i) ∧ e.moves = idxs.map (timeOf rs)
  spaced : e.moves.Pairwise fun a b => a + MIN_MOVE_GAP_MS ≤ b
  le_last : ∀ f ∈ e.moves, f ≤ e.lastMoveMs
  never : e.lastMoveMs = 0 → e.moves = []

def Pushes (e : Plc K) (r : Reading K) : Prop :=
  e.laden = false ∧ nowLaden e.laden r.load = true ∧ MIN_MOVE_GAP_MS ≤ sinceLast e r.now

theorem ingest_of_pushes {e : Plc K} {r : Reading K} (h : Pushes e r) :
    (ingest e r).moves = (e.moves ++ [r.now]).dropWhile (fun f => MOVE_WINDOW_MS < r.now - f) ∧
      (ingest e r).lastMoveMs = r.now := by
  obtain ⟨hempty, hladen, hgap⟩ := h
  have hedge : (!e.laden && nowLaden e.laden r.load) = true := by
    rw [hladen, hempty]
    rfl
  have hpick : pickUp e r.now = _ := if_pos hgap
  unfold ingest
  dsimp only
  rw [if_pos hedge, hpick]
  exact ⟨rfl, rfl⟩

theorem ingest_of_not_pushes {e : Plc K} {r : Reading K} (h : ¬Pushes e r) :
    (ingest e r).moves = e.moves ∧ (ingest e r).lastMoveMs = e.lastMoveMs := by
  unfold ingest
  dsimp only
  split_ifs with hpick
  · obtain ⟨hempty, hladen⟩ := Bool.and_eq_true_iff.mp hpick
    have hgap : ¬MIN_MOVE_GAP_MS ≤ sinceLast e r.now := fun hgap =>
      h ⟨by simpa using hempty, hladen, hgap⟩
    rw [pickUp, if_neg hgap]
    exact ⟨rfl, rfl⟩
  · exact ⟨rfl, rfl⟩

theorem pickup_append {rs : List (Reading K)} {i : ℕ} (h : Pickup rs i) (r : Reading K) : Pickup (rs ++ [r]) i := by
  obtain ⟨hi, hempty, hladen⟩ := h
  refine ⟨by rw [List.length_append]; omega, ?_, ?_⟩
  · rwa [List.take_append_of_le_length hi.le]
  · rwa [List.take_append_of_le_length hi]

theorem pickup_last {rs : List (Reading K)} {r : Reading K} (h : Pushes (state rs) r) : Pickup (rs ++ [r]) rs.length := by
  obtain ⟨hempty, hladen, -⟩ := h
  rw [state_laden] at hempty hladen
  refine ⟨by simp, ?_, ?_⟩
  · rwa [List.take_left]
  · rwa [List.take_of_length_le (by simp), ladenAfter_append]

/-- The next move comes the gap after all others, unless it is at the clock's 0. -/
theorem Moves.add_gap_le {rs : List (Reading K)} {e : Plc K} (h : Moves rs e) {r : Reading K} (hpush : Pushes e r) :
    ∀ f ∈ e.moves, f + MIN_MOVE_GAP_MS ≤ r.now := by
  intro f hf
  have hle := h.le_last f hf
  have hgap := hpush.2.2
  unfold sinceLast at hgap
  split_ifs at hgap with h0
  · rw [h.never h0] at hf
    cases hf
  · omega

theorem pairwise_push {α : Type*} {R : α → α → Prop} {l : List α} {x : α} (h : l.Pairwise R) (hx : ∀ a ∈ l, R a x) :
    (l ++ [x]).Pairwise R :=
  List.pairwise_append.mpr ⟨h, List.pairwise_singleton _ _, fun a ha _ hb => List.mem_singleton.mp hb ▸ hx a ha⟩

/-- **One reading.** -/
theorem moves_ingest {rs : List (Reading K)} {r : Reading K} (hr : r.now ≠ 0) (h : Moves rs (state rs)) :
    Moves (rs ++ [r]) (ingest (state rs) r) := by
  obtain ⟨idxs, hsorted, hpick, hmoves⟩ := h.counted
  have htimes : idxs.map (timeOf (rs ++ [r])) = idxs.map (timeOf rs) :=
    List.map_congr_left fun i hi => timeOf_append (hpick i hi).1 r
  by_cases hpush : Pushes (state rs) r
  · obtain ⟨hpushed, hlast⟩ := ingest_of_pushes hpush
    have hgap := h.add_gap_le hpush
    refine ⟨⟨(idxs ++ [rs.length]).dropWhile ((fun f => decide (MOVE_WINDOW_MS < r.now - f)) ∘ timeOf (rs ++ [r])),
      ?_, fun i hi => ?_, ?_⟩, ?_, fun f hf => ?_, fun h0 => ?_⟩
    · exact (pairwise_push hsorted fun i hi => (hpick i hi).1).sublist (List.dropWhile_sublist _)
    · rcases List.mem_append.mp ((List.dropWhile_sublist _).subset hi) with hi | hi
      · exact pickup_append (hpick i hi) r
      · rw [List.mem_singleton.mp hi]
        exact pickup_last hpush
    · rw [hpushed, ← List.dropWhile_map, List.map_append, htimes, hmoves, List.map_singleton, timeOf_last]
    · rw [hpushed]
      exact (pairwise_push h.spaced hgap).sublist (List.dropWhile_sublist _)
    · rw [hpushed] at hf
      rw [hlast]
      rcases List.mem_append.mp ((List.dropWhile_sublist _).subset hf) with hf | hf
      · have := hgap f hf
        unfold MIN_MOVE_GAP_MS at this
        omega
      · rw [List.mem_singleton.mp hf]
    · exact absurd (hlast.symm.trans h0) hr
  · obtain ⟨hsame, hlast⟩ := ingest_of_not_pushes hpush
    refine ⟨⟨idxs, hsorted, fun i hi => pickup_append (hpick i hi) r, ?_⟩, ?_, ?_, ?_⟩
    · rw [hsame, htimes, hmoves]
    · rw [hsame]
      exact h.spaced
    · rw [hsame, hlast]
      exact h.le_last
    · rw [hsame, hlast]
      exact h.never

theorem moves_state {rs : List (Reading K)} (hclock : ∀ r ∈ rs, r.now ≠ 0) : Moves rs (state rs) := by
  induction rs using List.reverseRecOn with
  | nil => exact ⟨⟨[], List.Pairwise.nil, fun i hi => absurd hi List.not_mem_nil, rfl⟩, List.Pairwise.nil,
      fun f hf => absurd hf List.not_mem_nil, fun _ => rfl⟩
  | append_singleton rs r ih =>
    rw [state_append]
    exact moves_ingest (hclock r (by simp)) (ih fun r' hr' => hclock r' (List.mem_append_left _ hr'))

/-- What is left of a sorted list after old entries are taken off its front has no old entry. -/
theorem le_of_mem_dropWhile {l : List ℤ} (hsorted : l.Pairwise (· ≤ ·)) {now w : ℤ} :
    ∀ f ∈ l.dropWhile (fun f => w < now - f), now - f ≤ w := by
  induction l with
  | nil => exact fun f hf => absurd hf List.not_mem_nil
  | cons a l ih =>
    obtain ⟨hhead, htail⟩ := List.pairwise_cons.mp hsorted
    intro f hf
    rw [List.dropWhile_cons] at hf
    split_ifs at hf with hold
    · exact ih htail f hf
    · simp only [decide_eq_true_eq, not_lt] at hold
      rcases List.mem_cons.mp hf with rfl | hf
      · exact hold
      · have := hhead f hf
        omega

theorem recent_of_pushes {rs : List (Reading K)} {r : Reading K} (h : Moves rs (state rs)) (hpush : Pushes (state rs) r) :
    ∀ f ∈ (ingest (state rs) r).moves, r.now - f ≤ MOVE_WINDOW_MS := by
  have hgap := h.add_gap_le hpush
  unfold MIN_MOVE_GAP_MS at hgap
  rw [(ingest_of_pushes hpush).1]
  refine le_of_mem_dropWhile (pairwise_push (h.spaced.imp fun hab => ?_) fun f hf => ?_)
  · unfold MIN_MOVE_GAP_MS at hab
    omega
  · have := hgap f hf
    omega

/-- **The moves of a crane.** If the clock never reads 0, then after any frames the moves of a crane are in order and the gap
apart, they are pickups of their own, and a load that stays above the lower threshold makes no second pickup; and right after
a push no move is older than the window. -/
theorem plc_moves (frames : List (String × Reading K)) (hclock : ∀ f ∈ frames, f.2.now ≠ 0) :
    (∀ crane, (run frames crane).moves.Pairwise (fun a b => a ≤ b ∧ MIN_MOVE_GAP_MS ≤ b - a) ∧
      (∃ idxs : List ℕ, idxs.Pairwise (· < ·) ∧ (∀ i ∈ idxs, Pickup (readingsOf crane frames) i) ∧
        (run frames crane).moves = idxs.map (timeOf (readingsOf crane frames))) ∧
      ∀ i j, i < j → Pickup (readingsOf crane frames) i → Pickup (readingsOf crane frames) j →
        ∃ k, i < k ∧ k < j ∧ Emptied (readingsOf crane frames) k) ∧
    ∀ front f rest, frames = front ++ f :: rest → Pushes (run front f.1) f.2 →
      ∀ t ∈ (run (front ++ [f]) f.1).moves, f.2.now - t ≤ MOVE_WINDOW_MS := by
  have hreadings : ∀ (fs : List (String × Reading K)) (crane : String), (∀ f ∈ fs, f.2.now ≠ 0) →
      Moves (readingsOf crane fs) (state (readingsOf crane fs)) := by
    intro fs crane hfs
    refine moves_state fun r hr => ?_
    obtain ⟨f, hf, rfl⟩ := List.mem_map.mp hr
    exact hfs f (List.mem_filter.mp hf).1
  refine ⟨fun crane => ?_, fun front f rest hframes hpush => ?_⟩
  · have hmoves := hreadings frames crane hclock
    rw [run_eq]
    refine ⟨hmoves.spaced.imp fun hab => ?_, hmoves.counted, fun i j hij hi hj => exists_emptied hij hi hj⟩
    unfold MIN_MOVE_GAP_MS at hab ⊢
    omega
  · have hfront := hreadings front f.1 fun g hg => hclock g (by rw [hframes]; exact List.mem_append_left _ hg)
    rw [run_eq] at hpush
    have hlast : run (front ++ [f]) f.1 = ingest (state (readingsOf f.1 front)) f.2 := by
      rw [run_eq, readingsOf, List.filter_append, List.map_append]
      simp [readingsOf]
    rw [hlast]
    exact recent_of_pushes hfront hpush

/-- A load that hovers between the thresholds, and a second pickup a minute later. -/
def hoverFrames : List (String × Reading ℚ) :=
  [("C39", ⟨1000, some 5⟩), ("C39", ⟨2000, some 1⟩), ("C39", ⟨3000, some 5⟩), ("C39", ⟨4000, some 0⟩),
    ("C39", ⟨61000, some 5⟩)]

theorem plc_moves_hover : (run hoverFrames "C39").moves = [1000, 61000] ∧
    (run hoverFrames "C39").moves.Pairwise fun a b => a ≤ b ∧ MIN_MOVE_GAP_MS ≤ b - a :=
  ⟨by decide +kernel, ((plc_moves hoverFrames (by decide)).1 "C39").1⟩

/-- A pickup when the clock reads 0, and another two milliseconds later. -/
def zeroFrames : List (String × Reading ℚ) :=
  [("C39", ⟨0, some 5⟩), ("C39", ⟨1, some 0⟩), ("C39", ⟨2, some 5⟩)]

/-- A move at the clock's 0 is taken for no move. -/
theorem zero_clock_counts_twice : (zeroFrames.map fun f => f.2.now).Pairwise (· ≤ ·) ∧
    (run zeroFrames "C39").moves = [0, 2] ∧
    ¬(run zeroFrames "C39").moves.Pairwise fun a b => MIN_MOVE_GAP_MS ≤ b - a := by
  decide +kernel

end TtAiops.Api.Cranes
