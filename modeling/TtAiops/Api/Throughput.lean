import TtAiops.Lib.Loops
import TtAiops.Lib.Rings

/-!
# The throughput of the last minutes (`Ring`)

A ring of counters, one for each of the last `SPARK_MIN` minutes. The counters have 32 bits; an index beyond the ring would
end the program (`none`).

* `advance`, `bump`, `series`, `rate` : the operations;
* `Counts` : the ring has the bumps of the last minutes;
* `step_counts`, `run_counts` : every call keeps that;
* `series_counts`, `rate_counts` : what is read;
* `ring_counts` : **the series has the bumps of the minutes up to the last one given, as far as a counter goes**.
-/

namespace TtAiops.Api.Throughput
open TtAiops.Lib

def SPARK_MIN : ℕ := 30

structure Ring where
  minute : ℤ
  buf : List UInt32
  idx : ℕ

namespace Ring

def new : Ring := ⟨0, List.replicate SPARK_MIN 0, 0⟩

/-- The loop of `advance`, which has as many turns as minutes are left. -/
def turns (m : ℤ) : ℕ → Ring → Option Ring
  | 0, r => some r
  | k + 1, r =>
    if r.minute < m then
      let idx := (r.idx + 1) % SPARK_MIN
      if idx < r.buf.length then turns m k { minute := r.minute + 1, buf := r.buf.set idx 0, idx := idx } else none
    else some r

def advance (r : Ring) (m : ℤ) : Option Ring :=
  if r.minute = 0 then some { r with minute := m } else turns m (m - r.minute).toNat r

def bump (r : Ring) (m : ℤ) : Option Ring := do
  let r ← r.advance m
  let n ← r.buf[r.idx]?
  some { r with buf := r.buf.set r.idx (n + 1) }

def series (r : Ring) : Option (List UInt32) := (List.range' 1 SPARK_MIN).mapM fun k => r.buf[(r.idx + k) % SPARK_MIN]?

def rate (r : Ring) : Option UInt32 := do
  let prev ← r.buf[(r.idx + SPARK_MIN - 1) % SPARK_MIN]?
  let cur ← r.buf[r.idx]?
  some (max cur prev)

end Ring

inductive Call
  | advance (m : ℤ)
  | bump (m : ℤ)
  deriving DecidableEq

def Call.minute : Call → ℤ
  | .advance m => m
  | .bump m => m

def step (r : Ring) : Call → Option Ring
  | .advance m => r.advance m
  | .bump m => r.bump m

def run (calls : List Call) : Option Ring := calls.foldlM step Ring.new

/-- How often a minute was bumped. -/
def bumps (calls : List Call) (k : ℤ) : ℕ := calls.count (.bump k)

def latest (calls : List Call) : ℤ := (calls.getLast?.map Call.minute).getD 0

/-- The bumps of the last minutes, the latest one at the end. -/
def window (calls : List Call) : List ℕ :=
  (List.range SPARK_MIN).map fun j => bumps calls (latest calls - (SPARK_MIN - 1 - j : ℕ))

structure InOrder (calls : List Call) : Prop where
  pos : ∀ c ∈ calls, 0 < c.minute
  sorted : (calls.map Call.minute).Pairwise (· ≤ ·)

/-- The ring has the bumps of the minutes up to its own. -/
structure Counts (calls : List Call) (r : Ring) : Prop where
  minute : r.minute = latest calls
  length : r.buf.length = SPARK_MIN
  holds : Holds r.buf r.idx fun k => UInt32.ofNat (bumps calls (r.minute - k))

theorem InOrder.of_append {calls : List Call} {c : Call} (h : InOrder (calls ++ [c])) : InOrder calls :=
  ⟨fun c' hc' => h.pos c' (List.mem_append_left _ hc'), by
    have hsorted := h.sorted
    rw [List.map_append, List.pairwise_append] at hsorted
    exact hsorted.1⟩

@[simp] theorem latest_append (calls : List Call) (c : Call) : latest (calls ++ [c]) = c.minute := by
  simp [latest]

theorem minute_le_latest {calls : List Call} (h : InOrder calls) : ∀ c ∈ calls, c.minute ≤ latest calls := by
  intro c hc
  rcases List.eq_nil_or_concat calls with rfl | ⟨init, last, rfl⟩
  · cases hc
  · have hsorted := h.sorted
    rw [List.concat_eq_append] at hc hsorted ⊢
    rw [List.map_append, List.pairwise_append] at hsorted
    rw [latest_append]
    rcases List.mem_append.mp hc with hc | hc
    · exact hsorted.2.2 _ (List.mem_map_of_mem hc) _ List.mem_cons_self
    · rw [List.mem_singleton.mp hc]

theorem latest_le_minute {calls : List Call} {c : Call} (h : InOrder (calls ++ [c])) : latest calls ≤ c.minute := by
  rcases List.eq_nil_or_concat calls with rfl | ⟨init, last, rfl⟩
  · exact (h.pos c (by simp)).le
  · have hle := minute_le_latest h last (by simp)
    rw [latest_append] at hle
    rwa [List.concat_eq_append, latest_append]

theorem bumps_eq_zero {calls : List Call} (h : InOrder calls) {x : ℤ} (hx : latest calls < x) : bumps calls x = 0 := by
  refine List.count_eq_zero.mpr fun hmem => ?_
  have hle := minute_le_latest h _ hmem
  exact absurd (hle.trans_lt hx) (lt_irrefl x)

theorem turns_holds {g : ℤ → UInt32} {m : ℤ} {k : ℕ} {r : Ring} (hm : r.minute + k = m) (hlen : r.buf.length = SPARK_MIN)
    (hzero : ∀ x, r.minute < x → g x = 0) (h : Holds r.buf r.idx fun j => g (r.minute - j)) :
    ∃ r', Ring.turns m k r = some r' ∧ r'.minute = m ∧ r'.buf.length = SPARK_MIN ∧
      Holds r'.buf r'.idx fun j => g (m - j) := by
  induction k generalizing r with
  | zero =>
    obtain rfl : r.minute = m := by simpa using hm
    exact ⟨r, rfl, rfl, hlen, h⟩
  | succ k ih =>
    have hpush := h.push (g := fun j => g (r.minute + 1 - j)) 0
      (fun j _ => by congr 1; push_cast; ring) (by simpa using hzero (r.minute + 1) (lt_add_one _))
    rw [hlen] at hpush
    have hidx : (r.idx + 1) % SPARK_MIN < r.buf.length := (Nat.mod_lt _ (by decide)).trans_eq hlen.symm
    push_cast at hm
    rw [Ring.turns, if_pos (by omega)]
    dsimp only
    rw [if_pos hidx]
    exact ih (by dsimp only; omega) (by rw [List.length_set, hlen]) (fun x hx => hzero x (by dsimp only at hx; omega)) hpush

theorem advance_counts {calls : List Call} {r : Ring} {m : ℤ} (hcalls : InOrder calls) (hle : latest calls ≤ m)
    (h : Counts calls r) : ∃ r', r.advance m = some r' ∧ r'.minute = m ∧ r'.buf.length = SPARK_MIN ∧
      Holds r'.buf r'.idx fun j => UInt32.ofNat (bumps calls (m - j)) := by
  have hmin := h.minute
  unfold Ring.advance
  by_cases h0 : r.minute = 0
  · have hnil : calls = [] := by
      rcases List.eq_nil_or_concat calls with rfl | ⟨init, last, rfl⟩
      · rfl
      · rw [List.concat_eq_append] at hcalls hmin
        rw [latest_append, h0] at hmin
        exact absurd (hcalls.pos last (by simp)) (by omega)
    rw [if_pos h0]
    refine ⟨_, rfl, rfl, h.length, h.holds.congr fun j _ => ?_⟩
    rw [hnil]
    rfl
  · rw [if_neg h0]
    exact turns_holds (g := fun x => UInt32.ofNat (bumps calls x)) (by omega) h.length
      (fun x hx => by rw [bumps_eq_zero hcalls (hmin ▸ hx)]; rfl) h.holds

/-- **Each call keeps the counts.** -/
theorem step_counts {calls : List Call} {c : Call} {r : Ring} (hcalls : InOrder (calls ++ [c])) (h : Counts calls r) :
    ∃ r', step r c = some r' ∧ Counts (calls ++ [c]) r' := by
  obtain ⟨r', hadv, hmin, hlen, hholds⟩ :=
    advance_counts hcalls.of_append (latest_le_minute hcalls) h
  cases c with
  | advance m =>
    refine ⟨r', hadv, by rw [hmin, latest_append], hlen, hholds.congr fun j _ => ?_⟩
    rw [hmin, bumps, bumps, List.count_append]
    simp [Call.minute]
  | bump m =>
    have hread := hholds.getElem?_last
    refine ⟨{ r' with buf := r'.buf.set r'.idx (UInt32.ofNat (bumps calls m) + 1) }, ?_, ?_, ?_, ?_⟩
    · show (r.advance m).bind _ = _
      rw [show r.advance m = some r' from hadv, Option.bind_some, hread]
      simp [Call.minute]
    · rw [latest_append]
      exact hmin
    · rw [List.length_set, hlen]
    · refine hholds.set _ (fun j _ => ?_) ?_
      · dsimp only
        rw [hmin, bumps, bumps, List.count_append, List.count_singleton, if_neg]
        · simp
        · simp [Call.minute]
          omega
      · dsimp only
        rw [hmin, bumps, List.count_append]
        simp [Call.minute, bumps]

theorem counts_new : Counts [] Ring.new :=
  ⟨rfl, by decide, by decide, fun k hk => by
    have hk' : back SPARK_MIN 0 k < SPARK_MIN := back_lt (by decide)
    simp [Ring.new, bumps, List.getElem?_replicate] at hk ⊢
    exact hk'⟩

theorem run_counts {calls : List Call} (h : InOrder calls) : ∃ r, run calls = some r ∧ Counts calls r := by
  induction calls using List.reverseRecOn with
  | nil => exact ⟨Ring.new, rfl, counts_new⟩
  | append_singleton calls c ih =>
    obtain ⟨r, hr, hcounts⟩ := ih h.of_append
    obtain ⟨r', hr', hcounts'⟩ := step_counts h hcounts
    refine ⟨r', ?_, hcounts'⟩
    rw [run, List.foldlM_append, ← run, hr]
    simpa using hr'

theorem series_counts {calls : List Call} {r : Ring} (h : Counts calls r) :
    r.series = some ((window calls).map UInt32.ofNat) := by
  have hread : r.series = some ((List.range' 1 SPARK_MIN).map fun k =>
      UInt32.ofNat (bumps calls (r.minute - (SPARK_MIN - k : ℕ)))) := by
    refine mapM_eq_map fun k hk => ?_
    obtain ⟨hk1, hkn⟩ := List.mem_range'_1.mp hk
    have hget := h.holds.getElem?_forward (j := k) hk1 (by rw [h.length]; omega)
    rwa [h.length] at hget
  rw [hread, window, List.range'_eq_map_range, List.map_map, List.map_map, h.minute]
  refine congrArg some (List.map_congr_left fun j hj => ?_)
  simp only [Function.comp_apply]
  congr 4
  omega

theorem rate_counts {calls : List Call} {r : Ring} (h : Counts calls r) : r.rate =
    some (max (UInt32.ofNat (bumps calls (latest calls))) (UInt32.ofNat (bumps calls (latest calls - 1)))) := by
  have hlast := h.holds.getElem?_last
  have hprev := h.holds.getElem?_forward (j := SPARK_MIN - 1) (by decide) (by rw [h.length]; decide)
  rw [h.length, ← Nat.add_sub_assoc (by decide), h.minute] at hprev
  rw [h.minute, Nat.cast_zero, sub_zero] at hlast
  rw [Ring.rate, hprev, hlast]
  rfl

theorem toNat_max (a b : UInt32) : (max a b).toNat = max a.toNat b.toNat := by
  show (if a ≤ b then b else a).toNat = _
  split_ifs with hab
  · exact (max_eq_right (UInt32.le_iff_toNat_le.mp hab)).symm
  · exact (max_eq_left (not_le.mp (mt UInt32.le_iff_toNat_le.mpr hab)).le).symm

theorem mem_window {calls : List Call} {k : ℕ} (hk : k < SPARK_MIN) : bumps calls (latest calls - k) ∈ window calls := by
  refine List.mem_map.mpr ⟨SPARK_MIN - 1 - k, List.mem_range.mpr (by unfold SPARK_MIN; omega), ?_⟩
  rw [Nat.sub_sub_self (by omega)]

/-- **The throughput of the last minutes.** After any calls with positive minutes in order the series has, from the earliest
on, the bumps of the minutes that end with the latest one given, each up to multiples of 2³², and the rate is the larger of
the last two; as long as none of these minutes was bumped 2³² times, these are the bumps themselves. No index leaves the
ring. -/
theorem ring_counts (calls : List Call) (h : InOrder calls) :
    ∃ r s q, run calls = some r ∧ r.series = some s ∧ r.rate = some q ∧
      s.map UInt32.toNat = (window calls).map (· % 2 ^ 32) ∧
      q.toNat = max (bumps calls (latest calls) % 2 ^ 32) (bumps calls (latest calls - 1) % 2 ^ 32) ∧
      ((∀ n ∈ window calls, n < 2 ^ 32) → s.map UInt32.toNat = window calls ∧
        q.toNat = max (bumps calls (latest calls)) (bumps calls (latest calls - 1))) := by
  obtain ⟨r, hr, hcounts⟩ := run_counts h
  have hseries : ((window calls).map UInt32.ofNat).map UInt32.toNat = (window calls).map (· % 2 ^ 32) := by
    rw [List.map_map]
    exact List.map_congr_left fun n _ => UInt32.toNat_ofNat'
  have hrate : (max (UInt32.ofNat (bumps calls (latest calls))) (UInt32.ofNat (bumps calls (latest calls - 1)))).toNat =
      max (bumps calls (latest calls) % 2 ^ 32) (bumps calls (latest calls - 1) % 2 ^ 32) := by
    rw [toNat_max, UInt32.toNat_ofNat', UInt32.toNat_ofNat']
  refine ⟨r, _, _, hr, series_counts hcounts, rate_counts hcounts, hseries, hrate, fun hfew => ⟨?_, ?_⟩⟩
  · rw [hseries]
    exact (List.map_congr_left fun n hn => Nat.mod_eq_of_lt (hfew n hn)).trans (List.map_id' _)
  · have hlast := hfew _ (mem_window (k := 0) (by decide))
    have hprev := hfew _ (mem_window (k := 1) (by decide))
    rw [Nat.cast_zero, sub_zero] at hlast
    rw [Nat.cast_one] at hprev
    rw [hrate, Nat.mod_eq_of_lt hlast, Nat.mod_eq_of_lt hprev]

/-- Two bumps, a gap longer than the ring, and one more: the two are forgotten. -/
def gapCalls : List Call := [.bump 5, .bump 5, .advance 40, .bump 41]

theorem ring_counts_gap : ∃ r s q, run gapCalls = some r ∧ r.series = some s ∧ r.rate = some q ∧
    s.map UInt32.toNat = List.replicate 29 0 ++ [1] ∧ q.toNat = 1 := by
  obtain ⟨r, s, q, hr, hs, hq, -, -, hexact⟩ := ring_counts gapCalls ⟨by decide, by decide⟩
  obtain ⟨hseries, hrate⟩ := hexact (by decide)
  exact ⟨r, s, q, hr, hs, hq, hseries.trans (by decide), hrate.trans (by decide)⟩

/-- One minute that is bumped `n` times. -/
def manyCalls (n : ℕ) : List Call := List.replicate n (.bump 1)

theorem manyCalls_last {n : ℕ} (hn : 0 < n) : InOrder (manyCalls n) ∧ bumps (manyCalls n) (latest (manyCalls n)) = n ∧
    ∃ r s, run (manyCalls n) = some r ∧ r.series = some s ∧ s.getLast? = some (UInt32.ofNat n) := by
  have hlatest : latest (manyCalls n) = 1 := by
    rw [latest, manyCalls, List.getLast?_replicate, if_neg hn.ne']
    rfl
  have horder : InOrder (manyCalls n) := by
    refine ⟨fun c hc => ?_, ?_⟩
    · rw [List.eq_of_mem_replicate hc]
      exact one_pos
    · rw [manyCalls, List.map_replicate, List.pairwise_replicate]
      exact Or.inr le_rfl
  have hbumps : bumps (manyCalls n) 1 = n := List.count_replicate_self
  obtain ⟨r, hr, hcounts⟩ := run_counts horder
  refine ⟨horder, by rw [hlatest, hbumps], r, _, hr, series_counts hcounts, ?_⟩
  rw [window, show SPARK_MIN = 29 + 1 from rfl, List.range_succ, List.map_append, List.map_append, hlatest]
  simp [hbumps]

/-- So many bumps of one minute that the counter is back at 0. -/
theorem counter_wraps : InOrder (manyCalls 4294967296) ∧
    bumps (manyCalls 4294967296) (latest (manyCalls 4294967296)) = 4294967296 ∧
    ∃ r s, run (manyCalls 4294967296) = some r ∧ r.series = some s ∧ s.getLast? = some 0 :=
  manyCalls_last (by decide)

end TtAiops.Api.Throughput
