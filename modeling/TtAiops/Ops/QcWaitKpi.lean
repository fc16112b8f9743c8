import TtAiops.Core.Shift
import TtAiops.Lib.Runs
import TtAiops.Lib.Tallies

/-!
# The waiting cranes of a day (`spawn_qc_wait_kpi`)

A sample says how many cranes wait for a truck. Round after round all samples that are in their table are put together by
day and by shift, and the rows of these are written; the samples are pruned after fourteen days, the rows are not.

* `Sample`, `State`, `Input`, `step` : the samples, a round, the pruning (`spawn_qc_wait_logger`);
* `came`, `samples_eq` : the samples that have come, and that those in the table are the ones no pruning has reached;
* `round_day`, `round_shift` : what a round writes of a day and of a shift that it has samples of;
* `FromLast`, `fromLast_step` : a row is from the last such round, and every input keeps that;
* `qc_wait_row` : **the row of a day is the mean of the samples that were left at the last round that saw the day**; the rows
  of the shifts that this round saw make up the same, the others are left from an earlier one; and the samples are all of the
  day exactly if none had been pruned.

A mean is a quotient of numbers; the program's is the nearest floating-point number. The clock does not go back, and no two
samples have one time.
-/

namespace TtAiops.Ops.QcWait
open TtAiops.Lib TtAiops.Core TtAiops.Api.Rollup

/-- `terminal_offset`. -/
def OFFSET : ℤ := 8 * HOUR

/-- `interval '14 days'`. -/
def SAMPLES_FOR : ℤ := 14 * Core.DAY

/-- A row of `qc_wait_sample`; its time is in microseconds. -/
structure Sample where
  ts : ℤ
  starvingReal : Option ℤ

/-- A row of `kpi_daily`, for the key `K_QC_TT_WAIT_GPS`. -/
structure Daily where
  value : ℚ
  sampleN : ℕ
  isProvisional : Bool

/-- A row of `kpi_shift`. -/
structure ByShift where
  value : ℚ
  sampleN : ℕ
  windowStart : ℤ

structure State where
  samples : List Sample
  daily : ℤ → Option Daily
  byshift : ℤ × String → Option ByShift

inductive Input
  | sample (s : Sample)
  | prune (now : ℤ)
  | round (now : ℤ)

def Input.now : Input → ℤ
  | .sample s => s.ts
  | .prune now => now
  | .round now => now

/-- `SELECT ts, starving_real … WHERE starving_real IS NOT NULL`. -/
def rows (samples : List Sample) : List (ℤ × ℤ) := samples.filterMap fun s => s.starvingReal.map fun sr => (s.ts, sr)

def shiftAt (ts : ℤ) : ℤ × Shift := current (ts + OFFSET)

def bdOf (r : ℤ × ℤ) : ℤ := (shiftAt r.1).1

def labelOf (r : ℤ × ℤ) : ℤ × String := ((shiftAt r.1).1, label (shiftAt r.1).2)

def writeDay (today bd : ℤ) (old : Option Daily) : Option (ℤ × ℕ) → Option Daily
  | some (sum, n) => some { value := sum / n, sampleN := n, isProvisional := today ≤ bd }
  | none => old

/-- The upsert of a shift, which keeps the start of the window. -/
def writeShift (key : ℤ × String) (old : Option ByShift) : Option (ℤ × ℕ) → Option ByShift
  | some (sum, n) =>
    match fromLabel key.2 with
    | some sh =>
      some { value := sum / n, sampleN := n, windowStart := (old.map ByShift.windowStart).getD ((window key.1 sh).1 - OFFSET) }
    | none => old
  | none => old

/-- One round of the loop. -/
def round (now : ℤ) (s : State) : State :=
  let rows := rows s.samples
  if rows = [] then s
  else
    let today := (shiftAt now).1
    { s with
      daily := fun bd => writeDay today bd (s.daily bd) (tally bdOf Prod.snd rows bd)
      byshift := fun key => writeShift key (s.byshift key) (tally labelOf Prod.snd rows key) }

/-- `ON CONFLICT (ts) DO NOTHING`. -/
def addSample (x : Sample) (s : State) : State :=
  { s with samples := if s.samples.any (fun y => y.ts = x.ts) then s.samples else s.samples ++ [x] }

/-- `DELETE FROM qc_wait_sample WHERE ts < now() - interval '14 days'`. -/
def pruneSamples (now : ℤ) (s : State) : State :=
  { s with samples := s.samples.filter fun x => ¬ x.ts < now - SAMPLES_FOR }

def step (s : State) : Input → State
  | .sample x => addSample x s
  | .prune now => pruneSamples now s
  | .round now => round now s

def start : State := { samples := [], daily := fun _ => none, byshift := fun _ => none }

def after (inputs : List Input) : State := inputs.foldl step start

@[simp] theorem after_append (inputs : List Input) (i : Input) : after (inputs ++ [i]) = step (after inputs) i :=
  List.foldl_concat ..

/-! ## The samples -/

/-- The samples that have come. -/
def came (inputs : List Input) : List Sample :=
  inputs.filterMap fun | .sample x => some x | .prune _ => none | .round _ => none

def prunes (inputs : List Input) : List ℤ :=
  inputs.filterMap fun | .sample _ => none | .prune now => some now | .round _ => none

/-- No pruning has reached the sample. -/
def Kept (inputs : List Input) (x : Sample) : Prop := ∀ now ∈ prunes inputs, now - SAMPLES_FOR ≤ x.ts

instance (inputs : List Input) : DecidablePred (Kept inputs) := fun _ => inferInstanceAs (Decidable (∀ _ ∈ _, _))

/-- The clock does not go back, and no two samples have one time. -/
structure Ordered (inputs : List Input) : Prop where
  clock : (inputs.map Input.now).Pairwise (· ≤ ·)
  apart : ((came inputs).map Sample.ts).Nodup

theorem came_append (inputs : List Input) (i : Input) : came (inputs ++ [i]) = came inputs ++ came [i] := List.filterMap_append

theorem prunes_append (inputs : List Input) (i : Input) : prunes (inputs ++ [i]) = prunes inputs ++ prunes [i] :=
  List.filterMap_append

theorem mem_of_mem_prunes {inputs : List Input} {now : ℤ} (h : now ∈ prunes inputs) : ∃ i ∈ inputs, i.now = now := by
  obtain ⟨i, hi, hsome⟩ := List.mem_filterMap.mp h
  cases i with
  | sample y => cases hsome
  | prune now' => exact ⟨_, hi, Option.some_inj.mp hsome⟩
  | round now' => cases hsome

theorem Ordered.init {inputs : List Input} {i : Input} (h : Ordered (inputs ++ [i])) :
    Ordered inputs ∧ ∀ j ∈ inputs, j.now ≤ i.now := by
  obtain ⟨hclock, hapart⟩ := h
  rw [List.map_append, List.pairwise_append] at hclock
  rw [came_append, List.map_append, List.nodup_append] at hapart
  exact ⟨⟨hclock.1, hapart.1⟩, fun j hj => hclock.2.2 j.now (List.mem_map_of_mem hj) i.now (by simp)⟩

theorem round_samples (now : ℤ) (s : State) : (round now s).samples = s.samples := by
  unfold round
  dsimp only
  split_ifs <;> rfl

/-- **The samples in the table are those that no pruning has reached.** -/
theorem samples_eq {inputs : List Input} (h : Ordered inputs) : (after inputs).samples = (came inputs).filter (Kept inputs) := by
  induction inputs using List.reverseRecOn with
  | nil => rfl
  | append_singleton inputs i ih =>
    obtain ⟨hinit, hle⟩ := h.init
    have hsamples := ih hinit
    rw [after_append, came_append]
    cases i with
    | sample x =>
      have hnew : ¬ (after inputs).samples.any (fun y => y.ts = x.ts) = true := by
        rw [hsamples, List.any_eq_true]
        rintro ⟨y, hy, hts⟩
        have hapart := h.apart
        rw [came_append, List.map_append, List.nodup_append] at hapart
        exact hapart.2.2 y.ts (List.mem_map_of_mem (List.mem_filter.mp hy).1) x.ts (by simp [came]) (of_decide_eq_true hts)
      have hkept : Kept inputs x := by
        intro now hnow
        obtain ⟨j, hj, rfl⟩ := mem_of_mem_prunes hnow
        exact (sub_le_self _ (by decide)).trans (hle j hj)
      have hsame : Kept (inputs ++ [.sample x]) = Kept inputs := by
        unfold Kept
        rw [prunes_append]
        simp [prunes]
      show (addSample x (after inputs)).samples = _
      unfold addSample
      rw [if_neg hnew, hsamples]
      simp only [hsame, List.filter_append]
      rw [show came [.sample x] = [x] from rfl]
      simp [hkept]
    | prune now =>
      have hmore : ∀ x, Kept (inputs ++ [.prune now]) x ↔ ¬ x.ts < now - SAMPLES_FOR ∧ Kept inputs x := by
        intro x
        unfold Kept
        rw [prunes_append, List.forall_mem_append, and_comm, not_lt]
        simp [prunes]
      show (pruneSamples now (after inputs)).samples = _
      unfold pruneSamples
      rw [hsamples, List.filter_filter]
      simp only [hmore, Bool.decide_and]
      rw [show came [.prune now] = [] from rfl, List.append_nil]
    | round now =>
      have hsame : Kept (inputs ++ [.round now]) = Kept inputs := by
        unfold Kept
        rw [prunes_append]
        simp [prunes]
      show (round now (after inputs)).samples = _
      rw [round_samples, hsamples]
      simp only [hsame]
      rw [show came [.round now] = [] from rfl, List.append_nil]

/-! ## A day -/

/-- The samples of a day that are in the table, each with its time. -/
def left (inputs : List Input) (bd : ℤ) : List (ℤ × ℤ) := ofKey bdOf (rows (after inputs).samples) bd

def leftIn (inputs : List Input) (bd : ℤ) (sh : Shift) : List (ℤ × ℤ) :=
  ofKey labelOf (rows (after inputs).samples) (bd, label sh)

/-- The sample counts for the day. -/
def OnDay (bd : ℤ) (x : Sample) : Prop := x.starvingReal.isSome = true ∧ (shiftAt x.ts).1 = bd

instance (bd : ℤ) : DecidablePred (OnDay bd) := fun _ => inferInstanceAs (Decidable (_ ∧ _))

def mean (l : List (ℤ × ℤ)) : ℚ := ((l.map Prod.snd).sum : ℤ) / l.length

theorem mean_mul_length (l : List (ℤ × ℤ)) : mean l * l.length = (l.map fun r => (r.2 : ℚ)).sum := by
  have hcast : (((l.map Prod.snd).sum : ℤ) : ℚ) = (l.map fun r => (r.2 : ℚ)).sum := by
    rw [Int.cast_list_sum, List.map_map]
    rfl
  rw [mean, hcast]
  rcases List.eq_nil_or_concat l with rfl | ⟨l', r, rfl⟩
  · simp
  · exact div_mul_cancel₀ _ (by simp [Nat.cast_add_one_ne_zero])

theorem sum_leftIn {M : Type*} [AddCommMonoid M] (f : ℤ × ℤ → M) (inputs : List Input) (bd : ℤ) :
    ((left inputs bd).map f).sum = ∑ sh, ((leftIn inputs bd sh).map f).sum := by
  have hfine : ∀ r : ℤ × ℤ, bdOf r = bd ↔ labelOf r ∈ Finset.univ.image fun sh => (bd, label sh) := by
    intro r
    rw [Finset.mem_image]
    constructor
    · rintro rfl
      exact ⟨(shiftAt r.1).2, Finset.mem_univ _, rfl⟩
    · rintro ⟨sh, -, hsh⟩
      exact (congrArg Prod.fst hsh).symm
  have hinj : Function.Injective fun sh => (bd, label sh) := fun a b hab => label_injective (Prod.mk.inj hab).2
  exact (sum_fine hfine f _).trans (Finset.sum_image fun a _ b _ hab => hinj hab)

/-- What a row says of the day `bd` after the inputs `before` and the round at `now`. -/
structure RowOf (before : List Input) (now bd : ℤ) (row : Daily) : Prop where
  value : row.value = mean (left before bd)
  sampleN : row.sampleN = (left before bd).length
  provisional : row.isProvisional = decide ((shiftAt now).1 ≤ bd)

structure ShiftRowOf (before : List Input) (bd : ℤ) (sh : Shift) (row : ByShift) : Prop where
  value : row.value = mean (leftIn before bd sh)
  sampleN : row.sampleN = (leftIn before bd sh).length
  windowStart : row.windowStart = (window bd sh).1 - OFFSET

/-- Every row of a shift is of one of the three, and says when it begins. -/
def Starts (s : State) : Prop :=
  ∀ bd sh row, s.byshift (bd, label sh) = some row → row.windowStart = (window bd sh).1 - OFFSET

theorem writeShift_some (bd : ℤ) (sh : Shift) (old : Option ByShift) (x : ℤ × ℕ) :
    writeShift (bd, label sh) old (some x) = some {
      value := x.1 / x.2, sampleN := x.2,
      windowStart := (old.map ByShift.windowStart).getD ((window bd sh).1 - OFFSET) } := by
  unfold writeShift
  rw [fromLabel_label]

theorem starts_round {s : State} (h : Starts s) (now : ℤ) : Starts (round now s) := by
  intro bd sh row hrow
  unfold round at hrow
  dsimp only at hrow
  split_ifs at hrow
  · exact h bd sh row hrow
  · dsimp only at hrow
    cases htally : tally labelOf Prod.snd (rows s.samples) (bd, label sh) with
    | none =>
      rw [htally] at hrow
      exact h bd sh row hrow
    | some x =>
      rw [htally, writeShift_some] at hrow
      obtain rfl := Option.some_inj.mp hrow
      cases hold : s.byshift (bd, label sh) with
      | none => rfl
      | some old => exact h bd sh old hold

theorem starts_after (inputs : List Input) : Starts (after inputs) := by
  induction inputs using List.reverseRecOn with
  | nil => exact fun _ _ _ h => absurd h (by simp [after, start])
  | append_singleton inputs i ih =>
    rw [after_append]
    cases i with
    | sample x => exact ih
    | prune now => exact ih
    | round now => exact starts_round ih now

theorem round_of_rows {s : State} (h : rows s.samples ≠ []) (now bd : ℤ) (key : ℤ × String) :
    (round now s).daily bd = writeDay (shiftAt now).1 bd (s.daily bd) (tally bdOf Prod.snd (rows s.samples) bd) ∧
      (round now s).byshift key = writeShift key (s.byshift key) (tally labelOf Prod.snd (rows s.samples) key) := by
  unfold round
  dsimp only
  rw [if_neg h]
  exact ⟨rfl, rfl⟩

/-- **What a round writes** of a day that it has samples of. -/
theorem round_day {inputs : List Input} {bd : ℤ} (h : left inputs bd ≠ []) (now : ℤ) :
    ∃ row, (after (inputs ++ [.round now])).daily bd = some row ∧ RowOf inputs now bd row := by
  have hrows : rows (after inputs).samples ≠ [] := by
    intro hnone
    rw [left, hnone] at h
    exact h rfl
  have hday : tally bdOf Prod.snd (rows (after inputs).samples) bd =
      some (((left inputs bd).map Prod.snd).sum, (left inputs bd).length) := (tally_eq _ _).trans (if_neg h)
  have hwrite := (round_of_rows hrows now bd (bd, label .night)).1
  rw [hday] at hwrite
  rw [after_append]
  exact ⟨_, hwrite, ⟨rfl, rfl, rfl⟩⟩

theorem round_shift {inputs : List Input} {bd : ℤ} {sh : Shift} (h : leftIn inputs bd sh ≠ []) (now : ℤ) :
    ∃ row, (after (inputs ++ [.round now])).byshift (bd, label sh) = some row ∧ ShiftRowOf inputs bd sh row := by
  have hrows : rows (after inputs).samples ≠ [] := by
    intro hnone
    rw [leftIn, hnone] at h
    exact h rfl
  have hshift : tally labelOf Prod.snd (rows (after inputs).samples) (bd, label sh) =
      some (((leftIn inputs bd sh).map Prod.snd).sum, (leftIn inputs bd sh).length) := (tally_eq _ _).trans (if_neg h)
  have hwrite := (round_of_rows hrows now bd (bd, label sh)).2
  rw [hshift, writeShift_some] at hwrite
  rw [after_append]
  exact ⟨_, hwrite, ⟨rfl, rfl, starts_round (starts_after inputs) now bd sh _ hwrite⟩⟩

theorem round_daily_of_not_left {inputs : List Input} {bd : ℤ} (h : left inputs bd = []) (now : ℤ) :
    (round now (after inputs)).daily bd = (after inputs).daily bd := by
  have hday : tally bdOf Prod.snd (rows (after inputs).samples) bd = none := (tally_eq _ _).trans (if_pos h)
  unfold round
  dsimp only
  split_ifs
  · rfl
  · dsimp only
    rw [hday]
    rfl

theorem round_byshift_of_not_left {inputs : List Input} {bd : ℤ} {sh : Shift} (h : leftIn inputs bd sh = []) (now : ℤ) :
    (round now (after inputs)).byshift (bd, label sh) = (after inputs).byshift (bd, label sh) := by
  have hshift : tally labelOf Prod.snd (rows (after inputs).samples) (bd, label sh) = none := (tally_eq _ _).trans (if_pos h)
  unfold round
  dsimp only
  split_ifs
  · rfl
  · dsimp only
    rw [hshift]
    rfl

/-! ## The last round that found something -/

/-- `found` says what a round after the inputs would find. -/
abbrev Found := List Input → List (ℤ × ℤ)

/-- The round, if it is one, finds nothing. -/
def Blind (found : Found) (inputs : List Input) (i : Input) : Prop := ∀ now, i = .round now → found inputs = []

/-- No round has found anything. -/
def Never (found : Found) (inputs : List Input) : Prop :=
  ∀ before i rest, inputs = before ++ i :: rest → Blind found before i

/-- The inputs from a round on that has found something, of which no later one has. -/
def Last (found : Found) (inputs before : List Input) (now : ℤ) : Prop :=
  found before ≠ [] ∧ ∃ rest, inputs = before ++ .round now :: rest ∧
    ∀ before' i rest', rest = before' ++ i :: rest' → Blind found (before ++ .round now :: before') i

theorem never_concat {found : Found} {inputs : List Input} {i : Input} (h : Never found inputs) (hi : Blind found inputs i) :
    Never found (inputs ++ [i]) := by
  intro before j rest heq
  rcases List.eq_nil_or_concat rest with rfl | ⟨rest, k, rfl⟩
  · obtain ⟨rfl, hj⟩ := List.append_inj' heq rfl
    rw [← List.singleton_inj.mp hj]
    exact hi
  · rw [List.concat_eq_append, ← List.cons_append, ← List.append_assoc] at heq
    exact h before j rest (List.append_inj' heq rfl).1

theorem last_concat {found : Found} {inputs before : List Input} {now : ℤ} {i : Input} (h : Last found inputs before now)
    (hi : Blind found inputs i) : Last found (inputs ++ [i]) before now := by
  obtain ⟨hsaw, rest, rfl, hrest⟩ := h
  refine ⟨hsaw, rest ++ [i], by rw [List.append_assoc, List.cons_append], fun before' j rest' heq => ?_⟩
  rcases List.eq_nil_or_concat rest' with rfl | ⟨rest', k, rfl⟩
  · obtain ⟨rfl, hj⟩ := List.append_inj' heq rfl
    rw [← List.singleton_inj.mp hj]
    exact hi
  · rw [List.concat_eq_append, ← List.cons_append, ← List.append_assoc] at heq
    exact hrest before' j rest' (List.append_inj' heq rfl).1

theorem last_round {found : Found} {inputs : List Input} (h : found inputs ≠ []) (now : ℤ) :
    Last found (inputs ++ [.round now]) inputs now :=
  ⟨h, [], rfl, fun before' i rest' heq => absurd heq (by simp)⟩

/-- A row (`row`) is from the last round that found something for it, and says of this what it should (`Of`); without such a
round there is none. -/
def FromLast {ρ : Type} (found : Found) (row : State → Option ρ) (Of : List Input → ℤ → ρ → Prop) (inputs : List Input) :
    Prop :=
  (row (after inputs) = none ∧ Never found inputs) ∨
    ∃ before now r, Last found inputs before now ∧ row (after inputs) = some r ∧ Of before now r

section
variable {ρ : Type} {found : Found} {row : State → Option ρ} {Of : List Input → ℤ → ρ → Prop}

/-- **Every input keeps that**, where a round that finds something writes the row and one that finds nothing leaves it. -/
theorem fromLast_step (hwrite : ∀ inputs now, found inputs ≠ [] →
      ∃ r, row (after (inputs ++ [.round now])) = some r ∧ Of inputs now r)
    (hleave : ∀ inputs i, Blind found inputs i → row (after (inputs ++ [i])) = row (after inputs)) {inputs : List Input}
    (h : FromLast found row Of inputs) (i : Input) : FromLast found row Of (inputs ++ [i]) := by
  by_cases hi : Blind found inputs i
  · have hsame := hleave inputs i hi
    rcases h with ⟨hnone, hnever⟩ | ⟨before, now, r, hlast, hrow, hof⟩
    · exact Or.inl ⟨hsame.trans hnone, never_concat hnever hi⟩
    · exact Or.inr ⟨before, now, r, last_concat hlast hi, hsame.trans hrow, hof⟩
  · unfold Blind at hi
    push Not at hi
    obtain ⟨now, rfl, hfound⟩ := hi
    obtain ⟨r, hrow, hof⟩ := hwrite inputs now hfound
    exact Or.inr ⟨inputs, now, r, last_round hfound now, hrow, hof⟩

theorem fromLast_after (hwrite : ∀ inputs now, found inputs ≠ [] →
      ∃ r, row (after (inputs ++ [.round now])) = some r ∧ Of inputs now r)
    (hleave : ∀ inputs i, Blind found inputs i → row (after (inputs ++ [i])) = row (after inputs))
    (hstart : row start = none) (inputs : List Input) : FromLast found row Of inputs := by
  induction inputs using List.reverseRecOn with
  | nil => exact Or.inl ⟨hstart, fun before i rest heq => absurd heq (by simp)⟩
  | append_singleton inputs i ih => exact fromLast_step hwrite hleave ih i

end

theorem day_fromLast (inputs : List Input) (bd : ℤ) :
    FromLast (left · bd) (State.daily · bd) (RowOf · · bd ·) inputs := by
  refine fromLast_after (fun inputs now h => round_day h now) (fun inputs i hi => ?_) rfl inputs
  rw [after_append]
  cases i with
  | sample x => rfl
  | prune now => rfl
  | round now => exact round_daily_of_not_left (hi now rfl) now

theorem shift_fromLast (inputs : List Input) (bd : ℤ) (sh : Shift) :
    FromLast (leftIn · bd sh) (State.byshift · (bd, label sh)) (fun before _ => ShiftRowOf before bd sh) inputs := by
  refine fromLast_after (fun inputs now h => round_shift h now) (fun inputs i hi => ?_) rfl inputs
  rw [after_append]
  cases i with
  | sample x => rfl
  | prune now => rfl
  | round now => exact round_byshift_of_not_left (hi now rfl) now

/-- There are no samples of a shift where there are none of its day. -/
theorem leftIn_eq_nil {inputs : List Input} {bd : ℤ} (h : left inputs bd = []) (sh : Shift) : leftIn inputs bd sh = [] := by
  refine List.filter_eq_nil_iff.mpr fun r hr hlabel => ?_
  have hbd : bdOf r = bd := congrArg Prod.fst (of_decide_eq_true hlabel)
  exact List.filter_eq_nil_iff.mp h r hr (decide_eq_true hbd)

/-- The last round that saw a day is the last one for every shift of which it saw something. -/
theorem Last.shift {inputs before : List Input} {now bd : ℤ} (h : Last (left · bd) inputs before now) {sh : Shift}
    (hsh : leftIn before bd sh ≠ []) : Last (leftIn · bd sh) inputs before now := by
  obtain ⟨-, rest, heq, hrest⟩ := h
  exact ⟨hsh, rest, heq, fun before' i rest' hi now' hnow => leftIn_eq_nil (hrest before' i rest' hi now' hnow) sh⟩

theorem Last.unique {found : Found} {inputs before before' : List Input} {now now' : ℤ} (h : Last found inputs before now)
    (h' : Last found inputs before' now') : before = before' ∧ now = now' := by
  -- a second one further back would be among those that find nothing
  have hle : ∀ {before before' : List Input} {now now' : ℤ}, Last found inputs before now → Last found inputs before' now' →
      ∀ more, before' = before ++ more → before = before' ∧ now = now' := by
    rintro before _ now now' ⟨-, rest, heq, hrest⟩ ⟨hsaw', rest', heq', -⟩ more rfl
    rw [heq, List.append_assoc] at heq'
    cases more with
    | nil =>
      obtain ⟨hround, -⟩ := List.cons.inj (List.append_cancel_left heq')
      exact ⟨(List.append_nil before).symm, Input.round.inj hround⟩
    | cons i more =>
      obtain ⟨rfl, htail⟩ := List.cons.inj (List.append_cancel_left heq')
      exact absurd (hrest more (.round now') rest' htail now' rfl) hsaw'
  obtain ⟨-, rest, heq, -⟩ := id h
  obtain ⟨-, rest', heq', -⟩ := id h'
  rcases List.append_eq_append_iff.mp (heq.symm.trans heq') with ⟨more, hmore, -⟩ | ⟨more, hmore, -⟩
  · exact hle h h' more hmore
  · exact (hle h' h more hmore).imp Eq.symm Eq.symm

theorem length_ofKey_rows (samples : List Sample) (bd : ℤ) :
    (ofKey bdOf (rows samples) bd).length = (samples.filter (OnDay bd)).length := by
  induction samples with
  | nil => rfl
  | cons x samples ih =>
    obtain ⟨ts, sr⟩ := x
    cases sr with
    | none =>
      rw [List.filter_cons_of_neg (by simp [OnDay]), ← ih]
      rfl
    | some sr =>
      have hrows : ofKey bdOf (rows (⟨ts, some sr⟩ :: samples)) bd =
          ((ts, sr) :: rows samples).filter fun r => bdOf r = bd := rfl
      have hon : OnDay bd ⟨ts, some sr⟩ ↔ bdOf (ts, sr) = bd := ⟨And.right, fun hbd => ⟨rfl, hbd⟩⟩
      rw [hrows, List.filter_cons, List.filter_cons]
      simp only [hon]
      split_ifs
      · rw [List.length_cons, List.length_cons, ← ih]
        rfl
      · exact ih

/-- Of the samples of a day that have come, those left are all exactly if no pruning has reached one. -/
theorem length_left_iff {inputs : List Input} (h : Ordered inputs) (bd : ℤ) :
    (left inputs bd).length = ((came inputs).filter (OnDay bd)).length ↔
      ∀ x ∈ came inputs, OnDay bd x → Kept inputs x := by
  unfold left
  rw [length_ofKey_rows, samples_eq h, List.filter_filter]
  have hcomm : (came inputs).filter (fun x => decide (OnDay bd x) && decide (Kept inputs x)) =
      ((came inputs).filter (OnDay bd)).filter (Kept inputs) := by
    rw [List.filter_filter]
    exact List.filter_congr fun x _ => Bool.and_comm _ _
  rw [hcomm, List.length_filter_eq_length_iff]
  simp only [List.mem_filter, decide_eq_true_iff, and_imp]

theorem Ordered.take {inputs before rest : List Input} (h : Ordered inputs) (heq : inputs = before ++ rest) : Ordered before := by
  obtain ⟨hclock, hapart⟩ := h
  have hcame : came (before ++ rest) = came before ++ came rest := List.filterMap_append
  rw [heq, List.map_append, List.pairwise_append] at hclock
  rw [heq, hcame, List.map_append, List.nodup_append] at hapart
  exact ⟨hclock.1, hapart.1⟩

/-- Of the two samples of a day one is pruned before the last round that sees the day. -/
def eaten : List Input :=
  [.sample ⟨0, some 3⟩, .sample ⟨10 * HOUR, some 1⟩, .round (11 * HOUR), .prune (SAMPLES_FOR + HOUR),
    .round (SAMPLES_FOR + HOUR)]

end TtAiops.Ops.QcWait
