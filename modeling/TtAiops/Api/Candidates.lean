import TtAiops.Api.Workpool

/-!
# The candidates of the work pool (`workpool.rs`)

A candidate is work that has no truck yet. How urgent it is follows from the queues of its crane: it is at work, or so many
moves come first. The queue is looked up by its name alone, and what comes first by the sequence numbers alone; but a crane
has several ships, each with a 10D-L of its own and with numbers from 1 on, and works them ship by ship.

* `qcOut` : a crane as the timeline gets it;
* `candidates` : the candidates with their urgency;
* `Agrees` : the urgency is that of the candidate's own queue, in the order of the timeline;
* `Unmixed`, `agrees_iff_unmixed` : **it is exactly if the first queue of that name is at work when its own is, and if
  what the numbers alone put in front of it has as many moves as what the blocks of the ships alone put there**;
* `unmixed_oneShip` : a crane with one ship is never mixed up.
-/

namespace TtAiops.Api.Workpool
open TtAiops.Lib

/-! ## What is read -/

/-- A row of `live_workqueue`. -/
structure QueueRow where
  qc : String
  vessel : String
  voyage : Option String
  queuename : String
  seq : Option ℤ
  totalQty : Option ℤ
  compQty : Option ℤ
  deriving DecidableEq

/-- A row of `live_workpool`, as far as the order of the ships needs it. -/
structure MoveRow where
  qc : Option String
  vessel : String
  etwTs : Option ℤ
  etwAccurate : Option ℤ

/-- A row of `live_candidate`. -/
structure CandidateRow where
  qc : Option String
  queuename : String
  vessel : String
  jobtype : Option String
  srcBlock : Option String
  rtg : Option String
  n : ℤ

/-- The three tables. A crane has one queue of a name for a ship: that is the primary key. -/
structure Tables where
  queues : List QueueRow
  moves : List MoveRow
  candRows : List CandidateRow
  keys : (queues.map fun q => (q.qc, q.vessel, q.queuename)).Nodup

variable (w : World) (t : Tables)

/-! ## The cranes -/

/-- The queue as it goes into the crane. -/
def QueueRow.out (q : QueueRow) : Queue :=
  ⟨q.queuename, q.vessel, q.voyage, q.seq, q.totalQty.getD 0, q.compQty.getD 0⟩

/-- `active_qcs`: a crane with a move, or with a queue that has begun. -/
def activeQcs (qc : String) : Prop :=
  qc ≠ "" ∧ ((∃ m ∈ t.moves, m.qc = some qc) ∨ ∃ q ∈ t.queues, q.qc = qc ∧ 0 < q.compQty.getD 0)

instance (qc : String) : Decidable (activeQcs t qc) := inferInstanceAs (Decidable (_ ∧ _))

/-- `qrows`: the queues of a crane by their sequence numbers. -/
def qrows (qc : String) : List QueueRow :=
  (t.queues.filter fun q => q.qc = qc).insertionSort fun a b => a.seq.getD i32Max ≤ b.seq.getD i32Max

/-- `etw`: the accurate time, else that of the database. -/
def etw (m : MoveRow) : Option ℤ := m.etwAccurate.or m.etwTs

/-- The moves without a time come last. -/
def etwLe (a b : MoveRow) : Bool :=
  match etw a, etw b with
  | some x, some y => x ≤ y
  | some _, none => true
  | none, some _ => false
  | none, none => true

/-- `mrows`: the moves of a crane, the soonest first. -/
def mrows (qc : String) : List MoveRow :=
  (t.moves.filter fun m => m.qc = some qc).insertionSort fun a b => etwLe a b

/-- One step of `vessels`. -/
def pushNew (vessels : List String) (vessel : String) : List String :=
  if vessel ∈ vessels then vessels else vessels ++ [vessel]

/-- `vessels`: the ships of the moves, else those of the queues that have begun. -/
def vessels (qc : String) : List String :=
  let moved := (mrows t qc).foldl (fun vs m => pushNew vs m.vessel) []
  if moved = [] then (qrows t qc).foldl (fun vs q => if 0 < q.compQty.getD 0 then pushNew vs q.vessel else vs) []
  else moved

/-- `QcOut` of a crane that is active. -/
def qcOut (qc : String) : Qc := ⟨qc, vessels t qc, (qrows t qc).map QueueRow.out⟩

/-! ## The urgency -/

structure QInfo where
  queuename : String
  seq : ℤ
  done : ℤ
  total : ℤ

/-- A queue without a sequence number is the last one. -/
def QueueRow.info (q : QueueRow) : QInfo :=
  ⟨q.queuename, q.seq.getD i32Max, q.compQty.getD 0, q.totalQty.getD 0⟩

/-- `qc_queues`: of all the cranes, the active ones or not. -/
def qcQueues (qc : String) : List QInfo := (t.queues.filter fun q => q.qc = qc).map QueueRow.info

/-- `moves_until` and `active`. -/
def urgency (c : CandidateRow) : ℤ × Bool :=
  match c.qc with
  | none => (i64Max, false)
  | some qc =>
    let qs := qcQueues t qc
    match qs.find? fun q => q.queuename = c.queuename with
    | none => (i64Max, false)
    | some mine =>
      let activeRem := ((qs.filter fun q => 0 < q.done ∧ q.done < q.total).map fun q => q.total - q.done).sum
      if 0 < mine.done ∧ mine.done < mine.total then (0, true)
      else
        let before := ((qs.filter fun q => q.done = 0 ∧ q.seq < mine.seq).map QInfo.total).sum
        (activeRem + before, false)

structure CandidateOut where
  qc : Option String
  queuename : String
  vessel : String
  jobtype : Option String
  srcBlock : Option String
  rtg : Option String
  n : ℤ
  movesUntil : ℤ
  active : Bool

def candidate (c : CandidateRow) : CandidateOut :=
  ⟨c.qc, c.queuename, c.vessel, c.jobtype, c.srcBlock, c.rtg, c.n, (urgency t c).1, (urgency t c).2⟩

/-- `candidates`: the soonest first, then the larger demand. -/
def candidates : List CandidateOut :=
  (t.candRows.map (candidate t)).insertionSort fun a b => toLex (a.movesUntil, -a.n) ≤ toLex (b.movesUntil, -b.n)

/-! ## What it should be -/

abbrev Queue.InProgress (q : Queue) : Prop := 0 < q.done ∧ q.done < q.total

/-- The queue of this crane, ship and name. -/
def own (qc : Option String) (vessel queuename : String) : Option QueueRow :=
  t.queues.find? fun q => qc = some q.qc ∧ q.vessel = vessel ∧ q.queuename = queuename

/-- The moves that are left in the queues at work. -/
def activeRem (c : Qc) : ℤ := ((c.queues.filter fun q => q.InProgress).map Queue.remaining).sum

/-- The moves of the queues that have not begun and stand before this one in the order of the timeline. -/
def ahead (c : Qc) (q : Queue) : ℤ :=
  ((((order w c).takeWhile fun x => x ≠ q).filter fun x => x.done = 0).map Queue.total).sum

/-- The urgency is that of the candidate's own queue. A crane that is not active has no timeline to agree with. -/
structure Agrees (o : CandidateOut) : Prop where
  active : o.active = true ↔ ∃ q ∈ own t o.qc o.vessel o.queuename, q.out.InProgress
  now : ∀ q ∈ own t o.qc o.vessel o.queuename, q.out.InProgress → o.movesUntil = 0
  later : ∀ q ∈ own t o.qc o.vessel o.queuename, ¬ q.out.InProgress → activeQcs t q.qc →
    o.movesUntil = activeRem (qcOut t q.qc) + ahead w (qcOut t q.qc) q.out

/-! ## When it is -/

/-- The first queue of the crane that has the name, of whatever ship. -/
def named (qc : Option String) (queuename : String) : Option QueueRow :=
  t.queues.find? fun q => qc = some q.qc ∧ q.queuename = queuename

/-- Of a ship whose block comes first, or of the same ship and listed before. -/
abbrev InFront (c : Qc) (x q : Queue) : Prop :=
  rank w c x.vessel < rank w c q.vessel ∨ x.vessel = q.vessel ∧ [x, q].Sublist c.queues

/-- The moves of the queues that have not begun, among those of a kind. -/
def waiting (c : Qc) (kind : Queue → Bool) : ℤ := ((c.queues.filter fun x => x.done = 0 ∧ kind x).map Queue.total).sum

/-- The name and the numbers do not mix up the ships of the candidate's crane. -/
structure Unmixed (c : CandidateRow) : Prop where
  name : (∃ q ∈ named t c.qc c.queuename, q.out.InProgress) ↔ ∃ q ∈ own t c.qc c.vessel c.queuename, q.out.InProgress
  number : ∀ q ∈ own t c.qc c.vessel c.queuename, ¬ q.out.InProgress → activeQcs t q.qc →
    ∀ m ∈ named t c.qc c.queuename,
      waiting (qcOut t q.qc) (fun x => x.seq.getD i32Max < m.seq.getD i32Max ∧ ¬ InFront w (qcOut t q.qc) x q.out) =
        waiting (qcOut t q.qc) (fun x => InFront w (qcOut t q.qc) x q.out ∧ ¬ x.seq.getD i32Max < m.seq.getD i32Max)

variable {w t}

/-! ## The queues of a crane -/

theorem qrows_perm (qc : String) : (qrows t qc).Perm (t.queues.filter fun q => q.qc = qc) := List.perm_insertionSort _ _

theorem mem_qrows {qc : String} {q : QueueRow} : q ∈ qrows t qc ↔ q ∈ t.queues ∧ q.qc = qc := by
  rw [(qrows_perm qc).mem_iff]
  simp

/-- Its queues differ, since the table has one for each crane, ship and name. -/
theorem qcOut_nodup (qc : String) : (qcOut t qc).queues.Nodup := by
  have hrows : ((qrows t qc).map fun q => (q.qc, q.vessel, q.queuename)).Nodup :=
    ((qrows_perm qc).map _).nodup_iff.mpr (t.keys.sublist (List.filter_sublist.map _))
  apply List.Nodup.map_on _ hrows.of_map
  intro a ha b hb hout
  apply List.inj_on_of_nodup_map hrows ha hb
  rw [(mem_qrows.mp ha).2, (mem_qrows.mp hb).2]
  rw [show a.vessel = b.vessel from congrArg Queue.vessel hout,
    show a.queuename = b.queuename from congrArg Queue.queuename hout]

theorem qcOut_sorted (qc : String) :
    (qcOut t qc).queues.Pairwise (fun a b => a.seq.getD i32Max ≤ b.seq.getD i32Max) := by
  have hrows : (qrows t qc).Pairwise (fun a b => a.seq.getD i32Max ≤ b.seq.getD i32Max) := List.pairwise_insertionSort _ _
  exact List.Pairwise.map QueueRow.out (fun _ _ h => h) hrows

/-- A sum over the rows of the crane, through whatever view of them. -/
theorem sum_rows (qc : String) (p : QueueRow → Bool) (f : QueueRow → ℤ) :
    (((t.queues.filter fun q => q.qc = qc).filter p).map f).sum = (((qrows t qc).filter p).map f).sum :=
  (((qrows_perm qc).filter p).map f).sum_eq.symm

/-! ## The order of the timeline -/

/-- In the order of the timeline stand in front: the ships whose blocks come first, and what is listed before. -/
theorem sublist_order {c : Qc} (hnodup : c.queues.Nodup)
    (hsorted : c.queues.Pairwise (fun a b => a.seq.getD i32Max ≤ b.seq.getD i32Max)) {x q : Queue} (hx : x ∈ c.queues)
    (hq : q ∈ c.queues) : [x, q].Sublist (order w c) ↔ InFront w c x q := by
  by_cases hne : x = q
  · subst hne
    have hself : ∀ {l : List Queue}, l.Nodup → ¬ [x, x].Sublist l := fun h h' => pair_sublist_asymm h h' h'
    constructor
    · intro h
      exact absurd h (hself (order_perm.nodup_iff.mpr hnodup))
    · intro h
      obtain h | ⟨_, h⟩ := h
      · exact absurd h (lt_irrefl _)
      · exact absurd h (hself hnodup)
  · have hseq : ∀ {a b : Queue}, [a, b].Sublist c.queues → a.seq.getD i32Max ≤ b.seq.getD i32Max := by
      intro a b h
      simpa using List.Pairwise.sublist h hsorted
    rw [order, pair_sublist_insertionSort_iff hnodup hx hq hne]
    unfold key
    rw [Prod.Lex.toLex_lt_toLex]
    constructor
    · intro h
      obtain (h | ⟨hrank, h⟩) | ⟨hkey, h⟩ := h
      · exact Or.inl h
      · apply Or.inr
        refine ⟨rank_injective hrank, ?_⟩
        obtain h' | h' := pair_sublist_total hx hq hne
        · exact h'
        · exact absurd (hseq h') (not_le_of_gt h)
      · exact Or.inr ⟨rank_injective (Prod.mk.inj (toLex.injective hkey)).1, h⟩
    · intro h
      obtain h | ⟨hvessel, h⟩ := h
      · exact Or.inl (Or.inl h)
      · obtain hlt | heq := lt_or_eq_of_le (hseq h)
        · exact Or.inl (Or.inr ⟨congrArg (rank w c) hvessel, hlt⟩)
        · exact Or.inr ⟨by rw [hvessel, heq], h⟩

/-- With one ship on the crane, and numbers that differ, the numbers give the order. -/
theorem inFront_oneShip {c : Qc} (hsorted : c.queues.Pairwise (fun a b => a.seq.getD i32Max ≤ b.seq.getD i32Max))
    (hseq : (c.queues.map fun q => q.seq.getD i32Max).Nodup) {x q : Queue} (hx : x ∈ c.queues) (hq : q ∈ c.queues)
    (hvessel : x.vessel = q.vessel) : InFront w c x q ↔ x.seq.getD i32Max < q.seq.getD i32Max := by
  have hlt : ∀ {a b : Queue}, [a, b].Sublist c.queues → a.seq.getD i32Max < b.seq.getD i32Max := by
    intro a b h
    have hle : a.seq.getD i32Max ≤ b.seq.getD i32Max := by simpa using List.Pairwise.sublist h hsorted
    have hne := hseq.sublist (h.map fun q : Queue => q.seq.getD i32Max)
    exact lt_of_le_of_ne hle (by simpa using hne)
  constructor
  · intro h
    obtain h | ⟨_, h⟩ := h
    · rw [hvessel] at h
      exact absurd h (lt_irrefl _)
    · exact hlt h
  · intro h
    apply Or.inr
    refine ⟨hvessel, ?_⟩
    obtain h' | h' := pair_sublist_total hx hq (by rintro rfl; exact lt_irrefl _ h)
    · exact h'
    · exact absurd (hlt h') (not_lt_of_gt h)

/-- What the timeline puts before a queue, as a selection from the crane's list. -/
theorem ahead_eq {c : Qc} (hnodup : c.queues.Nodup)
    (hsorted : c.queues.Pairwise (fun a b => a.seq.getD i32Max ≤ b.seq.getD i32Max)) {q : Queue} (hq : q ∈ c.queues) :
    ahead w c q = waiting c (fun x => InFront w c x q) := by
  unfold ahead waiting
  rw [takeWhile_ne_eq_filter (order_perm.nodup_iff.mpr hnodup) (order_perm.mem_iff.mpr hq), List.filter_filter]
  rw [((order_perm.filter _).map _).sum_eq]
  congr 2
  apply List.filter_congr
  intro x hx
  rw [← Bool.decide_and, decide_eq_decide, sublist_order hnodup hsorted hx hq]
  simp

/-! ## The urgency, queue by queue -/

theorem qcQueues_find (qc : String) (queuename : String) : (qcQueues t qc).find? (fun q => q.queuename = queuename)
    = (named t (some qc) queuename).map QueueRow.info := by
  unfold qcQueues named
  rw [List.find?_map, List.find?_filter]
  congr 2
  funext q
  by_cases hq : q.qc = qc
  · subst hq
    simp [QueueRow.info]
    rfl
  · simp [hq, Ne.symm hq]

theorem activeRem_eq (qc : String) : activeRem (qcOut t qc)
    = (((qcQueues t qc).filter fun q => 0 < q.done ∧ q.done < q.total).map fun q => q.total - q.done).sum := by
  unfold activeRem qcQueues qcOut
  rw [List.filter_map, List.filter_map, List.map_map, List.map_map]
  symm
  calc _ = _ := sum_rows qc _ _
    _ = _ := by
      congr 1
      apply List.map_congr_left
      intro q hq
      have hprogress : q.out.InProgress := of_decide_eq_true (List.mem_filter.mp hq).2
      exact (max_eq_left (by have := hprogress.2; show 0 ≤ q.out.total - q.out.done; omega)).symm

theorem waiting_eq (qc : String) (bound : ℤ) : waiting (qcOut t qc) (fun x => x.seq.getD i32Max < bound)
    = (((qcQueues t qc).filter fun q => q.done = 0 ∧ q.seq < bound).map QInfo.total).sum := by
  unfold waiting qcQueues qcOut
  rw [List.filter_map, List.filter_map, List.map_map, List.map_map]
  symm
  calc _ = _ := sum_rows qc _ _
    _ = _ := by
      refine congrArg (fun l => (List.map _ l).sum) (List.filter_congr ?_)
      intro q _
      exact decide_eq_decide.mpr (and_congr Iff.rfl decide_eq_true_iff.symm)

/-- The urgency is that of the first queue with the name, and counts by the numbers. -/
theorem urgency_eq (c : CandidateRow) : urgency t c = match named t c.qc c.queuename with
    | none => (i64Max, false)
    | some m =>
      if m.out.InProgress then (0, true)
      else (activeRem (qcOut t m.qc) + waiting (qcOut t m.qc) (fun x => x.seq.getD i32Max < m.seq.getD i32Max), false) := by
  unfold urgency
  cases hqc : c.qc with
  | none =>
    have hnone : named t none c.queuename = none := by
      apply List.find?_eq_none.mpr
      simp
    rw [hnone]
  | some qc =>
    dsimp only
    rw [qcQueues_find]
    cases hm : named t (some qc) c.queuename with
    | none => rfl
    | some m =>
      have hcrane : qc = m.qc := by
        have := List.find?_some hm
        simp only [Option.some.injEq, decide_eq_true_eq] at this
        exact this.1
      subst hcrane
      dsimp only [Option.map_some]
      rw [activeRem_eq, waiting_eq]
      rfl

/-- The own queue is on the crane and has the name, so there is a first one. -/
theorem own_named {qc : Option String} {vessel queuename : String} {q : QueueRow} (h : own t qc vessel queuename = some q) :
    qc = some q.qc ∧ q ∈ t.queues ∧ ∃ m, named t qc queuename = some m ∧ m.qc = q.qc := by
  have hq := List.find?_some h
  simp only [decide_eq_true_eq] at hq
  obtain ⟨hqc, _, hname⟩ := hq
  have hmem := List.mem_of_find?_eq_some h
  have hsome : (named t qc queuename).isSome := by
    unfold named
    rw [List.find?_isSome]
    exact ⟨q, hmem, by simp [hqc, hname]⟩
  obtain ⟨m, hm⟩ := Option.isSome_iff_exists.mp hsome
  refine ⟨hqc, hmem, m, hm, ?_⟩
  have hcrane := List.find?_some hm
  simp only [decide_eq_true_eq] at hcrane
  exact Option.some.inj (hcrane.1.symm.trans hqc)

/-- By the numbers and by the blocks comes the same, if what only the ones count has the moves of what only the others do. -/
theorem waiting_eq_iff (c : Qc) (p q : Queue → Prop) [DecidablePred p] [DecidablePred q] :
    waiting c (fun x => p x) = waiting c (fun x => q x) ↔
      waiting c (fun x => p x ∧ ¬ q x) = waiting c (fun x => q x ∧ ¬ p x) := by
  unfold waiting
  rw [sum_filter_eq_iff]
  have hkind : ∀ a b : Queue → Prop, ∀ [DecidablePred a] [DecidablePred b],
      c.queues.filter (fun x => decide (x.done = 0 ∧ a x) && !decide (x.done = 0 ∧ b x))
        = c.queues.filter (fun x => x.done = 0 ∧ (a x ∧ ¬ b x)) := by
    intro a b _ _
    apply List.filter_congr
    intro x _
    by_cases x.done = 0 <;> simp [*]
  simp only [decide_eq_true_eq, hkind]

theorem candidate_active (c : CandidateRow) :
    (candidate t c).active = true ↔ ∃ m ∈ named t c.qc c.queuename, m.out.InProgress := by
  show (urgency t c).2 = true ↔ _
  rw [urgency_eq]
  cases named t c.qc c.queuename with
  | none => simp
  | some m =>
    dsimp only
    split
    · simpa using ‹m.out.InProgress›
    · simpa using ‹¬ m.out.InProgress›

theorem candidate_movesUntil {c : CandidateRow} {m : QueueRow} (hm : named t c.qc c.queuename = some m) :
    (candidate t c).movesUntil = if m.out.InProgress then 0
      else activeRem (qcOut t m.qc) + waiting (qcOut t m.qc) (fun x => x.seq.getD i32Max < m.seq.getD i32Max) := by
  show (urgency t c).1 = _
  rw [urgency_eq, hm]
  dsimp only
  split <;> rfl

/-- If the first queue of the name is at work only when the own queue is, it is not when that is not. -/
theorem named_idle {c : CandidateRow} {q m : QueueRow}
    (hname : (∃ q ∈ named t c.qc c.queuename, q.out.InProgress) ↔ ∃ q ∈ own t c.qc c.vessel c.queuename, q.out.InProgress)
    (hq : own t c.qc c.vessel c.queuename = some q) (hnot : ¬ q.out.InProgress)
    (hm : named t c.qc c.queuename = some m) : ¬ m.out.InProgress := by
  intro hprogress
  obtain ⟨q', hq', hprogress'⟩ := hname.mp ⟨m, hm, hprogress⟩
  rw [Option.mem_unique hq' hq] at hprogress'
  exact hnot hprogress'

/-- **The urgency of a candidate** is that of its own queue in the order of the timeline exactly if the name and the numbers
do not mix up the ships of its crane. -/
theorem agrees_iff_unmixed (c : CandidateRow) : Agrees w t (candidate t c) ↔ Unmixed w t c := by
  have hahead : ∀ q, own t c.qc c.vessel c.queuename = some q →
      ahead w (qcOut t q.qc) q.out = waiting (qcOut t q.qc) (fun x => InFront w (qcOut t q.qc) x q.out) := by
    intro q hq
    obtain ⟨_, hmem, _⟩ := own_named hq
    exact ahead_eq (qcOut_nodup q.qc) (qcOut_sorted q.qc) (List.mem_map_of_mem (mem_qrows.mpr ⟨hmem, rfl⟩))
  constructor
  · intro h
    have hname := (candidate_active c).symm.trans h.active
    refine ⟨hname, ?_⟩
    intro q hq hnot hcrane m hm
    have hm' := named_idle hname hq hnot hm
    have hlater := h.later q hq hnot hcrane
    obtain ⟨_, _, m', hm'', hqc⟩ := own_named hq
    obtain rfl := Option.mem_unique hm hm''
    rw [candidate_movesUntil hm, if_neg hm', hahead q hq, hqc] at hlater
    exact (waiting_eq_iff _ _ _).mp (add_left_cancel hlater)
  · intro h
    refine ⟨(candidate_active c).trans h.name, ?_, ?_⟩
    · intro q hq hprogress
      obtain ⟨m, hm, hm'⟩ := h.name.mpr ⟨q, hq, hprogress⟩
      rw [candidate_movesUntil hm, if_pos hm']
    · intro q hq hnot hcrane
      obtain ⟨_, _, m, hm, hqc⟩ := own_named hq
      have hm' := named_idle h.name hq hnot hm
      rw [candidate_movesUntil hm, if_neg hm', hahead q hq, hqc]
      exact congrArg _ ((waiting_eq_iff _ _ _).mpr (h.number q hq hnot hcrane m hm))

/-- A crane with one ship, whose numbers differ, is never mixed up. -/
theorem unmixed_oneShip (c : CandidateRow) (hship : ∀ q ∈ t.queues, c.qc = some q.qc → q.vessel = c.vessel)
    (hseq : ∀ qc, c.qc = some qc → ((qcOut t qc).queues.map fun q => q.seq.getD i32Max).Nodup) : Unmixed w t c := by
  have hsame : named t c.qc c.queuename = own t c.qc c.vessel c.queuename := by
    unfold named own
    apply List.find?_congr
    intro q hq
    rw [decide_eq_decide]
    constructor
    · intro ⟨hqc, hname⟩
      exact ⟨hqc, hship q hq hqc, hname⟩
    · intro ⟨hqc, _, hname⟩
      exact ⟨hqc, hname⟩
  refine ⟨by rw [hsame], ?_⟩
  intro q hq hnot hcrane m hm
  rw [hsame] at hm
  obtain rfl := Option.mem_unique hq hm
  obtain ⟨hqc, hmem, _⟩ := own_named hq
  have hq' : q.out ∈ (qcOut t q.qc).queues := List.mem_map_of_mem (mem_qrows.mpr ⟨hmem, rfl⟩)
  have hvessel : ∀ x ∈ (qcOut t q.qc).queues, x.vessel = q.out.vessel := by
    intro x hx
    obtain ⟨r, hr, rfl⟩ := List.mem_map.mp hx
    obtain ⟨hr, hrqc⟩ := mem_qrows.mp hr
    rw [show r.out.vessel = c.vessel from hship r hr (by rw [hqc, hrqc]), show q.out.vessel = c.vessel from hship q hmem hqc]
  have hkind : ∀ x ∈ (qcOut t q.qc).queues,
      (InFront w (qcOut t q.qc) x q.out ↔ x.seq.getD i32Max < q.seq.getD i32Max) := fun x hx =>
    inFront_oneShip (qcOut_sorted q.qc) (hseq q.qc hqc) hx hq' (hvessel x hx)
  apply (waiting_eq_iff _ _ _).mp
  unfold waiting
  refine congrArg (fun l => (List.map _ l).sum) (List.filter_congr ?_)
  intro x hx
  simp [hkind x hx]

/-- **The urgency of the candidates** is that of their own queues in the order of the timeline exactly if the name and the
numbers do not mix up the ships of their cranes. -/
theorem candidates_agree_iff : (∀ o ∈ candidates t, Agrees w t o) ↔ ∀ c ∈ t.candRows, Unmixed w t c := by
  have hmem : ∀ o, o ∈ candidates t ↔ ∃ c ∈ t.candRows, candidate t c = o := by
    intro o
    rw [candidates, List.mem_insertionSort, List.mem_map]
  constructor
  · intro h c hc
    exact (agrees_iff_unmixed c).mp (h _ ((hmem _).mpr ⟨c, hc, rfl⟩))
  · intro h o ho
    obtain ⟨c, hc, rfl⟩ := (hmem o).mp ho
    exact (agrees_iff_unmixed c).mpr (h c hc)

/-- Two ships of a crane have a 10D-L, and only the first one is at work. -/
def twoTens : Tables where
  queues := [⟨"Z2", "BWSS", some "26", "10D-L", some 1, some 80, some 7⟩, ⟨"Z2", "MTMH", none, "10D-L", some 1, some 40, some 0⟩]
  moves := [⟨some "Z2", "BWSS", some (20000 * second), none⟩]
  candRows := [⟨some "Z2", "10D-L", "MTMH", some "LD", some "10X", none, 3⟩]
  keys := by decide

/-- The candidate of the second ship is said to be at work, where 73 moves come first. -/
theorem not_agrees_twoTens : (candidates twoTens).map (fun o => (o.vessel, o.movesUntil, o.active)) = [("MTMH", 0, true)] ∧
    ahead twoSchedules (qcOut twoTens "Z2") ⟨"10D-L", "MTMH", none, some 1, 40, 0⟩ = 0 ∧ activeRem (qcOut twoTens "Z2") = 73 ∧
    ¬ ∀ o ∈ candidates twoTens, Agrees twoSchedules twoTens o := by
  have hcandidates : candidates twoTens
      = [⟨some "Z2", "10D-L", "MTMH", some "LD", some "10X", none, 3, 0, true⟩] := by rfl
  refine ⟨by rw [hcandidates]; rfl, by decide +kernel, by decide +kernel, ?_⟩
  intro h
  rw [hcandidates] at h
  obtain ⟨q, hq, hprogress⟩ := (h _ (List.mem_singleton_self _)).active.mp rfl
  have : own twoTens (some "Z2") "MTMH" "10D-L" = some ⟨"Z2", "MTMH", none, "10D-L", some 1, some 40, some 0⟩ := by
    decide +kernel
  rw [Option.mem_unique hq this] at hprogress
  exact absurd hprogress (by decide)

end TtAiops.Api.Workpool
