import TtAiops.Dispatch.Swaps
import TtAiops.Stage2.Matching

/-!
# Whether a box is held for one truck only

The assignment filters its edges by the held boxes, the swap step looks at the held trucks alone.

* `OneTruck` : no two trucks are held with the same box;
* `maySwap`, `startHeld`, `ClearTick` : what a tick reads, and the state in which it starts, when no box can come to a
  second truck;
* `distinct_swapRows`, `distinct_assignRows` : then neither writer gives a box to two trucks;
* `ClearStages` : the same stage by stage, which is all that the holds need;
* `one_truck_per_box` : **in a run of clear ticks, with crashes anywhere, every box is held for one truck**;
* `swap_gives_held_box` : a swap gives a truck a box that another truck is held with.
-/

namespace TtAiops.Dispatch
open TtAiops.Lib TtAiops.Stage2

def OneTruck (held : Held) : Prop :=
  ∀ yt yt' h h', held.lookup yt = some h → held.lookup yt' = some h' → h.contno = h'.contno → yt = yt'

def DistinctBoxes (rows : List SentRow) : Prop :=
  ∀ r ∈ rows, ∀ r' ∈ rows, r.contno = r'.contno → r.ytno = r'.ytno

/-- No row gives a truck a box that another truck is held with. -/
def BoxesFree (held : Held) (rows : List SentRow) : Prop :=
  ∀ r ∈ rows, ∀ yt h, held.lookup yt = some h → h.contno = r.contno → yt = r.ytno

/-! ## The condition on a tick -/

/-- Candidates `i` and `j` can take each other's work, and that gains enough. -/
def mayExchange (inp : TickIn) (cands : List SwapCand) (i j : ℕ) : Bool :=
  (swapCross inp cands i j).any fun ij => (swapCross inp cands j i).any fun ji =>
    SWAP_MIN_GAIN_S ≤ (inp.trip i i).1 + (inp.trip j j).1 - (ij + ji)

/-- Candidate `i` has another one to exchange with. -/
def maySwap (inp : TickIn) (cands : List SwapCand) (i : ℕ) : Bool :=
  (List.range cands.length).any fun j => j ≠ i && mayExchange inp cands i j

/-- The box of candidate `i`. -/
def candBox (cands : List SwapCand) (i : ℕ) : Option String := cands[i]?.bind SwapCand.contno

/-- The holds a tick starts from: those in memory, or after a start those of the table. -/
def startHeld (inp : TickIn) (st : Loop) : Held :=
  if st.restored then st.held else ((restoreHolds (some (loadOpenSent st.table)) inp.nowMs).map Prod.fst).getD ∅

/-- The open rows that a restore does not drop for their age. -/
def youngRows (inp : TickIn) (st : Loop) : List OpenSent :=
  (loadOpenSent st.table).filter fun o => inp.nowMs - o.sentMs ≤ RESTORE_MAX_AGE_MS

/-- What an edge costs lies in the range of the solver. -/
def CostsInRange (inp : TickIn) : Prop :=
  ∀ x ∈ inp.vehicles.zipIdx, ∀ r oi, x.1.remain = some r → (inp.leg x.2 oi).1 < 1800 →
    0 ≤ r + (inp.leg x.2 oi).1 + (inp.leg x.2 oi).2 ∧ r + (inp.leg x.2 oi).1 + (inp.leg x.2 oi).2 < FORBIDDEN_COST

/-- The young open rows that a start reads name no box for two trucks; the dispatched trucks that may swap have boxes of
their own, and none that is held; the work list names no box twice, and a work that names its box is one slot. -/
structure ClearTick (inp : TickIn) (st : Loop) : Prop where
  rows : st.restored = false → ∀ o ∈ youngRows inp st, ∀ o' ∈ youngRows inp st, o.contno = o'.contno → o.ytno = o'.ytno
  apart : inp.swapAt.isSome = true → ∀ i < (swapCands inp (startHeld inp st)).length,
    ∀ j < (swapCands inp (startHeld inp st)).length, maySwap inp (swapCands inp (startHeld inp st)) i = true →
      maySwap inp (swapCands inp (startHeld inp st)) j = true →
        candBox (swapCands inp (startHeld inp st)) i = candBox (swapCands inp (startHeld inp st)) j → i = j
  free : inp.swapAt.isSome = true → ∀ i < (swapCands inp (startHeld inp st)).length,
    maySwap inp (swapCands inp (startHeld inp st)) i = true →
      ∀ c ∈ candBox (swapCands inp (startHeld inp st)) i, c ∉ heldBoxes (startHeld inp st)
  works : inp.assignAt.isSome = true →
    (inp.works.filterMap WorkIn.contno).Nodup ∧ ∀ w ∈ inp.works, w.contno.isSome = true → w.due.n ≤ 1
  costs : inp.assignAt.isSome = true → CostsInRange inp

/-! ## The swaps -/

def swapPicks (inp : TickIn) (held : Held) : List SwapPick :=
  pickSwaps ((List.range (swapCands inp held).length).map fun i => (inp.trip i i).1)
    (swapCross inp (swapCands inp held)) SWAP_MIN_GAIN_S

theorem candBox_eq {cands : List SwapCand} {i : ℕ} {c : SwapCand} {box : String} (hc : cands[i]? = some c)
    (hbox : c.contno = some box) : candBox cands i = some box := by
  rw [candBox, hc, Option.bind_some, hbox]

/-- A row of the swap step: the truck of one candidate of a pick, and the box of the other. -/
theorem swapRows_pick {inp : TickIn} {held : Held} {r : SentRow} (h : r ∈ swapRows inp held) :
    ∃ p ∈ swapPicks inp held, ∃ k l, (k = p.i ∧ l = p.j ∨ k = p.j ∧ l = p.i) ∧
      (swapCands inp held)[k]?.map SwapCand.ytno = some r.ytno ∧ candBox (swapCands inp held) l = some r.contno := by
  unfold swapRows at h
  simp only at h
  split_ifs at h
  · obtain ⟨p, hp, hr⟩ := List.mem_flatMap.mp h
    refine ⟨p, hp, ?_⟩
    split at hr
    · rename_i a b ha hb
      split at hr
      · rename_i ca cb hca hcb
        rcases List.mem_cons.mp hr with rfl | hr
        · exact ⟨p.i, p.j, Or.inl ⟨rfl, rfl⟩, by rw [ha]; rfl, candBox_eq hb hcb⟩
        · obtain rfl := List.mem_singleton.mp hr
          exact ⟨p.j, p.i, Or.inr ⟨rfl, rfl⟩, by rw [hb]; rfl, candBox_eq ha hca⟩
      · exact absurd hr List.not_mem_nil
    · exact absurd hr List.not_mem_nil
  · exact absurd h List.not_mem_nil

theorem maySwap_of_pick {inp : TickIn} {cands : List SwapCand} {p : SwapPick}
    (h : GoodPick ((List.range cands.length).map fun i => (inp.trip i i).1) (swapCross inp cands) SWAP_MIN_GAIN_S p) :
    p.i < cands.length ∧ p.j < cands.length ∧ maySwap inp cands p.i = true ∧ maySwap inp cands p.j = true := by
  have hlen : ((List.range cands.length).map fun i => (inp.trip i i).1).length = cands.length := by simp
  have hj : p.j < cands.length := hlen ▸ h.range
  have hi : p.i < cands.length := h.lt.trans hj
  have hown : ∀ i < cands.length, ((List.range cands.length).map fun i => (inp.trip i i).1).getD i 0 = (inp.trip i i).1 := by
    intro i hi
    rw [List.getD_eq_getElem _ _ (by rw [hlen]; exact hi), List.getElem_map, List.getElem_range]
  have hgain := h.enough
  rw [h.gain, hown _ hi, hown _ hj] at hgain
  have hne := h.lt.ne
  refine ⟨hi, hj, List.any_eq_true.mpr ⟨p.j, List.mem_range.mpr hj, ?_⟩, List.any_eq_true.mpr ⟨p.i, List.mem_range.mpr hi, ?_⟩⟩
  · simp [mayExchange, h.there, h.back, hne.symm, hgain]
  · simp only [mayExchange, h.there, h.back, hne, Option.any_some, decide_eq_true_eq, Bool.and_eq_true, ne_eq,
      not_false_eq_true, true_and]
    omega

/-- **The swaps of candidates with boxes of their own give no box to two trucks.** -/
theorem distinct_swapRows {inp : TickIn} {held : Held}
    (hapart : ∀ i < (swapCands inp held).length, ∀ j < (swapCands inp held).length,
      maySwap inp (swapCands inp held) i = true → maySwap inp (swapCands inp held) j = true →
        candBox (swapCands inp held) i = candBox (swapCands inp held) j → i = j) : DistinctBoxes (swapRows inp held) := by
  intro r hr r' hr' hbox
  obtain ⟨p, hp, k, l, hkl, hk, hl⟩ := swapRows_pick hr
  obtain ⟨p', hp', k', l', hkl', hk', hl'⟩ := swapRows_pick hr'
  have hside : ∀ p ∈ swapPicks inp held, ∀ k l, (k = p.i ∧ l = p.j ∨ k = p.j ∧ l = p.i) →
      l < (swapCands inp held).length ∧ maySwap inp (swapCands inp held) l = true ∧
        destinations (swapPicks inp held) l = k := by
    intro p hp k l hkl
    obtain ⟨hi, hj, hmi, hmj⟩ := maySwap_of_pick ((pickSwaps_sound _ _ _).good p hp)
    obtain ⟨hij, hji⟩ := (pickSwaps_sound _ _ _).swapped p hp
    rcases hkl with ⟨rfl, rfl⟩ | ⟨rfl, rfl⟩
    · exact ⟨hj, hmj, hji⟩
    · exact ⟨hi, hmi, hij⟩
  obtain ⟨hlt, hmay, hdest⟩ := hside p hp k l hkl
  obtain ⟨hlt', hmay', hdest'⟩ := hside p' hp' k' l' hkl'
  -- the same box is that of one candidate, and its work goes to one truck
  have hsame : l = l' := hapart l hlt l' hlt' hmay hmay' (by rw [hl, hl', hbox])
  subst hsame
  rw [← hdest, hdest', hk'] at hk
  exact (Option.some.inj hk).symm

theorem free_swapRows {inp : TickIn} {held : Held}
    (hfree : ∀ i < (swapCands inp held).length, maySwap inp (swapCands inp held) i = true →
      ∀ c ∈ candBox (swapCands inp held) i, c ∉ heldBoxes held) : BoxesFree held (swapRows inp held) := by
  intro r hr yt h hlook hbox
  obtain ⟨p, hp, k, l, hkl, -, hl⟩ := swapRows_pick hr
  obtain ⟨hi, hj, hmi, hmj⟩ := maySwap_of_pick ((pickSwaps_sound _ _ _).good p hp)
  have hheld : r.contno ∈ heldBoxes held := mem_heldBoxes.mpr ⟨yt, h, hlook, hbox⟩
  rcases hkl with ⟨-, rfl⟩ | ⟨-, rfl⟩
  · exact absurd hheld (hfree _ hj hmj _ hl)
  · exact absurd hheld (hfree _ hi hmi _ hl)

/-! ## The assignments -/

theorem driving_slots {inp : TickIn} {d : ℕ × ℤ} (h : d ∈ driving inp) :
    ∃ w, inp.works[d.1]? = some w ∧ d.2 ≤ max w.due.n 0 := by
  obtain ⟨e, he, hd, hle⟩ := mem_keepDue h
  have he := (List.perm_insertionSort _ _).mem_iff.mp he
  obtain ⟨⟨due, i⟩, hx, he⟩ := List.mem_filterMap.mp he
  split_ifs at he
  obtain ⟨base, -, he⟩ := Option.bind_eq_some_iff.mp he
  split_ifs at he
  obtain rfl := Option.some.inj he
  rw [List.mem_zipIdx_iff_getElem?, List.getElem?_map] at hx
  obtain ⟨w, hw, rfl⟩ := Option.map_eq_some_iff.mp hx
  refine ⟨w, by rw [← hd]; exact hw, ?_⟩
  have hlen := (List.takeWhile_sublist (fun j : ℕ => decide (base + j * moveS w.due * 1000 ≤ inp.nowMs + inp.poolMarginS * 1000))
    (l := List.range w.due.n.toNat)).length_le
  rw [List.length_range] at hlen
  simp only [dueSlots] at hle
  omega

theorem nodup_driving (inp : TickIn) : ((driving inp).map Prod.fst).Nodup := by
  refine List.Nodup.sublist (keepDue_sublist _ _ _) ?_
  exact ((List.perm_insertionSort _ _).map Prod.fst).nodup_iff.mpr (nodup_dueWorks _ _)

/-- The value of an entry of `filterMap` without doubles has one place. -/
theorem filterMap_inj {α β : Type*} {f : α → Option β} {l : List α} (h : (l.filterMap f).Nodup) {i j : ℕ} {b : β}
    (hi : l[i]?.bind f = some b) (hj : l[j]?.bind f = some b) : i = j := by
  induction l generalizing i j with
  | nil => simp at hi
  | cons a l ih =>
    have hmem : ∀ k : ℕ, l[k]?.bind f = some b → b ∈ l.filterMap f := by
      intro k hk
      obtain ⟨x, hx, hfx⟩ := Option.bind_eq_some_iff.mp hk
      exact List.mem_filterMap.mpr ⟨x, List.mem_of_getElem? hx, hfx⟩
    have hhead : f a = some b → b ∉ l.filterMap f := by
      intro ha
      rw [List.filterMap_cons, ha] at h
      exact (List.nodup_cons.mp h).1
    have htail : (l.filterMap f).Nodup := by
      exact List.Nodup.sublist ((List.sublist_cons_self a l).filterMap f) h
    cases i with
    | zero =>
      cases j with
      | zero => rfl
      | succ j => exact absurd (hmem j (by simpa using hj)) (hhead (by simpa using hi))
    | succ i =>
      cases j with
      | zero => exact absurd (hmem i (by simpa using hi)) (hhead (by simpa using hj))
      | succ j => exact congrArg Nat.succ (ih htail (by simpa using hi) (by simpa using hj))

theorem edges_inRange {inp : TickIn} {held : Held} (hcosts : CostsInRange inp) :
    ∀ e ∈ drivingEdges (workEdges inp held) (driving inp), 0 ≤ e.2.2 ∧ e.2.2 < FORBIDDEN_COST := by
  rintro ⟨t, w, c⟩ he
  obtain ⟨-, he⟩ := mem_drivingEdges.mp he
  obtain ⟨x, hx, hc⟩ := List.mem_filterMap.mp he
  simp only [Option.ite_none_right_eq_some, Bool.and_eq_true, Option.some.injEq, Prod.mk.injEq, decide_eq_true_eq] at hc
  obtain ⟨⟨⟨-, hremain⟩, hnear⟩, -, rfl⟩ := hc
  obtain ⟨r, hr⟩ := Option.isSome_iff_exists.mp hremain
  rw [hr, Option.getD_some]
  exact hcosts x hx r _ hr hnear

/-- **Where the work list names no box twice, the assignments give no box to two trucks.** -/
theorem distinct_assignRows {inp : TickIn} (held : Held) (hcosts : CostsInRange inp)
    (hboxes : (inp.works.filterMap WorkIn.contno).Nodup)
    (hslots : ∀ w ∈ inp.works, w.contno.isSome = true → w.due.n ≤ 1) : DistinctBoxes (assignRows inp held) := by
  intro r hr r' hr' hbox
  have hpair : ∀ r ∈ assignRows inp held, ∃ t w v, (t, w) ∈ stage2Assign inp.vehicles.length (slotAll (driving inp))
        (drivingEdges (workEdges inp held) (driving inp)) ∧ inp.vehicles[t]? = some v ∧ v.ytno = r.ytno ∧
      inp.works[((driving inp).getD w (0, 0)).1]?.bind WorkIn.contno = some r.contno := by
    intro r hr
    obtain ⟨tw, htw, he⟩ := List.mem_filterMap.mp hr
    obtain ⟨v, hv, he⟩ := Option.bind_eq_some_iff.mp he
    obtain ⟨c, hc, he⟩ := Option.bind_eq_some_iff.mp he
    split_ifs at he
    obtain rfl := Option.some.inj he
    exact ⟨tw.1, tw.2, v, htw, hv, rfl, hc⟩
  obtain ⟨t, w, v, htw, hv, hyt, hc⟩ := hpair r hr
  obtain ⟨t', w', v', htw', hv', hyt', hc'⟩ := hpair r' hr'
  have hlt : ∀ t w, (t, w) ∈ stage2Assign inp.vehicles.length (slotAll (driving inp))
      (drivingEdges (workEdges inp held) (driving inp)) → w < (driving inp).length := by
    intro t w htw
    obtain ⟨c, he⟩ := assignSlots_edge htw
    exact (mem_drivingEdges.mp he).1
  -- the same box is that of one work, and its bundle is one
  have hwork := filterMap_inj hboxes hc (hbox ▸ hc')
  have hbundle : w = w' := by
    have hlw : w < ((driving inp).map Prod.fst).length := by rw [List.length_map]; exact hlt t w htw
    have hlw' : w' < ((driving inp).map Prod.fst).length := by rw [List.length_map]; exact hlt t' w' htw'
    have heq : ((driving inp).map Prod.fst)[w] = ((driving inp).map Prod.fst)[w'] := by
      rw [List.getElem_map, List.getElem_map, ← List.getD_eq_getElem _ (0, 0), ← List.getD_eq_getElem _ (0, 0)]
      exact hwork
    exact (nodup_driving inp).getElem_inj_iff.mp heq
  subst hbundle
  have hone : (coveredSlots inp.vehicles.length (slotAll (driving inp))
      (drivingEdges (workEdges inp held) (driving inp))).count w ≤ 1 := by
    have hmem : (driving inp).getD w (0, 0) ∈ driving inp := by
      rw [List.getD_eq_getElem _ _ (hlt t w htw)]
      exact List.getElem_mem _
    obtain ⟨x, hx, hn⟩ := driving_slots hmem
    rw [hx] at hc
    have hx1 := hslots x (List.mem_of_getElem? hx) (by rw [show x.contno = some r.contno from hc]; rfl)
    have hcount := count_slotAll (driving inp) w
    have hkept := count_keptSlots_le (length_deadlineCover inp.vehicles.length (slotAll (driving inp))
      (drivingEdges (workEdges inp held) (driving inp))) w
    unfold coveredSlots
    omega
  obtain rfl := assignSlots_once (edges_inRange hcosts) hone htw htw'
  obtain rfl : v = v' := Option.some.inj (hv.symm.trans hv')
  exact hyt.symm.trans hyt'

/-! ## Stage by stage -/

/-- Every stage of the tick starts in a state in which its rows put no box on a second truck. -/
def ClearStages (uuid : ℕ → String) (holdSent : Bool) (inp : TickIn) (st : Loop) : Prop :=
  AtStages ((tickStages uuid holdSent inp).zip
    [fun _ => True,
      fun st => holdSent = true → st.restored = false →
        ∀ o ∈ youngRows inp st, ∀ o' ∈ youngRows inp st, o.contno = o'.contno → o.ytno = o'.ytno,
      fun _ => True,
      fun st => holdSent = true → inp.swapAt.isSome = true →
        DistinctBoxes (swapRows inp st.held) ∧ BoxesFree st.held (swapRows inp st.held),
      fun _ => True, fun _ => True, fun _ => True,
      fun st => holdSent = true → inp.assignAt.isSome = true → DistinctBoxes (assignRows inp st.held)]) st

theorem held_restored {inp : TickIn} {st : Loop} (hgo : (restoreStage true inp st).2 = true) :
    (lastState st (restoreStage true inp st).1).held = startHeld inp st := by
  rcases restoreStage_cases inp st with ⟨hst, h⟩ | ⟨-, h⟩ | ⟨held, closes, hst, hrestore, h⟩
  · rw [h, startHeld, if_pos hst]
    rfl
  · rw [h] at hgo
    exact absurd hgo (by decide)
  · rw [h, startHeld, hst, hrestore]
    rfl

/-- **A clear tick is clear at every stage.** -/
theorem clearStages {uuid : ℕ → String} {holdSent : Bool} {inp : TickIn} {st : Loop}
    (h : holdSent = true → ClearTick inp st) : ClearStages uuid holdSent inp st := by
  have hassign : ∀ held, holdSent = true → inp.assignAt.isSome = true → DistinctBoxes (assignRows inp held) := by
    intro held hsent hwritten
    obtain ⟨hboxes, hslots⟩ := (h hsent).works hwritten
    exact distinct_assignRows held ((h hsent).costs hwritten) hboxes hslots
  refine ⟨trivial, fun _ => ⟨fun hsent => (h hsent).rows, fun hgo => ⟨trivial, fun _ => ⟨?_, fun _ => ⟨trivial, fun _ =>
    ⟨trivial, fun _ => ⟨trivial, fun _ => ⟨hassign _, fun _ => trivial⟩⟩⟩⟩⟩⟩⟩⟩
  intro hsent hwritten
  subst hsent
  have hheld : (lastState st (restoreStage true inp st).1).held = startHeld inp st := held_restored hgo
  have hclear := h rfl
  show DistinctBoxes (swapRows inp (lastState st (restoreStage true inp st).1).held) ∧
    BoxesFree (lastState st (restoreStage true inp st).1).held (swapRows inp (lastState st (restoreStage true inp st).1).held)
  rw [hheld]
  exact ⟨distinct_swapRows (hclear.apart hwritten), free_swapRows (hclear.free hwritten)⟩

/-! ## The holds -/

theorem oneTruck_applyRows {sentMs : ℤ} {held : Held} {rows : List SentRow} {l : List (SentRow × String)}
    (hl : ∀ x ∈ l, x.1 ∈ rows) (hone : OneTruck held) (hdistinct : DistinctBoxes rows) (hfree : BoxesFree held rows) :
    OneTruck (l.foldl (applyRow sentMs) (held, [])).1 := by
  intro yt yt' h h' hlook hlook' hbox
  rcases lookup_applyRows l _ hlook with ⟨h1, -⟩ | ⟨x, hx, hxt, rfl⟩ <;>
    rcases lookup_applyRows l _ hlook' with ⟨h2, -⟩ | ⟨y, hy, hyt, rfl⟩
  · exact hone yt yt' h h' h1 h2 hbox
  · rw [← hyt]
    exact hfree y.1 (hl y hy) yt h h1 hbox
  · rw [← hxt]
    exact (hfree x.1 (hl x hx) yt' h' h2 hbox.symm).symm
  · rw [← hxt, ← hyt]
    exact hdistinct x.1 (hl x hx) y.1 (hl y hy) hbox

theorem oneTruck_sendRows {uuid : ℕ → String} {writtenAt : Option ℤ} {closeOk : Bool} {rows : List SentRow} {st : Loop}
    (hone : OneTruck st.held) (hclear : writtenAt.isSome = true → DistinctBoxes rows ∧ BoxesFree st.held rows) :
    ∀ x ∈ sendRows uuid writtenAt closeOk rows st, OneTruck x.2.held := by
  rcases sendRows_cases uuid writtenAt closeOk rows st with h | h | ⟨us, -, hsome, h⟩ <;> rw [h]
  · exact fun x hx => absurd hx List.not_mem_nil
  · simpa using hone
  · obtain ⟨hdistinct, hfree⟩ := hclear hsome
    have happlied : OneTruck (st.applied uuid rows us).1 :=
      oneTruck_applyRows (fun x hx => (List.of_mem_zip hx).1) hone hdistinct hfree
    simp only [List.mem_cons, List.not_mem_nil, or_false, forall_eq_or_imp, forall_eq, write_held, close_held]
    exact ⟨hone, happlied, happlied⟩

theorem oneTruck_restore {held : Held} {closes : List (String × String)} {rows : List OpenSent} {nowMs : ℤ}
    (h : restoreHolds (some rows) nowMs = some (held, closes))
    (hclear : ∀ o ∈ rows, ∀ o' ∈ rows, nowMs - o.sentMs ≤ RESTORE_MAX_AGE_MS → nowMs - o'.sentMs ≤ RESTORE_MAX_AGE_MS →
      o.contno = o'.contno → o.ytno = o'.ytno) : OneTruck held := by
  have hheld : held = ((rows.insertionSort restoreOrder).foldl (restoreRow nowMs) (∅, [])).1 :=
    (congrArg Prod.fst (Option.some.inj h)).symm
  have hwins : ∀ o, Wins nowMs (rows.insertionSort restoreOrder) o → o ∈ rows ∧ nowMs - o.sentMs ≤ RESTORE_MAX_AGE_MS := by
    rintro o ⟨front, back, heq, hyoung, -⟩
    have ho : o ∈ rows.insertionSort restoreOrder := by
      rw [heq]
      exact List.mem_append_right _ List.mem_cons_self
    exact ⟨(List.mem_insertionSort _).mp ho, hyoung⟩
  subst hheld
  intro yt yt' x x' hx hx' hbox
  obtain ⟨o, ho, rfl, rfl⟩ := (lookup_restoreRows nowMs _ yt x).mp hx
  obtain ⟨o', ho', rfl, rfl⟩ := (lookup_restoreRows nowMs _ yt' x').mp hx'
  exact hclear o (hwins o ho).1 o' (hwins o' ho').1 (hwins o ho).2 (hwins o' ho').2 hbox

theorem oneTruck_empty : OneTruck ∅ := fun yt _ h _ hl => by simp at hl

/-- **A tick that is clear at every stage keeps every box on one truck**, after every one of its effects. -/
theorem clearStages_oneTruck {uuid : ℕ → String} {holdSent : Bool} {inp : TickIn} {st : Loop} (hone : OneTruck st.held)
    (hclear : ClearStages uuid holdSent inp st) : ∀ x ∈ tick uuid holdSent inp st, OneTruck x.2.held := by
  have hstages := runStages_inv_at (P := fun st : Loop => OneTruck st.held) ?_ hone hclear
  · exact hstages
  · simp only [tickStages, List.zip_cons_cons, List.zip_nil_right, List.mem_cons, List.not_mem_nil, or_false,
      forall_eq_or_imp, forall_eq]
    refine ⟨fun _ _ _ x hx => absurd hx List.not_mem_nil, fun st hone hc => ?_,
      fun _ _ _ x hx => absurd hx List.not_mem_nil, fun st hone hc => ?_, fun st hone _ => ?_,
      fun _ _ _ x hx => absurd hx List.not_mem_nil, fun st hone _ => ?_, fun st hone hc => ?_⟩
    · cases holdSent with
      | true =>
        rcases restoreStage_cases inp st with ⟨-, h⟩ | ⟨-, h⟩ | ⟨held, closes, hst, hrestore, h⟩ <;> rw [h]
        · exact fun x hx => absurd hx List.not_mem_nil
        · exact fun x hx => absurd hx List.not_mem_nil
        · have hheld := oneTruck_restore hrestore fun o ho o' ho' hyoung hyoung' =>
            hc rfl hst o (List.mem_filter.mpr ⟨ho, by simpa using hyoung⟩) o' (List.mem_filter.mpr ⟨ho', by simpa using hyoung'⟩)
          simp only [List.mem_cons, List.not_mem_nil, or_false, forall_eq_or_imp, forall_eq, close_held]
          exact ⟨hone, hheld⟩
      | false =>
        have hcancel : OneTruck (if !st.restored && inp.openOk then
            { st with table := st.table.map cancel, restored := true } else st).held := by
          split_ifs <;> exact hone
        simp only [restoreStage, Bool.false_eq_true, if_false, List.mem_cons, List.not_mem_nil, or_false,
          forall_eq_or_imp, forall_eq]
        exact ⟨hcancel, oneTruck_empty⟩
    · unfold swapStage
      cases holdSent with
      | true => exact oneTruck_sendRows hone (hc rfl)
      | false => exact fun x hx => absurd hx List.not_mem_nil
    · rcases pruneStage_cases inp st with h | ⟨us, -, h⟩ <;> rw [h]
      · exact fun x hx => absurd hx List.not_mem_nil
      · simpa using hone
    · unfold releaseStage
      cases holdSent with
      | true =>
        have hreleased : ∀ asOf listed busy, OneTruck (releaseHeld st.held asOf listed busy).1 :=
          fun asOf listed busy yt yt' h h' hl hl' =>
            hone yt yt' h h' (lookup_releaseHeld.mp hl).1 (lookup_releaseHeld.mp hl').1
        simp only [if_true, List.mem_cons, List.not_mem_nil, or_false, forall_eq_or_imp, forall_eq, close_held]
        exact ⟨hreleased _ _ _, hreleased _ _ _⟩
      | false => exact fun x hx => absurd hx List.not_mem_nil
    · unfold assignStage
      cases holdSent with
      | true =>
        refine oneTruck_sendRows hone fun hsome => ⟨hc rfl hsome, fun r hr yt h hl hbox => ?_⟩
        -- the edges leave out the held boxes
        exact absurd hbox ((assignRows_allowed hr).2.2 yt h hl)
      | false => exact fun x hx => absurd hx List.not_mem_nil

/-- **In every run of clear ticks, with crashes anywhere, every box is held for one truck**: in the states in which a
tick starts, and after every effect of the next clear tick. -/
theorem one_truck_per_box (uuid : ℕ → String) {st : Loop}
    (h : Reached (fun i : Bool × TickIn => tick uuid i.1 i.2) (fun i st => i.1 = true → ClearTick i.2 st) Loop.restart
      freshLoop st) :
    OneTruck st.held ∧ ∀ holdSent inp, (holdSent = true → ClearTick inp st) →
      ∀ x ∈ tick uuid holdSent inp st, OneTruck x.2.held := by
  have hone : OneTruck st.held := h.inv (P := fun st => OneTruck st.held) oneTruck_empty
    (fun i st hone hclear => clearStages_oneTruck hone (clearStages hclear)) fun _ _ => oneTruck_empty
  exact ⟨hone, fun holdSent inp hclear => clearStages_oneTruck hone (clearStages hclear)⟩

/-- `TT1` is on its way to box `D` and `TT2` to box `C`, each close to the box of the other; the swap is written at
`us`. -/
def swapTick (nowMs us : ℤ) : TickIn :=
  { idleTick with
    nowMs := nowMs
    sigs := some (AList.insert "TT1" ⟨some 1, some 2, none, none, none⟩
      (AList.insert "TT2" ⟨some 1, some 2, none, none, none⟩ ∅))
    redir := AList.insert "TT1" (some "D") (AList.insert "TT2" (some "C") ∅)
    trip := fun i j => if i = j then (600, 900) else (10, 20)
    need := fun _ => some 3600000
    swapAt := some us }

theorem clearTick_assign (yt box : String) (nowMs us : ℤ) : ClearTick (assignTick yt box nowMs us) freshLoop := by
  refine ⟨fun _ o ho => ?_, fun hswap => ?_, fun hswap => ?_, fun _ => ?_, fun _ => ?_⟩
  · exact absurd ho (by simp [youngRows, loadOpenSent, freshLoop])
  · exact absurd hswap Bool.false_ne_true
  · exact absurd hswap Bool.false_ne_true
  · simp [assignTick]
  · rintro x hx r oi hr -
    obtain rfl : x = (⟨yt, true, some 0⟩, 0) := by simpa [assignTick] using hx
    obtain rfl : 0 = r := Option.some.inj hr
    show (0 : ℤ) ≤ 0 + 0 + 0 ∧ (0 : ℤ) + 0 + 0 < FORBIDDEN_COST
    decide

/-- `TT3` is held with box `E`; the boxes of `TT1` and `TT2` change places. -/
theorem one_truck_per_box_swap :
    (swapRows (swapTick 1500 1500000)
        (lastState freshLoop (tick letters true (assignTick "TT3" "E" 0 1000000) freshLoop)).held).length = 2 ∧
      ∀ x ∈ tick letters true (swapTick 1500 1500000)
        (lastState freshLoop (tick letters true (assignTick "TT3" "E" 0 1000000) freshLoop)), OneTruck x.2.held := by
  refine ⟨by decide, (one_truck_per_box letters (Reached.step (true, assignTick "TT3" "E" 0 1000000) Reached.init fun _ =>
    clearTick_assign _ _ _ _)).2 true _ fun _ => ?_⟩
  exact ⟨by decide, fun _ => by decide, fun _ => by decide, fun h => absurd h (by decide), fun h => absurd h (by decide)⟩

/-- The swap step does not look at the held boxes: `TT3` is held with box `C`, and a swap gives `C` to `TT1`. -/
theorem swap_gives_held_box :
    ((lastState freshLoop
        (runTicks letters true [assignTick "TT3" "C" 0 1000000, swapTick 1500 1500000] freshLoop)).held.lookup
          "TT3").map Hold.contno = some "C" ∧
      ((lastState freshLoop
        (runTicks letters true [assignTick "TT3" "C" 0 1000000, swapTick 1500 1500000] freshLoop)).held.lookup
          "TT1").map Hold.contno = some "C" := by
  decide

end TtAiops.Dispatch
