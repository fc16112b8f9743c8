import Mathlib
import TtAiops.Lib.Transversal

/-!
# The deadline-order cover (`deadline_cover`)

Slots are looked at in the given order; a slot is covered when Kuhn's search finds a truck for it, moving slots that
are covered already to other trucks where needed.

* `adjOf` : the trucks listed for every work bundle;
* `Search`, `tryTrucks`, `trySlot` : the search from one slot, with its table of trucks and its `seen` marks;
* `deadlineCover` : the covered flag of every slot;
* `trySlot_sound`, `trySlot_complete` : a search that succeeds serves one slot more and drops none; a search that fails
  leaves the table as it was and ends with a set of trucks that is closed under the moves;
* `deadlineCover_greedy` : the covered slots are the greedy cover, in slot order, of the trucks' edges.
-/

namespace TtAiops.Stage2
open TtAiops.Lib

/-- An edge of the matching problem: truck, work bundle, cost. -/
abbrev Edge := ℕ × ℕ × ℤ

/-- `n_w`: one more than the largest bundle number of a slot. -/
def bundleCount (slotWpos : List ℕ) : ℕ := slotWpos.foldl (fun m w => max m (w + 1)) 0

/-- The body of the loop over `edges` that fills `adj`. -/
def adjStep (nTrucks nW : ℕ) (adj : ℕ → List ℕ) (e : Edge) : ℕ → List ℕ :=
  if e.1 < nTrucks ∧ e.2.1 < nW ∧ e.1 ∉ adj e.2.1 then Function.update adj e.2.1 (adj e.2.1 ++ [e.1]) else adj

/-- `adj`: the trucks of every bundle, each once, in the order of the edges. -/
def adjOf (nTrucks : ℕ) (slotWpos : List ℕ) (edges : List Edge) : ℕ → List ℕ :=
  edges.foldl (adjStep nTrucks (bundleCount slotWpos)) (fun _ => [])

/-- What `try_slot` reads and writes: the slot every truck has now, and the trucks already looked at. -/
structure Search where
  truckSlot : ℕ → Option ℕ
  seen : ℕ → Bool

def Search.see (st : Search) (t : ℕ) : Search := { st with seen := Function.update st.seen t true }

def Search.give (st : Search) (t s : ℕ) : Search := { st with truckSlot := Function.update st.truckSlot t (some s) }

/-- The loop of `try_slot` over the trucks of slot `s`; `again` is the recursive call. -/
def tryTrucks (again : ℕ → Search → Bool × Search) (s : ℕ) : List ℕ → Search → Bool × Search
  | [], st => (false, st)
  | t :: ts, st =>
    if st.seen t then tryTrucks again s ts st
    else
      match st.truckSlot t with
      | none => (true, (st.see t).give t s)
      | some other =>
        match again other (st.see t) with
        | (true, st') => (true, st'.give t s)
        | (false, st') => tryTrucks again s ts st'

/-- `try_slot`. A call marks a truck that was not seen before it calls itself, so `fuel` above the number of trucks
not yet seen is never used up. -/
def trySlot (cand : ℕ → List ℕ) : ℕ → ℕ → Search → Bool × Search
  | 0, _, st => (false, st)
  | fuel + 1, s, st => tryTrucks (trySlot cand fuel) s (cand s) st

/-- The trucks `try_slot` goes through for slot `s`: `adj[slot_wpos[s]]`. -/
def candOf (nTrucks : ℕ) (slotWpos : List ℕ) (edges : List Edge) (s : ℕ) : List ℕ :=
  adjOf nTrucks slotWpos edges (slotWpos.getD s 0)

def coverStep (cand : ℕ → List ℕ) (nTrucks : ℕ) (acc : (ℕ → Option ℕ) × List Bool) (s : ℕ) :
    (ℕ → Option ℕ) × List Bool :=
  let r := trySlot cand (nTrucks + 1) s ⟨acc.1, fun _ => false⟩
  (r.2.truckSlot, acc.2 ++ [r.1])

def coverRun (cand : ℕ → List ℕ) (nTrucks k : ℕ) : (ℕ → Option ℕ) × List Bool :=
  (List.range k).foldl (coverStep cand nTrucks) (fun _ => none, [])

/-- `deadline_cover`: the covered flag of every slot, in slot order. -/
def deadlineCover (nTrucks : ℕ) (slotWpos : List ℕ) (edges : List Edge) : List Bool :=
  (coverRun (candOf nTrucks slotWpos edges) nTrucks slotWpos.length).2

/-! ## The trucks of a bundle -/

theorem lt_bundleCount {slotWpos : List ℕ} {w : ℕ} (hw : w ∈ slotWpos) : w < bundleCount slotWpos := by
  have key : ∀ (l : List ℕ) (m : ℕ), m ≤ l.foldl (fun m w => max m (w + 1)) m ∧
      ∀ w ∈ l, w < l.foldl (fun m w => max m (w + 1)) m := by
    intro l
    induction l with
    | nil => simp
    | cons x l ih =>
      intro m
      simp only [List.foldl_cons, List.mem_cons, forall_eq_or_imp]
      obtain ⟨h1, h2⟩ := ih (max m (x + 1))
      exact ⟨by omega, by omega, h2⟩
  exact (key slotWpos 0).2 w hw

theorem mem_adjStep {nTrucks nW : ℕ} {adj : ℕ → List ℕ} {e : Edge} {t w : ℕ} :
    t ∈ adjStep nTrucks nW adj e w ↔ t ∈ adj w ∨ (e.1 = t ∧ e.2.1 = w ∧ t < nTrucks ∧ w < nW) := by
  unfold adjStep
  by_cases hc : e.1 < nTrucks ∧ e.2.1 < nW ∧ e.1 ∉ adj e.2.1
  · rw [if_pos hc]
    by_cases hw : w = e.2.1
    · subst hw
      rw [Function.update_self, List.mem_append, List.mem_singleton]
      constructor
      · rintro (h | rfl)
        · exact Or.inl h
        · exact Or.inr ⟨rfl, rfl, hc.1, hc.2.1⟩
      · rintro (h | ⟨rfl, -⟩)
        · exact Or.inl h
        · exact Or.inr rfl
    · rw [Function.update_of_ne hw]
      exact ⟨Or.inl, fun h => h.resolve_right fun h' => hw h'.2.1.symm⟩
  · rw [if_neg hc]
    refine ⟨Or.inl, ?_⟩
    rintro (h | ⟨rfl, rfl, ht, hw⟩)
    · exact h
    · by_contra hmem
      exact hc ⟨ht, hw, hmem⟩

/-- `adj[w]` lists the trucks in range that have an edge to bundle `w`. -/
theorem mem_adjOf {nTrucks : ℕ} {slotWpos : List ℕ} {edges : List Edge} {t w : ℕ} :
    t ∈ adjOf nTrucks slotWpos edges w ↔
      t < nTrucks ∧ w < bundleCount slotWpos ∧ ∃ c, (t, w, c) ∈ edges := by
  have key : ∀ (l : List Edge) (adj : ℕ → List ℕ),
      t ∈ l.foldl (adjStep nTrucks (bundleCount slotWpos)) adj w ↔
        t ∈ adj w ∨ (t < nTrucks ∧ w < bundleCount slotWpos ∧ ∃ c, (t, w, c) ∈ l) := by
    intro l
    induction l with
    | nil => simp
    | cons e l ih =>
      obtain ⟨t', w', c'⟩ := e
      intro adj
      rw [List.foldl_cons, ih, mem_adjStep]
      simp only [List.mem_cons, Prod.mk.injEq]
      constructor
      · rintro ((h | ⟨rfl, rfl, ht, hw⟩) | ⟨ht, hw, c, hc⟩)
        · exact Or.inl h
        · exact Or.inr ⟨ht, hw, c', Or.inl ⟨rfl, rfl, rfl⟩⟩
        · exact Or.inr ⟨ht, hw, c, Or.inr hc⟩
      · rintro (h | ⟨ht, hw, c, ⟨rfl, rfl, rfl⟩ | hc⟩)
        · exact Or.inl (Or.inl h)
        · exact Or.inl (Or.inr ⟨rfl, rfl, ht, hw⟩)
        · exact Or.inr ⟨ht, hw, c, hc⟩
  have := key edges (fun _ => [])
  simpa [adjOf] using this

/-- A truck in range can take slot `s` when it has an edge to the slot's bundle. -/
def CanTake (nTrucks : ℕ) (slotWpos : List ℕ) (edges : List Edge) (s t : ℕ) : Prop :=
  t < nTrucks ∧ ∃ c, (t, slotWpos.getD s 0, c) ∈ edges

theorem mem_candOf {nTrucks : ℕ} {slotWpos : List ℕ} {edges : List Edge} {s t : ℕ} (hs : s < slotWpos.length) :
    t ∈ candOf nTrucks slotWpos edges s ↔ CanTake nTrucks slotWpos edges s t := by
  have hw : slotWpos.getD s 0 < bundleCount slotWpos := by
    rw [List.getD_eq_getElem _ _ hs]
    exact lt_bundleCount (List.getElem_mem hs)
  rw [candOf, mem_adjOf, CanTake]
  exact ⟨fun h => ⟨h.1, h.2.2⟩, fun h => ⟨h.1, hw, h.2⟩⟩

/-! ## The search from one slot -/

/-- The trucks below `n` that have slot `r`. -/
def holders (n : ℕ) (truckSlot : ℕ → Option ℕ) (r : ℕ) : Finset ℕ :=
  (Finset.range n).filter (fun t => truckSlot t = some r)

def unseen (n : ℕ) (seen : ℕ → Bool) : ℕ := ((Finset.range n).filter (fun t => seen t = false)).card

@[simp] theorem see_truckSlot (st : Search) (t : ℕ) : (st.see t).truckSlot = st.truckSlot := rfl
@[simp] theorem give_truckSlot (st : Search) (t s : ℕ) :
    (st.give t s).truckSlot = Function.update st.truckSlot t (some s) := rfl

theorem see_seen_of (st : Search) (t : ℕ) {t' : ℕ} (h : st.seen t' = true) : (st.see t).seen t' = true := by
  by_cases ht : t' = t
  · subst ht; exact Function.update_self ..
  · exact (Function.update_of_ne ht ..).trans h

theorem see_seen_self (st : Search) (t : ℕ) : (st.see t).seen t = true := Function.update_self ..

theorem seen_of_see (st : Search) (t : ℕ) {t' : ℕ} (h : (st.see t).seen t' = true) (hne : t' ≠ t) :
    st.seen t' = true :=
  (Function.update_of_ne hne ..).symm.trans h

theorem unseen_see_lt {n : ℕ} {st : Search} {t : ℕ} (ht : t < n) (h : st.seen t ≠ true) :
    unseen n (st.see t).seen < unseen n st.seen := by
  apply Finset.card_lt_card
  rw [Finset.ssubset_iff_of_subset]
  · refine ⟨t, by simpa [ht] using h, ?_⟩
    simp [see_seen_self]
  · intro x hx
    simp only [Finset.mem_filter, Finset.mem_range] at hx ⊢
    refine ⟨hx.1, ?_⟩
    by_contra hs
    rw [see_seen_of st t (by simpa using hs)] at hx
    exact absurd hx.2 (by decide)

theorem unseen_le_of_mono {n : ℕ} {a b : ℕ → Bool} (h : ∀ t, a t = true → b t = true) : unseen n b ≤ unseen n a := by
  apply Finset.card_le_card
  intro x hx
  simp only [Finset.mem_filter, Finset.mem_range] at hx ⊢
  refine ⟨hx.1, ?_⟩
  by_contra hs
  rw [h x (by simpa using hs)] at hx
  exact absurd hx.2 (by decide)

theorem card_holders_update {n : ℕ} (m : ℕ → Option ℕ) {t : ℕ} (ht : t < n) (s r : ℕ) :
    (holders n (Function.update m t (some s)) r).card + (if m t = some r then 1 else 0) =
      (holders n m r).card + (if r = s then 1 else 0) := by
  have hrest : (holders n (Function.update m t (some s)) r).erase t = (holders n m r).erase t := by
    ext x
    simp only [holders, Finset.mem_erase, Finset.mem_filter, Finset.mem_range]
    constructor
    · rintro ⟨hx, hn, h⟩
      rw [Function.update_of_ne hx] at h
      exact ⟨hx, hn, h⟩
    · rintro ⟨hx, hn, h⟩
      rw [Function.update_of_ne hx]
      exact ⟨hx, hn, h⟩
  have hsplit : ∀ m' : ℕ → Option ℕ,
      (holders n m' r).card = ((holders n m' r).erase t).card + (if m' t = some r then 1 else 0) := by
    intro m'
    by_cases h : m' t = some r
    · have hmem : t ∈ holders n m' r := by simp [holders, ht, h]
      rw [if_pos h, Finset.card_erase_of_mem hmem]
      have := Finset.card_pos.mpr ⟨t, hmem⟩
      omega
    · rw [if_neg h, Finset.erase_eq_of_notMem (by simp [holders, h])]
      omega
  rw [hsplit (Function.update m t (some s)), hsplit m, hrest, Function.update_self]
  simp only [Option.some.injEq, eq_comm (a := s)]
  omega

section Search

variable (cand : ℕ → List ℕ) (n : ℕ)

/-- Every truck has a slot it may take. -/
def Along (m : ℕ → Option ℕ) : Prop := ∀ t r, m t = some r → t ∈ cand r

/-- A search from `s` that found a truck: one holder more for `s`, as many as before for every other slot, and the
trucks seen before the search untouched. -/
structure Found (s : ℕ) (st st' : Search) : Prop where
  along : Along cand st.truckSlot → Along cand st'.truckSlot
  kept : ∀ t, st.seen t = true → st'.truckSlot t = st.truckSlot t
  count : ∀ r, (holders n st'.truckSlot r).card = (holders n st.truckSlot r).card + if r = s then 1 else 0

/-- A search that found nothing has only marked trucks. -/
structure OnlySeen (st st' : Search) : Prop where
  same : st'.truckSlot = st.truckSlot
  mono : ∀ t, st.seen t = true → st'.seen t = true

/-- A failed search over the trucks `ts`: all of them are seen, and every truck it marked has a slot all of whose
trucks are seen. -/
structure Closed (ts : List ℕ) (st st' : Search) : Prop where
  all : ∀ t ∈ ts, st'.seen t = true
  closed : ∀ t, st'.seen t = true → st.seen t = true ∨
    ∃ r, st.truckSlot t = some r ∧ t < n ∧ ∀ t' ∈ cand r, st'.seen t' = true

def Sound (again : ℕ → Search → Bool × Search) : Prop :=
  ∀ s st, ((again s st).1 = true → Found cand n s st (again s st).2) ∧
    ((again s st).1 = false → OnlySeen st (again s st).2)

def Complete (again : ℕ → Search → Bool × Search) (fuel : ℕ) : Prop :=
  ∀ s st, unseen n st.seen < fuel → (again s st).1 = false → Closed cand n (cand s) st (again s st).2

variable {cand n}

theorem OnlySeen.trans {a b c : Search} (h : OnlySeen a b) (h' : OnlySeen b c) : OnlySeen a c :=
  ⟨h'.same.trans h.same, fun t ht => h'.mono t (h.mono t ht)⟩

theorem onlySeen_see (st : Search) (t : ℕ) : OnlySeen st (st.see t) := ⟨rfl, fun _ h => see_seen_of st t h⟩

theorem OnlySeen.found {s : ℕ} {a b c : Search} (h : OnlySeen a b) (h' : Found cand n s b c) : Found cand n s a c where
  along ha := h'.along (by rw [h.same]; exact ha)
  kept t ht := by rw [h'.kept t (h.mono t ht), h.same]
  count r := by rw [h'.count r, h.same]

theorem along_give {s t : ℕ} {st : Search} (ha : Along cand st.truckSlot) (hc : t ∈ cand s) :
    Along cand (st.give t s).truckSlot := by
  intro x r hx
  rw [give_truckSlot] at hx
  by_cases hxt : x = t
  · subst hxt
    rw [Function.update_self] at hx
    cases hx
    exact hc
  · rw [Function.update_of_ne hxt] at hx
    exact ha x r hx

theorem found_free {s t : ℕ} {st : Search} (ht : t < n) (hc : t ∈ cand s) (hu : st.seen t ≠ true)
    (hfree : st.truckSlot t = none) : Found cand n s st ((st.see t).give t s) where
  along ha := along_give ha hc
  kept x hx := by
    have hxt : x ≠ t := by rintro rfl; exact hu hx
    exact Function.update_of_ne hxt ..
  count r := by
    have := card_holders_update (n := n) st.truckSlot ht s r
    rw [hfree, if_neg (by simp)] at this
    exact this

theorem found_moved {s t other : ℕ} {st st' : Search} (ht : t < n) (hc : t ∈ cand s) (hu : st.seen t ≠ true)
    (hhas : st.truckSlot t = some other) (h : Found cand n other (st.see t) st') :
    Found cand n s st (st'.give t s) where
  along ha := along_give (h.along ha) hc
  kept x hx := by
    have hxt : x ≠ t := by rintro rfl; exact hu hx
    exact (Function.update_of_ne hxt ..).trans (h.kept x (see_seen_of st t hx))
  count r := by
    have hstill : st'.truckSlot t = some other := by rw [h.kept t (see_seen_self st t)]; exact hhas
    have hup := card_holders_update (n := n) st'.truckSlot ht s r
    have hcount := h.count r
    rw [hstill] at hup
    simp only [see_truckSlot, Option.some.injEq, eq_comm (a := other)] at hup hcount
    change (holders n (Function.update st'.truckSlot t (some s)) r).card = _
    omega

theorem tryTrucks_sound {again : ℕ → Search → Bool × Search} (hagain : Sound cand n again) {s : ℕ} :
    ∀ (ts : List ℕ), (∀ t ∈ ts, t ∈ cand s ∧ t < n) → ∀ st,
      ((tryTrucks again s ts st).1 = true → Found cand n s st (tryTrucks again s ts st).2) ∧
        ((tryTrucks again s ts st).1 = false → OnlySeen st (tryTrucks again s ts st).2) := by
  intro ts
  induction ts with
  | nil => exact fun _ st => ⟨fun h => absurd h (by simp [tryTrucks]), fun _ => ⟨rfl, fun _ h => h⟩⟩
  | cons t ts ih =>
    intro hts st
    obtain ⟨⟨hc, ht⟩, hts⟩ := List.forall_mem_cons.mp hts
    unfold tryTrucks
    split
    · exact ih hts st
    · rename_i hu
      split
      · rename_i hfree
        exact ⟨fun _ => found_free ht hc hu hfree, fun h => absurd h (by simp)⟩
      · rename_i other hhas
        obtain ⟨hok, hno⟩ := hagain other (st.see t)
        split
        · rename_i st' hr
          rw [hr] at hok
          exact ⟨fun _ => found_moved ht hc hu hhas (hok rfl), fun h => absurd h (by simp)⟩
        · rename_i st' hr
          rw [hr] at hno
          have hstep := (onlySeen_see st t).trans (hno rfl)
          exact ⟨fun h => hstep.found ((ih hts st').1 h), fun h => hstep.trans ((ih hts st').2 h)⟩

theorem trySlot_sound (hcand : ∀ s, ∀ t ∈ cand s, t < n) : ∀ fuel, Sound cand n (trySlot cand fuel) := by
  intro fuel
  induction fuel with
  | zero => exact fun s st => ⟨fun h => absurd h (by simp [trySlot]), fun _ => ⟨rfl, fun _ h => h⟩⟩
  | succ fuel ih => exact fun s st => tryTrucks_sound ih (cand s) (fun t ht => ⟨ht, hcand s t ht⟩) st

theorem tryTrucks_complete {again : ℕ → Search → Bool × Search} {fuel : ℕ} (hagain : Sound cand n again)
    (hcomp : Complete cand n again fuel) {s : ℕ} :
    ∀ (ts : List ℕ), (∀ t ∈ ts, t ∈ cand s ∧ t < n) → ∀ st, unseen n st.seen < fuel + 1 →
      (tryTrucks again s ts st).1 = false → Closed cand n ts st (tryTrucks again s ts st).2 := by
  intro ts
  induction ts with
  | nil => exact fun _ st _ _ => ⟨by simp, fun _ h => Or.inl h⟩
  | cons t ts ih =>
    intro hts st hfuel hfail
    have hts' := (List.forall_mem_cons.mp hts).2
    have ht := (List.forall_mem_cons.mp hts).1.2
    unfold tryTrucks at hfail ⊢
    split
    · rename_i hseen
      rw [if_pos hseen] at hfail
      have hrest := ih hts' st hfuel hfail
      refine ⟨List.forall_mem_cons.mpr ⟨?_, hrest.all⟩, hrest.closed⟩
      exact ((tryTrucks_sound hagain ts hts' st).2 hfail).mono t hseen
    · rename_i hu
      rw [if_neg hu] at hfail
      split at hfail
      · simp at hfail
      · rename_i other hhas
        split at hfail
        · simp at hfail
        · rename_i st' hr
          have hlt := unseen_see_lt ht hu
          have hno := (hagain other (st.see t)).2 (by rw [hr])
          have hcl := hcomp other (st.see t) (by omega) (by rw [hr])
          rw [hr] at hno hcl
          have hle : unseen n st'.seen ≤ unseen n (st.see t).seen := unseen_le_of_mono hno.mono
          have hrest := ih hts' st' (by omega) hfail
          have hmono := ((tryTrucks_sound hagain ts hts' st').2 hfail).mono
          refine ⟨List.forall_mem_cons.mpr ⟨hmono t (hno.mono t (see_seen_self st t)), hrest.all⟩, ?_⟩
          intro x hx
          -- a truck marked by the rest, by the call for `other`, or `t` itself
          rcases hrest.closed x hx with hx | ⟨r, hr', hxn, hall⟩
          · rcases hcl.closed x hx with hx | ⟨r, hr', hxn, hall⟩
            · by_cases hxt : x = t
              · subst hxt
                exact Or.inr ⟨other, hhas, ht, fun t' ht' => hmono t' (hcl.all t' ht')⟩
              · exact Or.inl (seen_of_see st t hx hxt)
            · exact Or.inr ⟨r, hr', hxn, fun t' ht' => hmono t' (hall t' ht')⟩
          · exact Or.inr ⟨r, by rw [hno.same] at hr'; exact hr', hxn, hall⟩

theorem trySlot_complete (hcand : ∀ s, ∀ t ∈ cand s, t < n) : ∀ fuel, Complete cand n (trySlot cand fuel) fuel := by
  intro fuel
  induction fuel with
  | zero => exact fun s st h => absurd h (Nat.not_lt_zero _)
  | succ fuel ih =>
    exact fun s st h hfail =>
      tryTrucks_complete (trySlot_sound hcand fuel) ih (cand s) (fun t ht => ⟨ht, hcand s t ht⟩) st h hfail

/-- Slots that each have a truck in the table can be served at once. -/
theorem servable_of_holders {m : ℕ → Option ℕ} (ha : Along cand m) {A : Set ℕ}
    (hA : ∀ r ∈ A, (holders n m r).card ≠ 0) : Servable (fun s t => t ∈ cand s) A := by
  have hne : ∀ r, ∃ t, r ∈ A → m t = some r := by
    intro r
    by_cases hr : r ∈ A
    · obtain ⟨t, ht⟩ := Finset.card_ne_zero.mp (hA r hr)
      exact ⟨t, fun _ => (Finset.mem_filter.mp ht).2⟩
    · exact ⟨0, fun h => absurd h hr⟩
  choose pick hpick using hne
  refine ⟨pick, fun r hr r' hr' heq => ?_, fun r hr => ha _ _ (hpick r hr)⟩
  have := hpick r' hr'
  rw [← heq, hpick r hr] at this
  exact Option.some.inj this

/-- A truck of a closed set is held, and with its slot all trucks that this one can take are in the set. -/
theorem Closed.slot {m : ℕ → Option ℕ} {s : ℕ} {st' : Search} (hcl : Closed cand n (cand s) ⟨m, fun _ => false⟩ st')
    {t : ℕ} (ht : st'.seen t = true) : ∃ r, m t = some r ∧ t < n ∧ ∀ t' ∈ cand r, st'.seen t' = true := by
  rcases hcl.closed t ht with h | h
  · exact absurd h (by simp)
  · exact h

theorem mem_slots {m : ℕ → Option ℕ} {marked : Finset ℕ} (hheld : ∀ t ∈ marked, (m t).isSome) {r : ℕ} :
    r ∈ marked.image (fun t => (m t).getD 0) ↔ ∃ t ∈ marked, m t = some r := by
  rw [Finset.mem_image]
  refine exists_congr fun t => and_congr_right fun ht => ?_
  obtain ⟨r', hr'⟩ := Option.isSome_iff_exists.mp (hheld t ht)
  rw [hr', Option.getD_some, Option.some_inj]

/-- The slots of a closed set of trucks, with the slot searched for, are one more than the trucks they can take. -/
theorem not_servable_of_closed {m : ℕ → Option ℕ} {s : ℕ} {st' : Search} {A : Set ℕ}
    (hone : ∀ r, (holders n m r).card ≤ 1) (hs : (holders n m s).card = 0)
    (hcl : Closed cand n (cand s) ⟨m, fun _ => false⟩ st') (hsub : ∀ t r, t < n → m t = some r → r ∈ A)
    (hsA : s ∈ A) : ¬ Servable (fun s t => t ∈ cand s) A := by
  classical
  set marked := (Finset.range n).filter (fun t => st'.seen t = true) with hmarked
  have hmem : ∀ t, t ∈ marked ↔ t < n ∧ st'.seen t = true := fun t => by simp [hmarked]
  have hheld : ∀ t ∈ marked, (m t).isSome := by
    intro t ht
    obtain ⟨r, hr, -⟩ := hcl.slot ((hmem t).mp ht).2
    rw [hr]
    rfl
  set slots := marked.image (fun t => (m t).getD 0) with hslots
  have hinj : Set.InjOn (fun t => (m t).getD 0) marked := by
    intro t ht t' ht' heq
    obtain ⟨r, hr⟩ := Option.isSome_iff_exists.mp (hheld t ht)
    obtain ⟨r', hr'⟩ := Option.isSome_iff_exists.mp (hheld t' ht')
    simp only [hr, hr', Option.getD_some] at heq
    subst heq
    exact Finset.card_le_one.mp (hone r) t (by simp [holders, hr, ((hmem t).mp ht).1]) t'
      (by simp [holders, hr', ((hmem t').mp ht').1])
  have hsnot : s ∉ slots := by
    intro hin
    obtain ⟨t, ht, hts⟩ := (mem_slots hheld).mp hin
    have hholds : t ∈ holders n m s := by simp [holders, hts, ((hmem t).mp ht).1]
    rw [Finset.card_eq_zero.mp hs] at hholds
    exact absurd hholds (Finset.notMem_empty t)
  refine not_servable_of_few (R := insert s slots) (N := marked) ?_ ?_ ?_
  · intro r hr t ht
    have hseen : st'.seen t = true := by
      rcases Finset.mem_insert.mp hr with rfl | hr
      · exact hcl.all t ht
      · obtain ⟨u, hu, hur⟩ := (mem_slots hheld).mp hr
        obtain ⟨r', hr', -, hall⟩ := hcl.slot ((hmem u).mp hu).2
        obtain rfl := Option.some.inj (hur.symm.trans hr')
        exact hall t ht
    obtain ⟨-, -, htn, -⟩ := hcl.slot hseen
    exact (hmem t).mpr ⟨htn, hseen⟩
  · rw [Finset.card_insert_of_notMem hsnot, Finset.card_image_of_injOn hinj]
    omega
  · intro r hr
    rcases Finset.mem_insert.mp hr with rfl | hr
    · exact hsA
    · obtain ⟨t, ht, htr⟩ := (mem_slots hheld).mp hr
      exact hsub t r ((hmem t).mp ht).1 htr

/-! ## The loop over the slots -/

/-- After `k` slots: the covered slots have one truck each, the others none, and they are the greedy cover. -/
structure CoverInv (cand : ℕ → List ℕ) (n k : ℕ) (acc : (ℕ → Option ℕ) × List Bool) : Prop where
  length : acc.2.length = k
  along : Along cand acc.1
  count : ∀ r, (holders n acc.1 r).card = if acc.2.getD r false = true then 1 else 0
  greedy : GreedyCover (fun s t => t ∈ cand s) k (fun s => acc.2.getD s false = true)

theorem getD_append_singleton {l : List Bool} {b : Bool} (r : ℕ) :
    (l ++ [b]).getD r false = if r = l.length then b else l.getD r false := by
  by_cases h : r = l.length
  · subst h; simp
  · rw [if_neg h, List.getD_eq_getElem?_getD, List.getD_eq_getElem?_getD]
    rcases Nat.lt_or_gt_of_ne h with h | h
    · rw [List.getElem?_append_left h]
    · rw [List.getElem?_eq_none (by simp; omega), List.getElem?_eq_none (by omega)]

section Step

variable {k : ℕ} {acc : (ℕ → Option ℕ) × List Bool}

theorem coverStep_getD (hlen : acc.2.length = k) (x : ℕ) :
    (coverStep cand n acc k).2.getD x false =
      if x = k then (trySlot cand (n + 1) k ⟨acc.1, fun _ => false⟩).1 else acc.2.getD x false := by
  subst hlen
  exact getD_append_singleton x

theorem CoverInv.next_free (h : CoverInv cand n k acc) : (holders n acc.1 k).card = 0 := by
  rw [h.count k, List.getD_eq_default _ _ (by rw [h.length]), if_neg (by simp)]

theorem CoverInv.covered (h : CoverInv cand n k acc) {t r : ℕ} (ht : t < n) (hr : acc.1 t = some r) :
    r < k ∧ acc.2.getD r false = true := by
  have hpos : (holders n acc.1 r).card ≠ 0 := Finset.card_ne_zero.mpr ⟨t, by simp [holders, hr, ht]⟩
  rw [h.count r] at hpos
  have hc : acc.2.getD r false = true := by
    by_contra hc
    exact hpos (if_neg hc)
  refine ⟨?_, hc⟩
  by_contra hx
  rw [List.getD_eq_default _ _ (by rw [h.length]; omega)] at hc
  exact absurd hc (by simp)

theorem CoverInv.not_servable (h : CoverInv cand n k acc) {st' : Search}
    (hcl : Closed cand n (cand k) ⟨acc.1, fun _ => false⟩ st') :
    ¬ Servable (fun s t => t ∈ cand s) ({x | x < k ∧ acc.2.getD x false = true} ∪ {k}) := by
  refine not_servable_of_closed (fun x => ?_) h.next_free hcl (fun t x htn htx => ?_) (Or.inr rfl)
  · rw [h.count x]
    split_ifs <;> omega
  · exact Or.inl (h.covered htn htx)

theorem coverStep_inv (hcand : ∀ s, ∀ t ∈ cand s, t < n) (h : CoverInv cand n k acc) :
    CoverInv cand n (k + 1) (coverStep cand n acc k) := by
  set st : Search := ⟨acc.1, fun _ => false⟩ with hst
  obtain ⟨hfound, honly⟩ := trySlot_sound hcand (n + 1) k st
  have hfuel : unseen n st.seen < n + 1 := by
    have := Finset.card_filter_le (Finset.range n) (fun t => st.seen t = false)
    rw [Finset.card_range] at this
    exact Nat.lt_succ_of_le this
  have hcomp := trySlot_complete hcand (n + 1) k st hfuel
  have hflag (x : ℕ) := @coverStep_getD cand n k acc h.length x
  have hlength : (coverStep cand n acc k).2.length = k + 1 := by
    change (acc.2 ++ [_]).length = k + 1
    simp [h.length]
  have hsame : ∀ s < k, (coverStep cand n acc k).2.getD s false = true ↔ acc.2.getD s false = true := by
    intro s hs
    rw [hflag s, if_neg hs.ne]
  set r := trySlot cand (n + 1) k st with hr
  cases hok : r.1 with
  | true =>
    obtain ⟨halong, -, hcount⟩ := hfound hok
    have hcount' : ∀ x, (holders n r.2.truckSlot x).card =
        if (coverStep cand n acc k).2.getD x false = true then 1 else 0 := by
      intro x
      rw [hcount x, h.count x, hflag x]
      by_cases hx : x = k
      · subst hx
        rw [hok, List.getD_eq_default _ _ (by rw [h.length])]
        simp
      · simp [hx]
    have hnext : (coverStep cand n acc k).2.getD k false = true := by rw [hflag k, if_pos rfl, hok]
    refine ⟨hlength, halong h.along, hcount', h.greedy.succ hsame ⟨fun _ => ?_, fun _ => hnext⟩⟩
    refine servable_of_holders (n := n) (halong h.along) ?_
    rintro x (⟨hx, hc⟩ | rfl)
    · rw [hcount' x, if_pos ((hsame x hx).mpr hc)]
      exact Nat.one_ne_zero
    · rw [hcount' x, if_pos hnext]
      exact Nat.one_ne_zero
  | false =>
    obtain ⟨htable, -⟩ := honly hok
    refine ⟨hlength, ?_, fun x => ?_, h.greedy.succ hsame ⟨fun hc => ?_, fun hA => ?_⟩⟩
    · change Along cand r.2.truckSlot
      rw [htable]
      exact h.along
    · change (holders n r.2.truckSlot x).card = _
      rw [htable, hflag x]
      by_cases hx : x = k
      · rw [if_pos hx, hok, hx]
        exact h.next_free
      · rw [if_neg hx]
        exact h.count x
    · rw [hflag k, if_pos rfl, hok] at hc
      exact absurd hc (by decide)
    · exact absurd hA (h.not_servable (hcomp hok))

end Step

theorem coverRun_succ (k : ℕ) : coverRun cand n (k + 1) = coverStep cand n (coverRun cand n k) k := by
  rw [coverRun, List.range_succ, List.foldl_append]
  rfl

theorem coverRun_inv (hcand : ∀ s, ∀ t ∈ cand s, t < n) (k : ℕ) : CoverInv cand n k (coverRun cand n k) := by
  induction k with
  | zero => exact ⟨rfl, fun t r h => absurd h (by simp [coverRun]), fun r => by simp [coverRun, holders],
      fun s hs => absurd hs (Nat.not_lt_zero s)⟩
  | succ k ih => rw [coverRun_succ]; exact coverStep_inv hcand ih

end Search

/-! ## `deadline_cover` -/

variable (nTrucks : ℕ) (slotWpos : List ℕ) (edges : List Edge)

theorem candOf_lt (s t : ℕ) (h : t ∈ candOf nTrucks slotWpos edges s) : t < nTrucks := (mem_adjOf.mp h).1

theorem length_deadlineCover : (deadlineCover nTrucks slotWpos edges).length = slotWpos.length :=
  (coverRun_inv (fun s t => candOf_lt nTrucks slotWpos edges s t) slotWpos.length).length

/-- **The covered slots are the greedy cover of the trucks' edges**, in slot order. -/
theorem deadlineCover_greedy : GreedyCover (CanTake nTrucks slotWpos edges) slotWpos.length
    (fun s => (deadlineCover nTrucks slotWpos edges).getD s false = true) := by
  have hinv := coverRun_inv (fun s t => candOf_lt nTrucks slotWpos edges s t) slotWpos.length
  intro s hs
  refine (hinv.greedy s hs).trans ?_
  have hbelow : ∀ r ∈ ({r | r < s ∧ (deadlineCover nTrucks slotWpos edges).getD r false = true} ∪ {s} : Set ℕ),
      r < slotWpos.length := by
    rintro r (⟨hr, -⟩ | rfl)
    · exact hr.trans hs
    · exact hs
  exact ⟨fun hA => hA.congr fun r hr t => (mem_candOf (hbelow r hr)).mp,
    fun hA => hA.congr fun r hr t => (mem_candOf (hbelow r hr)).mpr⟩

theorem count_take (l : List Bool) (j : ℕ) :
    (l.take j).count true = ((Finset.range j).filter fun s => l.getD s false = true).card := by
  induction j with
  | zero => simp
  | succ j ih =>
    rw [List.take_add_one, List.count_append, ih, Finset.range_add_one, Finset.filter_insert, List.getD_eq_getElem?_getD]
    cases h : l[j]? with
    | none => simp
    | some b => cases b <;> simp

theorem deadlineCover_append (more : List ℕ) :
    (deadlineCover nTrucks (slotWpos ++ more) edges).take slotWpos.length = deadlineCover nTrucks slotWpos edges := by
  have hlong := (deadlineCover_greedy nTrucks (slotWpos ++ more) edges).prefix_of_le (j := slotWpos.length) (by simp)
  have hsame := hlong.unique (deadlineCover_greedy nTrucks slotWpos edges) fun s hs t => by
    unfold CanTake
    rw [List.getD_append _ _ _ _ hs]
  have hlen := length_deadlineCover nTrucks slotWpos edges
  have hlen' := length_deadlineCover nTrucks (slotWpos ++ more) edges
  rw [List.length_append] at hlen'
  apply List.ext_getElem
  · rw [List.length_take]
    omega
  · intro s hs hs'
    have hiff := hsame s (by omega)
    rw [List.getD_eq_getElem _ _ (by omega), List.getD_eq_getElem _ _ hs'] at hiff
    rw [List.getElem_take]
    exact Bool.eq_iff_iff.mpr hiff

/-- **`deadline_cover` is the greedy earliest-deadline cover**: a slot is covered exactly when it can be served together
with the ones covered before it, later slots change nothing, and of every prefix as many slots are covered as can be
served at once. -/
theorem deadlineCover_best : (deadlineCover nTrucks slotWpos edges).length = slotWpos.length ∧
    (∀ s < slotWpos.length, (deadlineCover nTrucks slotWpos edges).getD s false = true ↔
      Servable (CanTake nTrucks slotWpos edges)
        ({r | r < s ∧ (deadlineCover nTrucks slotWpos edges).getD r false = true} ∪ {s})) ∧
    (∀ more, (deadlineCover nTrucks (slotWpos ++ more) edges).take slotWpos.length =
      deadlineCover nTrucks slotWpos edges) ∧
    ∀ j ≤ slotWpos.length,
      IsGreatest {m | ∃ A : Finset ℕ, (∀ s ∈ A, s < j) ∧ Servable (CanTake nTrucks slotWpos edges) (A : Set ℕ) ∧ A.card = m}
        (((deadlineCover nTrucks slotWpos edges).take j).count true) := by
  classical
  have hgreedy := deadlineCover_greedy nTrucks slotWpos edges
  refine ⟨length_deadlineCover nTrucks slotWpos edges, hgreedy, deadlineCover_append nTrucks slotWpos edges, ?_⟩
  intro j hj
  have hprefix := hgreedy.prefix_of_le hj
  rw [count_take]
  refine ⟨⟨_, ?_, ?_, rfl⟩, ?_⟩
  · intro s hs
    exact Finset.mem_range.mp (Finset.mem_filter.mp hs).1
  · apply hprefix.servable.mono
    intro s hs
    obtain ⟨hsj, hC⟩ := Finset.mem_filter.mp hs
    exact ⟨Finset.mem_range.mp hsj, hC⟩
  · intro m ⟨A, hAj, hA, hm⟩
    rw [← hm]
    apply hprefix.card_le (N := fun s => (Finset.range nTrucks).filter (CanTake nTrucks slotWpos edges s)) _ hAj hA
    intro s _ t
    rw [Finset.mem_filter, Finset.mem_range]
    exact ⟨fun h => ⟨h.1, h⟩, fun h => h.2⟩

end TtAiops.Stage2
