import Mathlib

/-!
# High-water marks

A poll sees at most one value of every source; a mark remembers the latest value of a source. The values of a source
never decrease from poll to poll.

* `Beyond`, `Behind`, `Moves` : a value beyond a mark, marks that are behind all values to come, and a step that leaves
  every mark or sets it to the value seen;
* `Moves.behind`, `Moves.le` : such steps keep the marks behind, and no mark goes back;
* `rises_le` : **steps that each raise a mark are at most as many as there are values beyond the marks.**
-/

namespace TtAiops.Lib

variable {K α : Type*} [LinearOrder α]

/-- A value that is present and later than the old one; no value is the earliest. -/
def Beyond (old new : Option α) : Prop := ∃ v ∈ new, ∀ b ∈ old, b < v

/-- What the polls to come see is not before the marks. -/
def Behind (marks : K → Option α) (polls : List (K → Option α)) : Prop :=
  ∀ k, ∀ b ∈ marks k, ∀ p ∈ polls, ∀ v ∈ p k, b ≤ v

def Rising (polls : List (K → Option α)) : Prop :=
  polls.Pairwise fun p q => ∀ k, ∀ v ∈ p k, ∀ w ∈ q k, v ≤ w

/-- Every mark stays, or it becomes the value seen. -/
def Moves (marks marks' seen : K → Option α) : Prop :=
  ∀ k, marks' k = marks k ∨ (seen k).isSome = true ∧ marks' k = seen k

section Step

variable {marks marks' p : K → Option α} {polls : List (K → Option α)}

theorem Behind.tail (h : Behind marks (p :: polls)) : Behind marks polls :=
  fun k b hb q hq => h k b hb q (List.mem_cons_of_mem _ hq)

theorem Moves.behind (hmoves : Moves marks marks' p) (hbehind : Behind marks (p :: polls)) (hrising : Rising (p :: polls)) :
    Behind marks' polls := by
  intro k b hb q hq v hv
  rcases hmoves k with h | ⟨-, h⟩ <;> rw [h] at hb
  · exact hbehind.tail k b hb q hq v hv
  · exact (List.pairwise_cons.mp hrising).1 q hq k b hb v hv

/-- **No mark is lost or goes back.** -/
theorem Moves.le (hmoves : Moves marks marks' p) (hbehind : Behind marks (p :: polls)) {k : K} {b : α}
    (hb : b ∈ marks k) : ∃ v ∈ marks' k, b ≤ v := by
  rcases hmoves k with h | ⟨hsome, h⟩ <;> rw [h]
  · exact ⟨b, hb, le_rfl⟩
  · obtain ⟨v, hv⟩ := Option.isSome_iff_exists.mp hsome
    exact ⟨v, hv, hbehind k b hb p List.mem_cons_self v hv⟩

end Step

section Count

variable [DecidableEq K] {S P : Type*} (marks : S → K → Option α) (seen : P → K → Option α)

/-- The values that a list of polls sees, with their sources. -/
def seenValues (sources : List K) (polls : List P) : Finset (K × α) :=
  (polls.flatMap fun p => sources.flatMap fun k => ((seen p k).map fun v => (k, v)).toList).toFinset

theorem mem_seenValues {sources : List K} {polls : List P} {k : K} {v : α} (hk : k ∈ sources) :
    (k, v) ∈ seenValues seen sources polls ↔ ∃ p ∈ polls, v ∈ seen p k := by
  simp only [seenValues, List.mem_toFinset, List.mem_flatMap, Option.mem_toList, Option.mem_def, Option.map_eq_some_iff,
    Prod.mk.injEq]
  constructor
  · rintro ⟨p, hp, k', -, w, hw, rfl, rfl⟩
    exact ⟨p, hp, hw⟩
  · rintro ⟨p, hp, hv⟩
    exact ⟨p, hp, k, hk, v, hv, rfl, rfl⟩

def countRun (step : P → S → Bool × S) : List P → S → ℕ
  | [], _ => 0
  | p :: ps, s => (if (step p s).1 then 1 else 0) + countRun step ps (step p s).2

/-- **Steps that each raise a mark are at most as many as the values seen.** -/
theorem rises_le (sources : List K) (hsources : ∀ k, k ∈ sources) {step : P → S → Bool × S}
    (hmoves : ∀ p s, Moves (marks s) (marks (step p s).2) (seen p))
    (hrise : ∀ p s, (step p s).1 = true → ∃ k, Beyond (marks s k) (marks (step p s).2 k)) (polls : List P) (s : S)
    (hbehind : Behind (marks s) (polls.map seen)) (hrising : Rising (polls.map seen)) :
    countRun step polls s ≤ (seenValues seen sources polls).card := by
  classical
  -- the values that are beyond the marks pay for the steps that are left
  let ahead : List P → S → Finset (K × α) := fun polls s =>
    (seenValues seen sources polls).filter fun x => ∀ b ∈ marks s x.1, b < x.2
  suffices h : countRun step polls s ≤ (ahead polls s).card from h.trans (Finset.card_filter_le _ _)
  induction polls generalizing s with
  | nil => exact Nat.zero_le _
  | cons p polls ih =>
    have hbehind' : Behind (marks (step p s).2) (polls.map seen) := (hmoves p s).behind hbehind hrising
    have htail := ih (step p s).2 hbehind' (List.pairwise_cons.mp hrising).2
    have hsub : ahead polls (step p s).2 ⊆ ahead (p :: polls) s := by
      rintro ⟨k, v⟩ hx
      obtain ⟨hseen, hlater⟩ := Finset.mem_filter.mp hx
      obtain ⟨q, hq, hv⟩ := (mem_seenValues seen (hsources k)).mp hseen
      refine Finset.mem_filter.mpr ⟨(mem_seenValues seen (hsources k)).mpr ⟨q, List.mem_cons_of_mem _ hq, hv⟩, ?_⟩
      intro b hb
      obtain ⟨b', hb', hle⟩ := (hmoves p s).le hbehind hb
      exact lt_of_le_of_lt hle (hlater b' hb')
    rw [countRun]
    split_ifs with hcount
    · obtain ⟨k, v, hv, hlater⟩ := hrise p s hcount
      have hp : v ∈ seen p k := by
        rcases hmoves p s k with h | ⟨-, h⟩
        · exact absurd (hlater v (h ▸ hv)) (lt_irrefl v)
        · exact h ▸ hv
      have hin : (k, v) ∈ ahead (p :: polls) s :=
        Finset.mem_filter.mpr ⟨(mem_seenValues seen (hsources k)).mpr ⟨p, List.mem_cons_self, hp⟩, hlater⟩
      have hout : (k, v) ∉ ahead polls (step p s).2 := fun h =>
        absurd ((Finset.mem_filter.mp h).2 v hv) (lt_irrefl v)
      have hlt : (ahead polls (step p s).2).card < (ahead (p :: polls) s).card :=
        Finset.card_lt_card ⟨hsub, fun h => hout (h hin)⟩
      omega
    · have hle := Finset.card_le_card hsub
      omega

end Count

end TtAiops.Lib
