import Mathlib.Data.List.Sort
import Mathlib.Data.List.TakeWhile

/-!
# The last that writes

A loop over a list that notes, of every element that meets a condition, this element in place of the one before, ends with
the last of them. The condition may be about what stood in front of the element.

* `lastBy` : the last element with a property;
* `withBefore` : every element with what stands in front of it;
* `lastBy_greatest`, `lastBy_of_greatest` : in a sorted list the last of them is one of the greatest, and it is the one
  behind which everything is greater;
* `lastBy_perm` : the last ones of two sorted copies of a list;
* `insertionSort_concat` : an element at the end of a list has only greater ones behind it when the list is sorted.
-/

namespace TtAiops.Lib

variable {α β : Type*}

def lastBy (p : α → Prop) [DecidablePred p] (l : List α) : Option α := (l.filter fun a => p a).getLast?

/-- Every element with what stands in front of it, from `pre` on. -/
def withBefore (pre : List α) : List α → List (List α × α)
  | [] => []
  | a :: l => (pre, a) :: withBefore (pre ++ [a]) l

section LastBy

variable {p q : α → Prop} [DecidablePred p] [DecidablePred q] {l : List α} {a : α}

@[simp] theorem lastBy_nil : lastBy p [] = none := rfl

theorem lastBy_concat : lastBy p (l ++ [a]) = if p a then some a else lastBy p l := by
  unfold lastBy
  by_cases h : p a <;> simp [List.filter_append, h]

theorem mem_of_lastBy (h : lastBy p l = some a) : a ∈ l ∧ p a := by
  have hmem := List.mem_of_getLast? h
  exact ⟨(List.mem_filter.mp hmem).1, of_decide_eq_true (List.mem_filter.mp hmem).2⟩

theorem lastBy_eq_none : lastBy p l = none ↔ ∀ a ∈ l, ¬ p a := by
  unfold lastBy
  rw [List.getLast?_eq_none_iff, List.filter_eq_nil_iff]
  simp

theorem lastBy_congr (h : ∀ a ∈ l, p a ↔ q a) : lastBy p l = lastBy q l := by
  unfold lastBy
  rw [List.filter_congr fun a ha => decide_eq_decide.mpr (h a ha)]

theorem lastBy_map (f : β → α) (l : List β) : lastBy p (l.map f) = (lastBy (fun b => p (f b)) l).map f := by
  unfold lastBy
  rw [List.filter_map, List.getLast?_map]
  rfl

end LastBy

section WithBefore

theorem withBefore_concat (pre l : List α) (a : α) : withBefore pre (l ++ [a]) = withBefore pre l ++ [(pre ++ l, a)] := by
  induction l generalizing pre with
  | nil => simp [withBefore]
  | cons b l ih => simp [withBefore, ih]

theorem mem_withBefore {pre l : List α} {x : List α × α} :
    x ∈ withBefore pre l ↔ ∃ front back, l = front ++ x.2 :: back ∧ x.1 = pre ++ front := by
  induction l generalizing pre with
  | nil => simp [withBefore]
  | cons b l ih =>
    rw [withBefore, List.mem_cons, ih]
    constructor
    · rintro (rfl | ⟨front, back, rfl, hx⟩)
      · exact ⟨[], l, rfl, by simp⟩
      · exact ⟨b :: front, back, rfl, by simp [hx]⟩
    · rintro ⟨_ | ⟨c, front⟩, back, heq, hx⟩
      · obtain ⟨hb, -⟩ := List.cons.inj heq
        exact Or.inl (Prod.ext (by simpa using hx) hb.symm)
      · obtain ⟨rfl, rfl⟩ := List.cons.inj heq
        exact Or.inr ⟨front, back, rfl, by simp [hx]⟩

@[simp] theorem map_snd_withBefore (pre l : List α) : (withBefore pre l).map Prod.snd = l := by
  induction l generalizing pre with
  | nil => rfl
  | cons b l ih => rw [withBefore, List.map_cons, ih]

end WithBefore

/-! ## Sorted lists -/

section Sorted

variable {O : Type*} [LinearOrder O] {rank : α → O} {p : α → Prop} [DecidablePred p] {l : List α} {a : α}

/-- One of the greatest elements with the property. -/
structure Greatest (rank : α → O) (p : α → Prop) (l : List α) (a : α) : Prop where
  mem : a ∈ l
  prop : p a
  le : ∀ b ∈ l, p b → rank b ≤ rank a

omit [DecidablePred p] in
theorem Greatest.perm {l' : List α} (hperm : l.Perm l') (h : Greatest rank p l a) : Greatest rank p l' a :=
  ⟨hperm.mem_iff.mp h.mem, h.prop, fun b hb => h.le b (hperm.mem_iff.mpr hb)⟩

/-- In a sorted list the last element with the property is one of the greatest with it. -/
theorem lastBy_greatest (hl : l.Pairwise fun a b => rank a ≤ rank b) (h : lastBy p l = some a) : Greatest rank p l a := by
  obtain ⟨hmem, hp⟩ := mem_of_lastBy h
  refine ⟨hmem, hp, fun b hb hpb => ?_⟩
  obtain ⟨front, hfront⟩ : ∃ front, l.filter (fun a => p a) = front ++ [a] := List.getLast?_eq_some_iff.mp h
  have hb' : b ∈ front ++ [a] := hfront ▸ List.mem_filter.mpr ⟨hb, decide_eq_true hpb⟩
  rcases List.mem_append.mp hb' with hb' | hb'
  · have hsorted : (front ++ [a]).Pairwise fun a b => rank a ≤ rank b := hfront ▸ hl.filter _
    exact (List.pairwise_append.mp hsorted).2.2 b hb' a (List.mem_singleton_self a)
  · rw [List.mem_singleton.mp hb']

/-- The last ones of two sorted copies of one list agree on what the greatest agree on. -/
theorem lastBy_perm {l' : List α} (hl : l.Pairwise fun a b => rank a ≤ rank b) (hl' : l'.Pairwise fun a b => rank a ≤ rank b)
    (hperm : l.Perm l') (f : Option α → β)
    (h : ∀ a a', Greatest rank p l a → Greatest rank p l a' → f (some a) = f (some a')) :
    f (lastBy p l) = f (lastBy p l') := by
  cases hlast : lastBy p l with
  | none => rw [lastBy_eq_none.mpr fun a ha => lastBy_eq_none.mp hlast a (hperm.mem_iff.mpr ha)]
  | some a =>
    cases hlast' : lastBy p l' with
    | none => exact absurd (mem_of_lastBy hlast).2 (lastBy_eq_none.mp hlast' a (hperm.mem_iff.mp (mem_of_lastBy hlast).1))
    | some a' => exact h a a' (lastBy_greatest hl hlast) ((lastBy_greatest hl' hlast').perm hperm.symm)

/-- One of the greatest elements with the property is the last if everything behind it is greater. -/
theorem lastBy_of_greatest {front back : List α} (h : Greatest rank p (front ++ a :: back) a)
    (hback : ∀ b ∈ back, rank a < rank b) : lastBy p (front ++ a :: back) = some a := by
  have hnone : back.filter (fun a => p a) = [] := by
    rw [List.filter_eq_nil_iff]
    intro b hb hpb
    exact absurd (h.le b (by simp [hb]) (of_decide_eq_true hpb)) (not_le.mpr (hback b hb))
  unfold lastBy
  simp [List.filter_append, h.prop, hnone]

/-- An element at the end of a list has only greater ones behind it when the list is sorted. -/
theorem insertionSort_concat (rank : α → O) (l : List α) (a : α) : ∃ front back,
    (l ++ [a]).insertionSort (fun a b => rank a ≤ rank b) = front ++ a :: back ∧ ∀ b ∈ back, rank a < rank b := by
  induction l with
  | nil => exact ⟨[], [], rfl, by simp⟩
  | cons b l ih =>
    obtain ⟨front, back, heq, hback⟩ := ih
    rw [List.cons_append, List.insertionSort_cons, heq]
    clear heq
    induction front with
    | nil =>
      by_cases hle : rank b ≤ rank a
      · exact ⟨[b], back, by simp [hle], hback⟩
      · refine ⟨[], back.orderedInsert (fun a b => rank a ≤ rank b) b, by simp [hle], fun c hc => ?_⟩
        rcases (List.mem_orderedInsert _).mp hc with rfl | hc
        · exact not_le.mp hle
        · exact hback c hc
    | cons c front ih =>
      by_cases hle : rank b ≤ rank c
      · exact ⟨b :: c :: front, back, by simp [hle], hback⟩
      · obtain ⟨front', back', heq, hback'⟩ := ih
        exact ⟨c :: front', back', by simp [hle, heq], hback'⟩

end Sorted

end TtAiops.Lib
