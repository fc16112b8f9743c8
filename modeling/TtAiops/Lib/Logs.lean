import Mathlib

/-!
# Logs of what a row held afterwards, and edit scripts

A log says of every change which row it wrote and what that row held afterwards (`none`: it was deleted). Played over a
table, the last record of a row decides.

* `play`, `play_apply`, `play_congr` : a log played over a table; only the order of the records of one row matters;
* `play_of_sorted` : **a log and any sorted copy of it give the same table**, if the records of one row are in strict order;
* `flatMap_filter_perm` : a list put together from its parts;
* `inOrder` : the members of a finite set, in order;
* `Edit`, `applyEdits`, `diffEdits` : a script that puts members into a set and takes members out, each only where it can;
* `applyEdits_diff`, `applyEdits_append` : the difference of two sets is a script from one to the other.
-/

namespace TtAiops.Lib

section Play

variable {E K V O : Type*} [DecidableEq K]

/-- The log `l` played over the table `t`. -/
def play (l : List (K × Option V)) (t : K → Option V) : K → Option V :=
  l.foldl (fun t e => Function.update t e.1 e.2) t

@[simp] theorem play_nil (t : K → Option V) : play [] t = t := rfl

@[simp] theorem play_cons (e : K × Option V) (l : List (K × Option V)) (t : K → Option V) :
    play (e :: l) t = play l (Function.update t e.1 e.2) := rfl

@[simp] theorem play_append (l l' : List (K × Option V)) (t : K → Option V) : play (l ++ l') t = play l' (play l t) :=
  List.foldl_append

theorem play_apply (l : List (K × Option V)) (t : K → Option V) (k : K) :
    play l t k = ((l.filter fun e => e.1 = k).getLast?.map Prod.snd).getD (t k) := by
  induction l generalizing t with
  | nil => rfl
  | cons e l ih =>
    rw [play_cons, ih]
    by_cases h : e.1 = k
    · rw [List.filter_cons_of_pos (by simpa using h), List.getLast?_cons, ← h, Function.update_self]
      cases (l.filter fun e' => e'.1 = e.1).getLast? <;> rfl
    · rw [List.filter_cons_of_neg (by simpa using h), Function.update_of_ne (Ne.symm h)]

/-- **Only the order of the records of one row matters**, and of the table only what the row held. -/
theorem play_congr {l l' : List (K × Option V)} {t t' : K → Option V} {k : K} (ht : t k = t' k)
    (h : (l.filter fun e => e.1 = k) = l'.filter fun e => e.1 = k) : play l t k = play l' t' k := by
  rw [play_apply, play_apply, h, ht]

variable [LinearOrder O] (key : E → K) (post : E → Option V) (rank : E → O)

/-- The records of one row come in strict order of their rank. -/
def RowOrdered (l : List E) : Prop := l.Pairwise fun a b => key a = key b → rank a < rank b

variable {key post rank}

theorem RowOrdered.filter_eq {l l' : List E} (hl : RowOrdered key rank l) (hperm : l.Perm l')
    (hl' : l'.Pairwise fun a b => rank a ≤ rank b) (k : K) :
    (l.filter fun e => key e = k) = l'.filter fun e => key e = k := by
  have hstrict : (l.filter fun e => key e = k).Pairwise fun a b => rank a < rank b := by
    rw [List.pairwise_filter]
    refine List.Pairwise.imp (fun {a b} h ha hb => h ?_) hl
    rw [of_decide_eq_true ha, of_decide_eq_true hb]
  have hinj : ∀ a b, a ∈ l.filter (fun e => key e = k) → b ∈ l'.filter (fun e => key e = k) →
      rank a ≤ rank b → rank b ≤ rank a → a = b := by
    intro a b ha hb hab hba
    have hnodup : ((l.filter fun e => key e = k).map rank).Nodup := List.pairwise_map.mpr (hstrict.imp fun h => h.ne)
    exact List.inj_on_of_nodup_map hnodup ha ((hperm.filter _).mem_iff.mpr hb) (le_antisymm hab hba)
  exact List.Perm.eq_of_pairwise hinj (hstrict.imp le_of_lt) (hl'.filter _) (hperm.filter _)

/-- **A log and any sorted copy of it give the same table.** -/
theorem play_of_sorted {l l' : List E} (hl : RowOrdered key rank l) (hperm : l.Perm l')
    (hl' : l'.Pairwise fun a b => rank a ≤ rank b) (t : K → Option V) :
    play (l.map fun e => (key e, post e)) t = play (l'.map fun e => (key e, post e)) t := by
  funext k
  apply play_congr rfl
  rw [List.filter_map, List.filter_map]
  show (l.filter fun e => key e = k).map _ = (l'.filter fun e => key e = k).map _
  rw [hl.filter_eq hperm hl' k]

theorem flatMap_filter_perm {N : Type*} [DecidableEq N] (f : E → N) {nums : List N} (hnums : nums.Nodup) {l : List E}
    (hl : ∀ e ∈ l, f e ∈ nums) : (nums.flatMap fun n => l.filter fun e => f e = n).Perm l := by
  induction nums generalizing l with
  | nil =>
    rw [List.eq_nil_iff_forall_not_mem.mpr fun e he => absurd (hl e he) List.not_mem_nil]
    exact List.Perm.nil
  | cons n nums ih =>
    obtain ⟨hn, hnums⟩ := List.nodup_cons.mp hnums
    have hrest : ∀ e ∈ l.filter (fun e => ¬ f e = n), f e ∈ nums := by
      intro e he
      obtain ⟨hmem, hne⟩ := List.mem_filter.mp he
      exact (List.mem_cons.mp (hl e hmem)).resolve_left (by simpa using hne)
    have hsame : (nums.flatMap fun m => l.filter fun e => f e = m) =
        nums.flatMap fun m => (l.filter fun e => ¬ f e = n).filter fun e => f e = m := by
      apply List.flatMap_congr
      intro m hm
      rw [List.filter_filter]
      apply List.filter_congr
      intro e _
      by_cases he : f e = m
      · have hne : f e ≠ n := fun h => hn (h ▸ he ▸ hm)
        rw [decide_eq_true he, decide_eq_true hne, Bool.and_self]
      · rw [decide_eq_false he, Bool.false_and]
    rw [List.flatMap_cons, hsame]
    refine ((ih hnums hrest).append_left _).trans ?_
    simpa using List.filter_append_perm (fun e => decide (f e = n)) l

end Play

section Edits

variable {α : Type*} [LinearOrder α]

theorem insertionSort_eq_of_perm {l l' : List α} (h : l.Perm l') :
    l.insertionSort (· ≤ ·) = l'.insertionSort (· ≤ ·) := by
  have hperm : (l.insertionSort (· ≤ ·)).Perm (l'.insertionSort (· ≤ ·)) :=
    (List.perm_insertionSort _ l).trans (h.trans (List.perm_insertionSort _ l').symm)
  exact hperm.eq_of_pairwise (fun a b _ _ => le_antisymm) (List.pairwise_insertionSort _ l)
    (List.pairwise_insertionSort _ l')

/-- The members of `s`, in order. -/
def inOrder (s : Finset α) : List α := Quot.liftOn s.1 (List.insertionSort (· ≤ ·)) fun _ _ => insertionSort_eq_of_perm

theorem inOrder_perm (s : Finset α) : ((inOrder s : List α) : Multiset α) = s.1 := by
  obtain ⟨m, hm⟩ := s
  induction m using Quot.ind with
  | mk l => exact Quot.sound (List.perm_insertionSort _ l)

@[simp] theorem mem_inOrder {s : Finset α} {a : α} : a ∈ inOrder s ↔ a ∈ s := by
  rw [← Finset.mem_val, ← inOrder_perm s, Multiset.mem_coe]

theorem nodup_inOrder (s : Finset α) : (inOrder s).Nodup := by
  rw [← Multiset.coe_nodup, inOrder_perm]
  exact s.nodup

theorem pairwise_inOrder (s : Finset α) : (inOrder s).Pairwise (· < ·) := by
  have hsorted : (inOrder s).Pairwise (· ≤ ·) := by
    obtain ⟨m, hm⟩ := s
    induction m using Quot.ind with
    | mk l => exact List.pairwise_insertionSort _ l
  exact (hsorted.and (nodup_inOrder s)).imp fun h => lt_of_le_of_ne h.1 h.2

@[simp] theorem inOrder_eq_nil {s : Finset α} : inOrder s = [] ↔ s = ∅ := by
  rw [List.eq_nil_iff_forall_not_mem, Finset.eq_empty_iff_forall_notMem]
  exact forall_congr' fun a => not_congr mem_inOrder

/-- A member comes in (`true`) or goes out. -/
abbrev Edit (α : Type*) := α × Bool

/-- A member comes in only where it is missing, and goes out only where it is there. -/
def applyEdit (s : Finset α) (e : Edit α) : Option (Finset α) :=
  if e.2 then (if e.1 ∈ s then none else some (insert e.1 s)) else if e.1 ∈ s then some (s.erase e.1) else none

/-- The set after the script, if every edit of it can be made. -/
def applyEdits (l : List (Edit α)) (s : Finset α) : Option (Finset α) := l.foldlM applyEdit s

@[simp] theorem applyEdits_nil (s : Finset α) : applyEdits [] s = some s := rfl

theorem applyEdits_append (l l' : List (Edit α)) (s : Finset α) :
    applyEdits (l ++ l') s = (applyEdits l s).bind (applyEdits l') := List.foldlM_append

theorem applyEdits_trans {l l' : List (Edit α)} {s s' s'' : Finset α} (h : applyEdits l s = some s')
    (h' : applyEdits l' s' = some s'') : applyEdits (l ++ l') s = some s'' := by
  rw [applyEdits_append, h]
  exact h'

def diffEdits (before after : Finset α) : List (Edit α) :=
  (inOrder (after \ before)).map (·, true) ++ (inOrder (before \ after)).map (·, false)

theorem applyEdits_enter {l : List α} (hl : l.Nodup) {s : Finset α} (hs : ∀ a ∈ l, a ∉ s) :
    applyEdits (l.map (·, true)) s = some (s ∪ l.toFinset) := by
  induction l generalizing s with
  | nil => simp
  | cons a l ih =>
    obtain ⟨ha, hl⟩ := List.nodup_cons.mp hl
    have hmem : a ∉ s := hs a List.mem_cons_self
    have hrest : ∀ b ∈ l, b ∉ insert a s := by
      intro b hb hmem
      rcases Finset.mem_insert.mp hmem with rfl | hmem
      · exact ha hb
      · exact hs b (List.mem_cons_of_mem _ hb) hmem
    show (applyEdit s (a, true)).bind (applyEdits (l.map (·, true))) = _
    rw [show applyEdit s (a, true) = some (insert a s) by simp [applyEdit, hmem], Option.bind_some, ih hl hrest]
    congr 1
    ext b
    simp only [Finset.mem_union, Finset.mem_insert, List.mem_toFinset, List.mem_cons]
    tauto

theorem applyEdits_exit {l : List α} (hl : l.Nodup) {s : Finset α} (hs : ∀ a ∈ l, a ∈ s) :
    applyEdits (l.map (·, false)) s = some (s \ l.toFinset) := by
  induction l generalizing s with
  | nil => simp
  | cons a l ih =>
    obtain ⟨ha, hl⟩ := List.nodup_cons.mp hl
    have hmem : a ∈ s := hs a List.mem_cons_self
    have hrest : ∀ b ∈ l, b ∈ s.erase a := fun b hb =>
      Finset.mem_erase.mpr ⟨fun h => ha (h ▸ hb), hs b (List.mem_cons_of_mem _ hb)⟩
    show (applyEdit s (a, false)).bind (applyEdits (l.map (·, false))) = _
    rw [show applyEdit s (a, false) = some (s.erase a) by simp [applyEdit, hmem], Option.bind_some, ih hl hrest]
    congr 1
    ext b
    simp only [Finset.mem_sdiff, Finset.mem_erase, List.mem_toFinset, List.mem_cons]
    tauto

/-- **The difference of two sets is a script from the one to the other.** -/
theorem applyEdits_diff (before after : Finset α) : applyEdits (diffEdits before after) before = some after := by
  have henter := applyEdits_enter (nodup_inOrder (after \ before)) (s := before) fun a ha =>
    (Finset.mem_sdiff.mp (mem_inOrder.mp ha)).2
  have hexit := applyEdits_exit (nodup_inOrder (before \ after)) (s := before ∪ (inOrder (after \ before)).toFinset)
    fun a ha => Finset.mem_union_left _ (Finset.mem_sdiff.mp (mem_inOrder.mp ha)).1
  refine (applyEdits_trans henter hexit).trans (congrArg some ?_)
  ext a
  simp only [Finset.mem_sdiff, Finset.mem_union, List.mem_toFinset, mem_inOrder]
  tauto

end Edits

end TtAiops.Lib
