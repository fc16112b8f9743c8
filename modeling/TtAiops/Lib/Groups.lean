import TtAiops.Lib.Logs

/-!
# Counting in groups

Of the elements that carry one tag only the first counts; those without a tag count each. Counted group by group, a tag
counts once in every group in which it occurs.

* `tags`, `loads` : the tags of a list, and how many of its elements count;
* `groups`, `occurs`, `surplus` : the groups of a list, those in which a tag occurs, and what the groups count too much;
* `tags_concat`, `loads_concat` : one element more;
* `sum_loads` : **the counts of the groups make the count of the whole and the surplus**;
* `surplus_eq_zero_iff` : there is none exactly when no tag occurs in two groups.
-/

namespace TtAiops.Lib

variable {α G T : Type*} [DecidableEq G] [DecidableEq T] {group : α → G} {tag : α → Option T} {l : List α}

def tags (tag : α → Option T) (l : List α) : Finset T := (l.filterMap tag).toFinset

def loads (tag : α → Option T) (l : List α) : ℕ := (tags tag l).card + l.countP fun a => tag a = none

def groups (group : α → G) (l : List α) : Finset G := (l.map group).toFinset

def occurs (group : α → G) (tag : α → Option T) (l : List α) (t : T) : Finset G :=
  groups group (l.filter fun a => tag a = some t)

def surplus (group : α → G) (tag : α → Option T) (l : List α) : ℕ := ∑ t ∈ tags tag l, ((occurs group tag l t).card - 1)

theorem mem_tags {t : T} : t ∈ tags tag l ↔ ∃ a ∈ l, tag a = some t := by
  unfold tags
  rw [List.mem_toFinset, List.mem_filterMap]

theorem mem_groups {g : G} : g ∈ groups group l ↔ ∃ a ∈ l, group a = g := by
  unfold groups
  rw [List.mem_toFinset, List.mem_map]

theorem mem_occurs {t : T} {g : G} : g ∈ occurs group tag l t ↔ ∃ a ∈ l, tag a = some t ∧ group a = g := by
  unfold occurs
  simp [mem_groups, and_assoc]

@[simp] theorem loads_nil : loads tag [] = 0 := rfl

theorem tags_concat (a : α) : tags tag (l ++ [a]) = (tag a).elim (tags tag l) fun t => insert t (tags tag l) := by
  ext t
  rw [mem_tags]
  cases htag : tag a with
  | none => simp [htag, mem_tags]
  | some t' => simp [htag, mem_tags, or_and_right, exists_or, or_comm, eq_comm]

theorem loads_concat (a : α) :
    loads tag (l ++ [a]) = loads tag l + if (tag a).any fun t => t ∈ tags tag l then 0 else 1 := by
  unfold loads
  rw [tags_concat, List.countP_append]
  cases htag : tag a with
  | none => simp [htag, add_assoc]
  | some t =>
    by_cases hmem : t ∈ tags tag l
    · simp [htag, hmem, Finset.insert_eq_of_mem]
    · simp [htag, hmem, add_right_comm]

theorem loads_le_length : loads tag l ≤ l.length := by
  induction l using List.reverseRecOn with
  | nil => rfl
  | append_singleton l a ih =>
    rw [loads_concat, List.length_append, List.length_singleton]
    split_ifs <;> omega

theorem one_le_occurs {t : T} (ht : t ∈ tags tag l) : 1 ≤ (occurs group tag l t).card := by
  obtain ⟨a, ha, htag⟩ := mem_tags.mp ht
  exact Finset.card_pos.mpr ⟨group a, mem_occurs.mpr ⟨a, ha, htag, rfl⟩⟩

theorem sum_card_tags : ∑ g ∈ groups group l, (tags tag (l.filter fun a => group a = g)).card =
    ∑ t ∈ tags tag l, (occurs group tag l t).card := by
  have hleft : ∀ g ∈ groups group l, (tags tag (l.filter fun a => group a = g)).card =
      ((tags tag l).filter fun t => g ∈ occurs group tag l t).card := by
    intro g _
    congr 1
    ext t
    rw [Finset.mem_filter, mem_tags, mem_tags, mem_occurs]
    simp only [List.mem_filter, decide_eq_true_iff]
    constructor
    · exact fun ⟨a, ⟨ha, hg⟩, ht⟩ => ⟨⟨a, ha, ht⟩, a, ha, ht, hg⟩
    · exact fun ⟨_, a, ha, ht, hg⟩ => ⟨a, ⟨ha, hg⟩, ht⟩
  have hright : ∀ t ∈ tags tag l, (occurs group tag l t).card =
      ((groups group l).filter fun g => g ∈ occurs group tag l t).card := by
    intro t _
    congr 1
    ext g
    rw [Finset.mem_filter, mem_groups, mem_occurs]
    exact ⟨fun ⟨a, ha, ht, hg⟩ => ⟨⟨a, ha, hg⟩, a, ha, ht, hg⟩, And.right⟩
  rw [Finset.sum_congr rfl hleft, Finset.sum_congr rfl hright]
  exact Finset.sum_card_bipartiteAbove_eq_sum_card_bipartiteBelow _

theorem sum_countP (p : α → Bool) :
    ∑ g ∈ groups group l, (l.filter fun a => group a = g).countP p = l.countP p := by
  have hperm := flatMap_filter_perm group (Finset.nodup_toList (groups group l)) (l := l)
    fun a ha => Finset.mem_toList.mpr (mem_groups.mpr ⟨a, ha, rfl⟩)
  rw [← hperm.countP_eq p, List.countP_flatMap, ← Finset.sum_map_toList]
  rfl

/-- **The counts of the groups make the count of the whole and the surplus.** -/
theorem sum_loads : ∑ g ∈ groups group l, loads tag (l.filter fun a => group a = g) =
    loads tag l + surplus group tag l := by
  have hsplit : ∑ t ∈ tags tag l, (occurs group tag l t).card = (tags tag l).card + surplus group tag l := by
    unfold surplus
    rw [Finset.card_eq_sum_ones, ← Finset.sum_add_distrib]
    refine Finset.sum_congr rfl fun t ht => ?_
    have hone : 1 ≤ (occurs group tag l t).card := one_le_occurs ht
    omega
  unfold loads
  rw [Finset.sum_add_distrib, sum_card_tags, sum_countP, hsplit]
  omega

theorem surplus_eq_zero_iff : surplus group tag l = 0 ↔
    ∀ a ∈ l, ∀ a' ∈ l, ∀ t, tag a = some t → tag a' = some t → group a = group a' := by
  unfold surplus
  rw [Finset.sum_eq_zero_iff]
  constructor
  · intro hzero a ha a' ha' t ht ht'
    have hone : (occurs group tag l t).card ≤ 1 := by
      have := hzero t (mem_tags.mpr ⟨a, ha, ht⟩)
      omega
    exact Finset.card_le_one.mp hone _ (mem_occurs.mpr ⟨a, ha, ht, rfl⟩) _ (mem_occurs.mpr ⟨a', ha', ht', rfl⟩)
  · intro hsame t _
    have hone : (occurs group tag l t).card ≤ 1 := by
      refine Finset.card_le_one.mpr fun g hg g' hg' => ?_
      obtain ⟨a, ha, ht, rfl⟩ := mem_occurs.mp hg
      obtain ⟨a', ha', ht', rfl⟩ := mem_occurs.mp hg'
      exact hsame a ha a' ha' t ht ht'
    omega

end TtAiops.Lib
