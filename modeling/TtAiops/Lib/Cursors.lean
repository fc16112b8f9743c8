import Mathlib

/-!
# A cursor over a window

Times are pushed onto a queue, from whose other end old ones are dropped. Now and then a reader takes of the queue what lies
beyond its cursor and is still fresh, logs it and moves the cursor behind it. What is fresh gets less as time goes by.

* `beyond`, `moved` : what the reader takes, and where it puts the cursor;
* `Kept` : the queue and the cursor after some pushes and looks: nothing fresh is missing from the queue, and nothing fresh
  that the cursor has passed is missing from the log;
* `Kept.age`, `Kept.push`, `Kept.drop`, `Kept.look` : time, pushes, dropping and looking keep that;
* `Kept.apart` : what the reader takes is new, so that **every time is logged once at most**;
* `Kept.complete` : after a look **every fresh time is in the log**.
-/

namespace TtAiops.Lib

variable {T : Type*} [LinearOrder T]

def beyond (fresh : T → Prop) [DecidablePred fresh] (queue : List T) (seen : T) : List T :=
  queue.filter fun t => seen < t ∧ fresh t

/-- The cursor behind all that was taken. -/
def moved (taken : List T) (seen : T) : T := taken.foldl (fun seen t => max t seen) seen

theorem le_moved (taken : List T) (seen : T) : seen ≤ moved taken seen := by
  induction taken generalizing seen with
  | nil => exact le_rfl
  | cons t taken ih => exact (le_max_right t seen).trans (ih _)

theorem le_moved_of_mem {taken : List T} {t : T} (h : t ∈ taken) (seen : T) : t ≤ moved taken seen := by
  induction taken generalizing seen with
  | nil => exact absurd h List.not_mem_nil
  | cons t' taken ih =>
    rcases List.mem_cons.mp h with rfl | h
    · exact (le_max_left t seen).trans (le_moved taken _)
    · exact ih h _

theorem moved_mem (taken : List T) (seen : T) : moved taken seen = seen ∨ moved taken seen ∈ taken := by
  induction taken generalizing seen with
  | nil => exact Or.inl rfl
  | cons t taken ih =>
    show moved taken (max t seen) = seen ∨ moved taken (max t seen) ∈ t :: taken
    rcases ih (max t seen) with h | h
    · rw [h]
      rcases max_choice t seen with hmax | hmax
      · exact Or.inr (by rw [hmax]; exact List.mem_cons_self)
      · exact Or.inl hmax
    · exact Or.inr (List.mem_cons_of_mem _ h)

/-- The queue and the cursor, after the times that are `pushed` and those that are `logged`. -/
structure Kept (fresh pushed logged : T → Prop) (queue : List T) (seen : T) : Prop where
  sorted : queue.Pairwise (· < ·)
  queue_pushed : ∀ t ∈ queue, pushed t
  fresh_mem : ∀ t, pushed t → fresh t → t ∈ queue
  logged_le : ∀ t, logged t → t ≤ seen
  passed : ∀ t, pushed t → t ≤ seen → fresh t → logged t

variable {fresh fresh' pushed logged : T → Prop} {queue : List T} {seen : T}

theorem Kept.age (h : Kept fresh pushed logged queue seen) (hage : ∀ t, fresh' t → fresh t) :
    Kept fresh' pushed logged queue seen where
  sorted := h.sorted
  queue_pushed := h.queue_pushed
  fresh_mem t hpushed ht := h.fresh_mem t hpushed (hage t ht)
  logged_le := h.logged_le
  passed t hpushed hle ht := h.passed t hpushed hle (hage t ht)

theorem Kept.drop (h : Kept fresh pushed logged queue seen) {queue' : List T} (hsub : queue'.Sublist queue)
    (hfresh : ∀ t ∈ queue, fresh t → t ∈ queue') : Kept fresh pushed logged queue' seen where
  sorted := h.sorted.sublist hsub
  queue_pushed t ht := h.queue_pushed t (hsub.subset ht)
  fresh_mem t hpushed ht := hfresh t (h.fresh_mem t hpushed ht) ht
  logged_le := h.logged_le
  passed := h.passed

/-- A push of a time that is later than all others and beyond the cursor. -/
theorem Kept.push (h : Kept fresh pushed logged queue seen) {t : T} (hlast : ∀ x, pushed x → x < t) (hseen : seen < t) :
    Kept fresh (fun x => pushed x ∨ x = t) logged (queue ++ [t]) seen where
  sorted := by
    refine List.pairwise_append.mpr ⟨h.sorted, List.pairwise_singleton _ _, fun x hx y hy => ?_⟩
    rw [List.mem_singleton.mp hy]
    exact hlast x (h.queue_pushed x hx)
  queue_pushed x hx := (List.mem_append.mp hx).imp (h.queue_pushed x) List.mem_singleton.mp
  fresh_mem x hpushed hx :=
    List.mem_append.mpr (hpushed.imp (fun hpushed => h.fresh_mem x hpushed hx) List.mem_singleton.mpr)
  logged_le := h.logged_le
  passed x hpushed hle hx := by
    rcases hpushed with hpushed | rfl
    · exact h.passed x hpushed hle hx
    · exact absurd hseen (not_lt.mpr hle)

variable [DecidablePred fresh]

theorem Kept.look (h : Kept fresh pushed logged queue seen) :
    Kept fresh pushed (fun x => logged x ∨ x ∈ beyond fresh queue seen) queue (moved (beyond fresh queue seen) seen) where
  sorted := h.sorted
  queue_pushed := h.queue_pushed
  fresh_mem := h.fresh_mem
  logged_le x hx := hx.elim (fun hx => (h.logged_le x hx).trans (le_moved _ _)) fun hx => le_moved_of_mem hx _
  passed x hpushed _ hx := by
    rcases le_or_gt x seen with hle | hlt
    · exact Or.inl (h.passed x hpushed hle hx)
    · refine Or.inr (List.mem_filter.mpr ⟨h.fresh_mem x hpushed hx, ?_⟩)
      exact decide_eq_true ⟨hlt, hx⟩

theorem Kept.apart (h : Kept fresh pushed logged queue seen) : ∀ t ∈ beyond fresh queue seen, ¬ logged t := by
  intro t ht hlogged
  have hbeyond : seen < t ∧ fresh t := of_decide_eq_true (List.mem_filter.mp ht).2
  exact absurd hbeyond.1 (not_lt.mpr (h.logged_le t hlogged))

theorem Kept.nodup_beyond (h : Kept fresh pushed logged queue seen) : (beyond fresh queue seen).Nodup :=
  (h.sorted.imp ne_of_lt).sublist List.filter_sublist

/-- **After a look everything fresh is in the log.** -/
theorem Kept.complete (h : Kept fresh pushed logged queue seen) {t : T} (hpushed : pushed t) (ht : fresh t) :
    logged t ∨ t ∈ beyond fresh queue seen := by
  rcases le_or_gt t seen with hle | hlt
  · exact Or.inl (h.passed t hpushed hle ht)
  · exact Or.inr (List.mem_filter.mpr ⟨h.fresh_mem t hpushed ht, decide_eq_true ⟨hlt, ht⟩⟩)

end TtAiops.Lib
