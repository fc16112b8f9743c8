import TtAiops.Api.Workpool

/-!
# The breaks between the shifts (`workpool.rs`)

A crane stands still when the shifts change, and the forecast charges one stall for each change the work waits through. The
changes are counted up to where the work alone would bring the crane; the stalls bring it further, and may bring it across
another change.

* `reached` : where the work alone brings the crane;
* `Charged` : each forecast has a stall for each change up to itself;
* `WithinShift`, `charged_iff` : **it has, exactly if the stalls do not reach beyond the shift in which the work ends**.
-/

namespace TtAiops.Api.Workpool
open TtAiops.Lib

variable (w : World) (c : Qc)

/-- The eight hours of a shift. -/
def shift : ℤ := 28800 * second

/-- A stall. -/
def stall : ℤ := SHIFT_BREAK_S * second

/-- When the crane would come to the place `k` without a break. -/
def reached (k : ℕ) : ℤ := etaAnchor w + truncate (max (suffix w c 0 - suffix w c k) 0) * second

/-- Each forecast has a stall for each change of shifts up to itself, and what is behind has those in between besides. -/
structure Charged : Prop where
  exact : ∀ k (hk : k < (slots w c).length), ∀ e ∈ (slots w c)[k].workEta,
    e = reached w c k + (ticks shift (etaAnchor w) e).card * stall
  additive : ∀ i j (hi : i < (slots w c).length) (hj : j < (slots w c).length), ∀ a ∈ (slots w c)[i].workEta,
    ∀ b ∈ (slots w c)[j].workEta, a ≤ b → b - reached w c j = a - reached w c i + (ticks shift a b).card * stall

/-- The stalls for the changes on the way end in the shift in which the work alone ends. -/
def WithinShift (k : ℕ) : Prop :=
  reached w c k % shift + shiftBreaksBetween (etaAnchor w) (reached w c k) * stall < shift

instance (k : ℕ) : Decidable (WithinShift w c k) := inferInstanceAs (Decidable (_ < _))

variable {w c}

theorem shift_pos : 0 < shift := by decide

theorem stall_pos : 0 < stall := by decide

/-- The difference of the shifts' numbers is the number of the changes in between. -/
theorem shiftBreaksBetween_eq (a b : ℤ) : shiftBreaksBetween a b = (ticks shift a b).card := by
  have hnumber : ∀ x, timestamp x / 28800 = x / shift := by
    intro x
    unfold timestamp shift
    rw [Int.ediv_ediv_of_nonneg second_pos.le, mul_comm]
  rw [card_ticks shift_pos]
  unfold shiftBreaksBetween
  rw [hnumber, hnumber]
  split_ifs with h
  · have := Int.ediv_le_ediv shift_pos h
    omega
  · have := Int.ediv_le_ediv shift_pos (le_of_not_ge h)
    omega

theorem etaAnchor_le_reached (k : ℕ) : etaAnchor w ≤ reached w c k := by
  have hwork : truncate 0 ≤ truncate (max (suffix w c 0 - suffix w c k) 0) := truncate_mono (le_max_right _ _)
  rw [truncate_zero] at hwork
  have := mul_nonneg hwork second_pos.le
  unfold reached
  omega

/-- The forecast charges the changes up to where the work alone brings the crane. -/
theorem workEta_eq (k : ℕ) : workEta w (max (suffix w c 0 - suffix w c k) 0)
    = reached w c k + (ticks shift (etaAnchor w) (reached w c k)).card * stall := by
  rw [← shiftBreaksBetween_eq, stall, ← mul_assoc]
  rfl

/-- One forecast: the stalls meet no further change exactly if they end in the shift. -/
theorem workEta_exact_iff (k : ℕ) {e : ℤ} (he : e = workEta w (max (suffix w c 0 - suffix w c k) 0)) :
    e = reached w c k + (ticks shift (etaAnchor w) e).card * stall ↔ WithinShift w c k := by
  have hstalls : 0 ≤ ((ticks shift (etaAnchor w) (reached w c k)).card : ℤ) * stall :=
    mul_nonneg (Int.natCast_nonneg _) stall_pos.le
  unfold WithinShift
  rw [shiftBreaksBetween_eq, ← card_ticks_delay shift_pos (etaAnchor_le_reached k) hstalls, ← workEta_eq, ← he]
  nth_rewrite 1 [he]
  rw [workEta_eq, add_right_inj, mul_left_inj' stall_pos.ne']
  norm_cast
  exact eq_comm

/-- **The breaks between the shifts**: each forecast has exactly one stall for each change of shifts up to itself, and those of
the queues add up along the timeline, exactly if at no queue with a forecast the stalls reach beyond the shift in which the
work before it ends. -/
theorem charged_iff : Charged w c ↔
    ∀ k (hk : k < (order w c).length), (finishBy w c (order w c)[k].vessel).isSome → WithinShift w c k := by
  have hlen : (slots w c).length = (order w c).length := slots_length
  have hslot : ∀ k (hk : k < (slots w c).length) (hk' : k < (order w c).length) e, e ∈ (slots w c)[k].workEta ↔
      (finishBy w c (order w c)[k].vessel).isSome ∧ e = workEta w (max (suffix w c 0 - suffix w c k) 0) := by
    intro k hk hk' e
    rw [slots_getElem hk hk', slot_workEta, Option.mem_map, Option.isSome_iff_exists]
    constructor
    · intro ⟨finish, hfinish, he⟩
      exact ⟨⟨finish, hfinish⟩, he.symm⟩
    · intro ⟨⟨finish, hfinish⟩, he⟩
      exact ⟨finish, hfinish, he.symm⟩
  constructor
  · intro h k hk hfinish
    have hk' : k < (slots w c).length := by omega
    exact (workEta_exact_iff k rfl).mp (h.exact k hk' _ ((hslot k hk' hk _).mpr ⟨hfinish, rfl⟩))
  · intro h
    have hexact : ∀ k (hk : k < (slots w c).length), ∀ e ∈ (slots w c)[k].workEta,
        e = reached w c k + (ticks shift (etaAnchor w) e).card * stall := by
      intro k hk e he
      obtain ⟨hfinish, he⟩ := (hslot k hk (by omega) e).mp he
      exact (workEta_exact_iff k he).mpr (h k (by omega) hfinish)
    refine ⟨hexact, ?_⟩
    intro i j hi hj a ha b hb hab
    have hai := hexact i hi a ha
    have hbj := hexact j hj b hb
    have hanchor : etaAnchor w ≤ a := by
      have hstalls := mul_nonneg (Int.natCast_nonneg (ticks shift (etaAnchor w) a).card) stall_pos.le
      have := etaAnchor_le_reached (w := w) (c := c) i
      omega
    have hadd : ((ticks shift (etaAnchor w) b).card : ℤ) * stall
        = (ticks shift (etaAnchor w) a).card * stall + (ticks shift a b).card * stall := by
      rw [card_ticks_add shift_pos hanchor hab]
      push_cast
      ring
    omega

/-- The work before the second queue ends 400 seconds before a change of shifts, with another change on the way. -/
def longQueue : Qc :=
  ⟨"Z2", ["BWSS"], [⟨"22H-D", "BWSS", some "26", some 1, 372, 0⟩, ⟨"26H-D", "BWSS", some "26", some 2, 40, 0⟩]⟩

/-- The stall of the first change brings the crane across the second one, which is not charged. -/
theorem not_charged_longQueue : (slots twoSchedules longQueue).map Slot.workEta
      = [some (20000 * second), some (57700 * second)] ∧
    ticks shift (20000 * second) (57700 * second) = {28800 * second, 57600 * second} ∧
    reached twoSchedules longQueue 1 = 57200 * second ∧ ¬ Charged twoSchedules longQueue := by
  have hreached : reached twoSchedules longQueue 1 = 57200 * second := by decide +kernel
  have hcard : (ticks shift (20000 * second) (57700 * second)).card = 2 := by
    have := card_ticks shift_pos (20000 * second) (57700 * second)
    rw [show max (57700 * second / shift - 20000 * second / shift) 0 = 2 by decide] at this
    exact_mod_cast this
  refine ⟨by decide +kernel, ?_, hreached, ?_⟩
  · symm
    apply Finset.eq_of_subset_of_card_le
    · intro x hx
      obtain rfl | hx := Finset.mem_insert.mp hx
      · exact Finset.mem_filter.mpr ⟨Finset.mem_Ioc.mpr (by decide), by decide⟩
      · rw [Finset.mem_singleton.mp hx]
        exact Finset.mem_filter.mpr ⟨Finset.mem_Ioc.mpr (by decide), by decide⟩
    · rw [hcard, Finset.card_pair (by decide)]
  · intro h
    have hexact := h.exact 1 (by decide +kernel) (57700 * second) (by decide +kernel)
    rw [hreached, show etaAnchor twoSchedules = 20000 * second from rfl, hcard] at hexact
    exact absurd hexact (by decide)

end TtAiops.Api.Workpool
