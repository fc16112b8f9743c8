import TtAiops.Dispatch.Edges

/-!
# The greedy baseline (`spawn_stage2_shadow`)

Beside the matching a tick goes over the driving works in their order and gives each the cheapest trucks that are left, up to its
slots; what this costs is logged for comparison.

* `greedyStep`, `greedyPicks`, `greedyCost` : a turn of the loop, all picks, and what they cost;
* `Picked` : what the picks are after every turn;
* `exists_servable` : picks within the slots serve as many slots at once;
* `greedy_le_matched` : **the baseline is a matching over the same edges, and it never has more pairs than the optimum**.
-/

namespace TtAiops.Dispatch
open TtAiops.Lib TtAiops.Stage2

/-- A turn of the loop: the cheapest trucks that are left, up to the demand of the work. -/
def greedyStep (edgesByW : ℕ → List (ℕ × ℤ)) (picks : List (ℕ × ℕ)) (x : (ℕ × ℤ) × ℕ) : List (ℕ × ℕ) :=
  let cand := ((edgesByW x.2).filter fun e => e.1 ∉ picks.map Prod.fst).insertionSort fun e e' => e.2 ≤ e'.2
  picks ++ (cand.take x.1.2.toNat).map fun e => (e.1, x.2)

/-- The pairs of truck and work position that the loop over the driving works picks. -/
def greedyPicks (edgesByW : ℕ → List (ℕ × ℤ)) (driving : List (ℕ × ℤ)) : List (ℕ × ℕ) :=
  driving.zipIdx.foldl (greedyStep edgesByW) []

/-- `edges_by_w`. -/
def edgesOf (edges : List Edge) (wpos : ℕ) : List (ℕ × ℤ) := (edges.filter fun e => e.2.1 = wpos).map fun e => (e.1, e.2.2)

/-- The picks are distinct trucks along edges, and no work has more of them than slots. -/
structure Picked (edgesByW : ℕ → List (ℕ × ℤ)) (driving : List (ℕ × ℤ)) (picks : List (ℕ × ℕ)) : Prop where
  trucks : (picks.map Prod.fst).Nodup
  edge : ∀ p ∈ picks, ∃ c, (p.1, c) ∈ edgesByW p.2
  below : ∀ p ∈ picks, p.2 < driving.length
  count : ∀ w, (picks.map Prod.snd).count w ≤ (slotAll driving).count w

section Picks

variable {edgesByW : ℕ → List (ℕ × ℤ)} {driving : List (ℕ × ℤ)} {picks : List (ℕ × ℕ)}

theorem slotAll_concat (driving : List (ℕ × ℤ)) (d : ℕ × ℤ) :
    slotAll (driving ++ [d]) = slotAll driving ++ List.replicate d.2.toNat driving.length := by
  simp [slotAll, List.zipIdx_append]

/-- A turn picks trucks that are left, each once and along an edge, and not more than the demand. -/
theorem Picked.step (h : Picked edgesByW driving picks) (d : ℕ × ℤ)
    (hedges : ((edgesByW driving.length).map Prod.fst).Nodup) :
    Picked edgesByW (driving ++ [d]) (greedyStep edgesByW picks (d, driving.length)) := by
  unfold greedyStep
  dsimp only
  set cand := ((edgesByW driving.length).filter fun e => e.1 ∉ picks.map Prod.fst).insertionSort fun e e' => e.2 ≤ e'.2
    with hcand
  have hmem : ∀ e ∈ cand.take d.2.toNat, e ∈ edgesByW driving.length ∧ e.1 ∉ picks.map Prod.fst := by
    intro e he
    have := (List.mem_insertionSort _).mp (List.mem_of_mem_take he)
    obtain ⟨hin, hleft⟩ := List.mem_filter.mp this
    exact ⟨hin, of_decide_eq_true hleft⟩
  have hnodup : ((cand.take d.2.toNat).map Prod.fst).Nodup := by
    have hperm : cand.Perm ((edgesByW driving.length).filter fun e => e.1 ∉ picks.map Prod.fst) := List.perm_insertionSort _ _
    have hall : (cand.map Prod.fst).Nodup := (hperm.map Prod.fst).nodup_iff.mpr (hedges.sublist (List.filter_sublist.map _))
    exact hall.sublist ((List.take_sublist _ _).map _)
  refine ⟨?_, ?_, ?_, fun w => ?_⟩
  · rw [List.map_append, List.map_map]
    refine List.Nodup.append h.trucks hnodup fun v hv hv' => ?_
    obtain ⟨e, he, rfl⟩ := List.mem_map.mp hv'
    exact (hmem e he).2 hv
  · intro p hp
    rcases List.mem_append.mp hp with hp | hp
    · exact h.edge p hp
    · obtain ⟨e, he, rfl⟩ := List.mem_map.mp hp
      exact ⟨e.2, (hmem e he).1⟩
  · intro p hp
    rw [List.length_append]
    rcases List.mem_append.mp hp with hp | hp
    · exact Nat.lt_add_right _ (h.below p hp)
    · obtain ⟨e, -, rfl⟩ := List.mem_map.mp hp
      simp
  · rw [List.map_append, List.map_map, slotAll_concat, List.count_append, List.count_append]
    have hnew : ((cand.take d.2.toNat).map (Prod.snd ∘ fun e => (e.1, driving.length))).count w ≤
        (List.replicate d.2.toNat driving.length).count w := by
      have hconst : (cand.take d.2.toNat).map (Prod.snd ∘ fun e => (e.1, driving.length)) =
          List.replicate (cand.take d.2.toNat).length driving.length := List.map_const'
      rw [hconst, List.count_replicate, List.count_replicate, List.length_take]
      split_ifs
      · exact min_le_left _ _
      · exact le_rfl
    exact Nat.add_le_add (h.count w) hnew

theorem picked_greedy (hedges : ∀ w, ((edgesByW w).map Prod.fst).Nodup) (driving : List (ℕ × ℤ)) :
    Picked edgesByW driving (greedyPicks edgesByW driving) := by
  induction driving using List.reverseRecOn with
  | nil => exact ⟨List.nodup_nil, fun p hp => absurd hp List.not_mem_nil, fun p hp => absurd hp List.not_mem_nil,
      fun w => le_rfl⟩
  | append_singleton driving d ih =>
    have hnext : greedyPicks edgesByW (driving ++ [d]) =
        greedyStep edgesByW (greedyPicks edgesByW driving) (d, driving.length) := by
      rw [greedyPicks, List.zipIdx_append, List.foldl_append]
      simp [greedyPicks]
    rw [hnext]
    exact ih.step d (hedges driving.length)

end Picks

/-- Distinct trucks that take no work more often than it has slots serve as many slots at once. -/
theorem exists_servable {E : ℕ → ℕ → Prop} {slots : List ℕ} {picks : List (ℕ × ℕ)} (htrucks : (picks.map Prod.fst).Nodup)
    (hedge : ∀ p ∈ picks, ∀ s, slots[s]? = some p.2 → E s p.1)
    (hcount : ∀ w, (picks.map Prod.snd).count w ≤ slots.count w) :
    ∃ A : Finset ℕ, (∀ s ∈ A, s < slots.length) ∧ Servable E (A : Set ℕ) ∧ A.card = picks.length := by
  -- the picks in the order of slots that they can take
  obtain ⟨l, hperm, hsub⟩ : (picks.map Prod.snd).Subperm slots := List.subperm_ext_iff.mpr fun w _ => hcount w
  obtain ⟨picks', hfit, hperm'⟩ := List.perm_comp_forall₂ (r := fun w (p : ℕ × ℕ) => p.2 = w) hperm
    (List.forall₂_map_left_iff.mpr (List.forall₂_same.mpr fun _ _ => rfl))
  obtain ⟨hlength, hfit⟩ := List.forall₂_iff_get.mp hfit
  obtain ⟨f, hf⟩ := List.sublist_iff_exists_orderEmbedding_getElem?_eq.mp hsub
  have htrucks' : (picks'.map Prod.fst).Nodup := (hperm'.map Prod.fst).nodup_iff.mpr htrucks
  have hback : ∀ i, Function.invFun f (f i) = i := Function.leftInverse_invFun f.injective
  have hslot : ∀ (i : ℕ) (hi : i < picks'.length), slots[f i]? = some picks'[i].2 := by
    intro i hi
    have hi' : i < l.length := hlength ▸ hi
    have hsame : picks'[i].2 = l[i] := hfit i hi' hi
    rw [← hf i, List.getElem?_eq_getElem hi', hsame]
  refine ⟨(Finset.range picks'.length).image f, fun s hs => ?_, ⟨fun s => (picks'.getD (Function.invFun f s) (0, 0)).1, ?_, ?_⟩, ?_⟩
  · obtain ⟨i, hi, rfl⟩ := Finset.mem_image.mp hs
    exact (List.getElem?_eq_some_iff.mp (hslot i (Finset.mem_range.mp hi))).1
  · intro s hs s' hs' heq
    obtain ⟨i, hi, rfl⟩ := Finset.mem_image.mp hs
    obtain ⟨j, hj, rfl⟩ := Finset.mem_image.mp hs'
    have hi := Finset.mem_range.mp hi
    have hj := Finset.mem_range.mp hj
    dsimp only at heq
    rw [hback, hback, List.getD_eq_getElem _ _ hi, List.getD_eq_getElem _ _ hj] at heq
    have hinj : ∀ p ∈ picks', ∀ p' ∈ picks', p.1 = p'.1 → p = p' := fun p hp p' hp' h => List.inj_on_of_nodup_map htrucks' hp hp' h
    have hsame := hinj _ (List.getElem_mem hi) _ (List.getElem_mem hj) heq
    rw [(List.Nodup.of_map _ htrucks').getElem_inj_iff.mp hsame]
  · intro s hs
    obtain ⟨i, hi, rfl⟩ := Finset.mem_image.mp hs
    have hi := Finset.mem_range.mp hi
    dsimp only
    rw [hback, List.getD_eq_getElem _ _ hi]
    exact hedge _ (hperm'.mem_iff.mp (List.getElem_mem hi)) _ (hslot i hi)
  · rw [Finset.card_image_of_injective _ f.injective, Finset.card_range, hperm'.length_eq]

namespace MatchIn

variable (m : MatchIn) (t : TickIn) (held : Held)

def greedy : List (ℕ × ℕ) := greedyPicks (edgesOf (m.edges t held)) (driving (m.onto t))

/-- `greedy_cost`: the arrivals of the picks, without penalties. -/
def greedyCost : ℤ :=
  ((m.greedy t held).map fun p => ((m.vehicles[p.1]?.bind fun v => (m.workOf t p.2).map fun w => m.arrival v w).getD 0)).sum

variable {m t held}

theorem mem_edgesOf {edges : List Edge} {wpos vi : ℕ} {c : ℤ} : (vi, c) ∈ edgesOf edges wpos ↔ (vi, wpos, c) ∈ edges := by
  unfold edgesOf
  rw [List.mem_map]
  constructor
  · rintro ⟨e, he, heq⟩
    obtain ⟨he, hw⟩ := List.mem_filter.mp he
    obtain ⟨rfl, rfl⟩ := Prod.mk.inj heq
    rwa [← of_decide_eq_true hw]
  · intro he
    exact ⟨_, List.mem_filter.mpr ⟨he, decide_eq_true rfl⟩, rfl⟩

theorem nodup_workEdges (inp : TickIn) (held : Held) (oi : ℕ) : ((workEdges inp held oi).map Prod.fst).Nodup := by
  have hsub : ∀ (f : VehicleIn × ℕ → Option (ℕ × ℤ)) (l : List (VehicleIn × ℕ)), (∀ x y, f x = some y → y.1 = x.2) →
      ((l.filterMap f).map Prod.fst).Sublist (l.map Prod.snd) := by
    intro f l hf
    induction l with
    | nil => exact List.Sublist.refl _
    | cons x l ih =>
      cases hx : f x with
      | none =>
        rw [List.filterMap_cons_none hx]
        exact ih.trans (List.sublist_cons_self _ _)
      | some y =>
        rw [List.filterMap_cons_some hx, List.map_cons, List.map_cons, hf x y hx]
        exact ih.cons_cons _
  refine List.Nodup.sublist (hsub _ _ fun x y hy => ?_) (by rw [List.zipIdx_map_snd]; exact List.nodup_range')
  exact congrArg Prod.fst (Option.some_inj.mp (Option.ite_none_right_eq_some.mp hy).2).symm

theorem edgesOf_drivingEdges (workEdges : ℕ → List (ℕ × ℤ)) (driving : List (ℕ × ℤ)) (wpos : ℕ) :
    edgesOf (drivingEdges workEdges driving) wpos = (driving[wpos]?.map fun d => workEdges d.1).getD [] := by
  induction driving using List.reverseRecOn with
  | nil => rfl
  | append_singleton driving d ih =>
    have hconcat : drivingEdges workEdges (driving ++ [d]) =
        drivingEdges workEdges driving ++ (workEdges d.1).map fun e => (e.1, driving.length, e.2) := by
      simp [drivingEdges, List.zipIdx_append]
    have hnew : edgesOf ((workEdges d.1).map fun e => (e.1, driving.length, e.2)) wpos =
        if wpos = driving.length then workEdges d.1 else [] := by
      unfold edgesOf
      rw [List.filter_map, List.map_map]
      split_ifs with h
      · rw [List.filter_eq_self.mpr fun e _ => by simp [h]]
        exact List.map_id _
      · rw [List.filter_eq_nil_iff.mpr fun e _ => by simpa using Ne.symm h]
        rfl
    have hsplit : ∀ es es' : List Edge, edgesOf (es ++ es') wpos = edgesOf es wpos ++ edgesOf es' wpos := by
      intro es es'
      rw [edgesOf, List.filter_append, List.map_append]
      rfl
    rw [hconcat, hsplit, ih, hnew]
    rcases lt_trichotomy wpos driving.length with h | rfl | h
    · rw [if_neg h.ne, List.append_nil, List.getElem?_append_left h]
    · rw [if_pos rfl, List.getElem?_concat_length, List.getElem?_eq_none le_rfl]
      rfl
    · rw [if_neg h.ne', List.getElem?_eq_none h.le, List.getElem?_eq_none (by rw [List.length_append]; exact h)]
      rfl

theorem nodup_edgesOf (m : MatchIn) (t : TickIn) (held : Held) (wpos : ℕ) :
    ((edgesOf (m.edges t held) wpos).map Prod.fst).Nodup := by
  unfold edges
  rw [edgesOf_drivingEdges]
  cases (driving (m.onto t))[wpos]? with
  | none => exact List.nodup_nil
  | some d => exact nodup_workEdges _ _ _

/-- **The baseline is a matching that the optimum is never below**: its trucks are distinct, its pairs are edges of the tick, no
work gets more trucks than it has slots, and with no more trucks than the sentinel allows for it has no more pairs than the
matching of the tick. -/
theorem greedy_le_matched (m : MatchIn) (t : TickIn) (held : Held) (hfew : (m.vehicles.length : ℤ) * 4799 < FORBIDDEN_COST) :
    ((m.greedy t held).map Prod.fst).Nodup ∧ (∀ p ∈ m.greedy t held, ∃ c, (p.1, p.2, c) ∈ m.edges t held) ∧
      (∀ w, ((m.greedy t held).map Prod.snd).count w ≤ (slotAll (driving (m.onto t))).count w) ∧
      (m.greedy t held).length ≤
        (stage2Assign m.vehicles.length (slotAll (driving (m.onto t))) (m.edges t held)).length := by
  have hpicked := picked_greedy (nodup_edgesOf m t held) (driving (m.onto t))
  have hedge : ∀ p ∈ m.greedy t held, ∃ c, (p.1, p.2, c) ∈ m.edges t held := by
    intro p hp
    obtain ⟨c, hc⟩ := hpicked.edge p hp
    exact ⟨c, mem_edgesOf.mp hc⟩
  refine ⟨hpicked.trucks, hedge, hpicked.count, ?_⟩
  obtain ⟨g, hg⟩ := exists_matched t held hfew
  have htake : ∀ p ∈ m.greedy t held, ∀ s, (slotAll (driving (m.onto t)))[s]? = some p.2 →
      CanTake m.vehicles.length (slotAll (driving (m.onto t))) (m.edges t held) s p.1 := by
    intro p hp s hs
    obtain ⟨c, hc⟩ := hedge p hp
    refine ⟨(edges_bounds _ hc).1, c, ?_⟩
    rwa [List.getD_eq_getElem?_getD, hs]
  obtain ⟨A, hlt, hserv, hcard⟩ := exists_servable hpicked.trucks htake hpicked.count
  rw [hg.pairs.length_eq, List.length_map, List.length_range]
  exact hcard.symm.le.trans (card_le_kept hlt hserv)

/-- Of the two trucks the baseline takes the nearer one for the left box, which it had not been recommended, as the optimum does. -/
theorem greedy_le_matched_two : twoMatch.greedy idleTick ∅ = [(1, 0), (0, 1)] ∧
    (twoMatch.greedy idleTick ∅).length ≤
      (stage2Assign twoMatch.vehicles.length (slotAll (driving (twoMatch.onto idleTick))) (twoMatch.edges idleTick ∅)).length :=
  ⟨by decide +kernel, (greedy_le_matched twoMatch idleTick ∅ (by decide +kernel)).2.2.2⟩

end MatchIn

end TtAiops.Dispatch
