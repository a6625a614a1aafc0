/-
Pruning by position.

Neither stage of pruning looks at anything but the vectors, so it makes no difference whether the
items themselves are carried along or their positions (`survivors_map`).  The positions are met in
order and none is put before an earlier one.  So there is nothing left to be put in order after the
first stage (`pointwise_eq`), and the index of the second one always stands behind the positions
that are kept (`sift_append`).  The positions left at the end are in order too, and this is what a
single walk needs to meet all of them (`met_eq`).

So both ways of handing out what is left give the vectors that make up the envelope
(`pruneSparse_eq`, `pruneDense_eq`).
-/
import MarkovPlanning.Pomdp.Envelope.Positions
import MarkovPlanning.Proofs.Pomdp.Envelope
import Mathlib

namespace MarkovPlanning.Envelope

variable {α β γ : Type} [Scalar α] {n : Nat}

/-! ### Items and what stands for them -/

section
variable (values : β → List α) (f : γ → β)

theorem takeIn_map (kept : List γ) (item : γ) :
    takeIn values (kept.map f) (f item) = (takeIn (values ∘ f) kept item).map f := by
  unfold takeIn
  rw [List.any_map, List.filter_map, apply_ite (List.map f), List.map_append]
  rfl

theorem unmatched_map (items : List γ) :
    unmatched values (items.map f) = (unmatched (values ∘ f) items).map f := by
  have hfold (kept : List γ) : (items.map f).foldl (takeIn values) (kept.map f)
      = (items.foldl (takeIn (values ∘ f)) kept).map f := by
    induction items generalizing kept with
    | nil => rfl
    | cons item rest ih => rw [List.map_cons, List.foldl_cons, takeIn_map, ih, List.foldl_cons]
  exact hfold []

theorem winnow_map (settings : Settings α) (waiting kept : List γ) :
    winnow settings values (kept.map f) (waiting.map f)
      = (winnow settings (values ∘ f) kept waiting).map f := by
  induction waiting generalizing kept with
  | nil => rfl
  | cons item rest ih =>
      rw [List.map_cons, winnow, winnow, ← List.map_append, List.map_map]
      by_cases hkeep :
        hasWitness settings (values (f item)) ((kept ++ rest).map (values ∘ f)) = true
      · have hnext : kept.map f ++ [f item] = (kept ++ [item]).map f := by simp
        rw [if_pos hkeep, hnext, ih, Function.comp_apply, if_pos hkeep]
      · rw [if_neg hkeep, ih, Function.comp_apply, if_neg hkeep]

/-- **Pruning looks at the vectors alone.** -/
theorem survivors_map (settings : Settings α) (items : List γ) :
    survivors settings values (items.map f)
      = (survivors settings (values ∘ f) items).map f := by
  rw [survivors, unmatched_map]
  exact winnow_map values f settings _ []

/-- What is left of a list is what stands at the positions that are left. -/
theorem survivors_eq_map_get (settings : Settings α) (items : List β) :
    survivors settings values items
      = (survivors settings (values ∘ items.get) (List.finRange items.length)).map items.get := by
  rw [← survivors_map, List.map_get_finRange]

/-- Items with the same vectors at the members of a list leave the same. -/
theorem survivors_congr {values values' : β → List α} {items : List β}
    (h : ∀ item ∈ items, values item = values' item) (settings : Settings α) :
    survivors settings values items = survivors settings values' items := by
  have hget : values ∘ items.get = values' ∘ items.get :=
    funext fun index => h _ (items.get_mem index)
  rw [survivors_eq_map_get values, hget, ← survivors_eq_map_get]

end

/-! ### Order -/

section
variable {values : β → List α}

theorem takeIn_sublist (kept : List β) (item : β) :
    (takeIn values kept item).Sublist (kept ++ [item]) := by
  unfold takeIn
  split
  · exact List.sublist_append_left kept [item]
  · exact List.Sublist.append_right List.filter_sublist [item]

theorem unmatched_sublist (items : List β) : (unmatched values items).Sublist items := by
  have hfold (kept : List β) : (items.foldl (takeIn values) kept).Sublist (kept ++ items) := by
    induction items generalizing kept with
    | nil => simp
    | cons item rest ih =>
        refine (ih _).trans ?_
        rw [List.append_cons]
        exact (takeIn_sublist kept item).append_right rest
  exact hfold []

theorem survivors_sublist (settings : Settings α) (items : List β) :
    (survivors settings values items).Sublist items :=
  (winnow_sublist settings _ []).trans (unmatched_sublist items)

end

variable {vectors : Fin n → List α}

/-- The first stage leaves the positions in order. -/
theorem pointwise_eq : pointwise vectors = unmatched vectors (List.finRange n) := by
  refine List.mergeSort_of_pairwise ?_
  refine (List.pairwise_lt_finRange n).sublist (unmatched_sublist _) |>.imp fun hlt => ?_
  exact decide_eq_true hlt.le

/-- **The index stands behind the positions that are kept.** -/
theorem sift_append (settings : Settings α) (waiting kept : List (Fin n)) :
    sift settings vectors (kept ++ waiting) kept.length = winnow settings vectors kept waiting := by
  induction waiting generalizing kept with
  | nil =>
      rw [sift, dif_neg (by simp), List.append_nil]
      rfl
  | cons item rest ih =>
      have hlt : kept.length < (kept ++ item :: rest).length := by simp
      have hitem : (kept ++ item :: rest)[kept.length] = item := List.getElem_of_append rfl rfl
      have hothers : (kept ++ item :: rest).eraseIdx kept.length = kept ++ rest := by
        rw [List.eraseIdx_append_of_length_le (Nat.le_refl _), Nat.sub_self]
        rfl
      rw [sift, dif_pos hlt]
      dsimp only
      rw [hothers, hitem, winnow]
      split
      · have hnext := ih (kept ++ [item])
        rwa [List.length_append, List.length_singleton, ← List.append_cons] at hnext
      · exact ih kept

/-- A vector without others stays. -/
theorem winnow_of_length_le_one (settings : Settings α) {waiting : List (Fin n)}
    (h : waiting.length ≤ 1) : winnow settings vectors [] waiting = waiting := by
  match waiting with
  | [] => rfl
  | [item] => rfl
  | _ :: _ :: _ => simp at h

/-- **The positions left are those of the upper envelope.** -/
theorem survivingPositions_eq (settings : Settings α) (vectors : Fin n → List α) {states : Nat}
    (h : 0 < states) :
    survivingPositions settings vectors states
      = .ok (survivors settings vectors (List.finRange n)) := by
  unfold survivingPositions
  by_cases hempty : n = 0
  · subst hempty
    rfl
  · rw [if_neg hempty, if_neg h.ne', pointwise_eq, survivors]
    refine congrArg Except.ok ?_
    split
    · next hshort => exact (winnow_of_length_le_one settings hshort).symm
    · exact sift_append settings (unmatched vectors (List.finRange n)) []

/-! ### Handing out -/

/-- A walk meets what stands at increasing positions. -/
theorem map_some_met {items : List β} : ∀ {count : Nat} {positions : List Nat},
    positions.Pairwise (· < ·) →
      (∀ position ∈ positions, count ≤ position ∧ position < count + items.length) →
      (met count positions items).map some
        = positions.map fun position => items[position - count]? := by
  induction items with
  | nil =>
      intro count positions _ hbounds
      cases positions with
      | nil => rfl
      | cons next rest =>
          obtain ⟨hle, hlt⟩ := hbounds next List.mem_cons_self
          exact absurd hlt (Nat.not_lt.mpr hle)
  | cons item items ih =>
      intro count positions hascending hbounds
      -- what stands further on stands one place nearer to the end of the walk so far
      have hlater (later : List Nat) (h : ∀ position ∈ later, count + 1 ≤ position) :
          (later.map fun position => items[position - (count + 1)]?)
            = later.map fun position => (item :: items)[position - count]? := by
        refine List.map_congr_left fun position hposition => ?_
        have := h position hposition
        rw [show position - count = position - (count + 1) + 1 by omega, List.getElem?_cons_succ]
      cases positions with
      | nil => rfl
      | cons next rest =>
          obtain ⟨hnext, hrest⟩ := List.pairwise_cons.mp hascending
          rw [List.length_cons] at hbounds
          rw [met]
          split
          · next heq =>
              subst heq
              have hpast : ∀ position ∈ rest, next + 1 ≤ position := hnext
              rw [List.map_cons, List.map_cons, Nat.sub_self, ih hrest fun position hposition => ?_,
                hlater rest hpast]
              · rfl
              · have := hbounds position (List.mem_cons_of_mem _ hposition)
                have := hpast position hposition
                omega
          · next hne =>
              have hpast : ∀ position ∈ next :: rest, count + 1 ≤ position := by
                intro position hposition
                have := (hbounds next List.mem_cons_self).1
                rcases List.mem_cons.mp hposition with rfl | hposition
                · omega
                · have := hnext position hposition
                  omega
              rw [ih hascending fun position hposition => ?_, hlater _ hpast]
              have := hbounds position hposition
              have := hpast position hposition
              omega

/-- **A walk meets all of some positions if they increase.** -/
theorem met_eq {items : List β} {kept : List (Fin items.length)} (h : kept.Pairwise (· < ·)) :
    met 0 (kept.map Fin.val) items = kept.map items.get := by
  refine List.map_injective_iff.mpr (Option.some_injective β) ?_
  rw [map_some_met, List.map_map, List.map_map]
  · refine List.map_congr_left fun position _ => ?_
    exact List.getElem?_eq_getElem position.isLt
  · exact List.pairwise_map.mpr h
  · intro position hposition
    obtain ⟨index, -, rfl⟩ := List.mem_map.mp hposition
    exact ⟨Nat.zero_le _, by rw [Nat.zero_add]; exact index.isLt⟩

/-- Looking up the positions gives the sparse vectors of the envelope. -/
theorem pruneSparse_eq (states : Collection .state) (gamma : List (AlphaVector α)) :
    pruneSparse states gamma = prune states gamma := by
  unfold prune
  by_cases hgamma : gamma = []
  · subst hgamma
    rfl
  · have hlength : gamma.length ≠ 0 := fun hzero => hgamma (List.length_eq_zero_iff.mp hzero)
    rw [if_neg (List.isEmpty_iff.not.mpr hgamma)]
    unfold pruneSparse
    rw [Std.ExtTreeSet.isEmpty_eq_size_beq_zero]
    rcases Nat.eq_zero_or_pos states.size with hsize | hsize
    · rw [survivingPositions, if_neg hlength, if_pos hsize, hsize]
      rfl
    · rw [survivingPositions_eq _ _ hsize, survivors_eq_map_get _ _ gamma,
        if_neg (beq_iff_eq.not.mpr hsize.ne')]
      rfl

theorem prune_eq {states : Collection .state} (h : states ≠ ∅) (gamma : List (AlphaVector α)) :
    prune states gamma
      = .ok (survivors .standard (fun alpha => states.toList.map alpha.get) gamma) := by
  unfold prune
  rw [if_neg (Std.ExtTreeSet.isEmpty_iff.not.mpr h)]
  cases gamma with
  | nil => rfl
  | cons => rfl

/-- Walking over the list gives the dense vectors of the envelope. -/
theorem pruneDense_eq (settings : Settings α) (gamma : List (DenseAlpha α)) {states : Nat}
    (h : 0 < states) :
    pruneDense settings gamma states = .ok (survivors settings DenseAlpha.values gamma) := by
  have hascending : (survivors settings (DenseAlpha.values ∘ gamma.get)
      (List.finRange gamma.length)).Pairwise (· < ·) :=
    (List.pairwise_lt_finRange gamma.length).sublist (survivors_sublist settings _)
  unfold pruneDense
  rw [survivingPositions_eq settings _ h, survivors_eq_map_get _ _ gamma, ← met_eq hascending]
  rfl

end MarkovPlanning.Envelope
