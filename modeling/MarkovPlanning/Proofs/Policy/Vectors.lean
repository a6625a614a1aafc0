/-
What a vector policy says of a belief.

The vectors of an epoch are gone through once, and the best so far is given up only
for a better one.  Without rounding all values compare, so what is left at the end is
the maximum (`value_spec`): it is attained by the vector whose action is handed out,
and no vector exceeds it.
-/
import MarkovPlanning.Proofs.Entity.Sum
import MarkovPlanning.Policy.Vectors
import Mathlib

namespace MarkovPlanning

variable {K : Type} [Field K] [LinearOrder K]

/-! ### Values of vectors -/

namespace AlphaVector

omit [Field K] [LinearOrder K] in
theorem foldl_set_values (values : List (State × K)) : ∀ (alpha : AlphaVector K),
    values.foldl (fun alpha value => alpha.set value.1 value.2) alpha
      = { alpha with
          values := values.foldl (fun values value => values.insert value.1 value.2)
            alpha.values } := by
  induction values with
  | nil => intro alpha; rfl
  | cons value rest ih => intro alpha; exact ih _

omit [Field K] [LinearOrder K] in
theorem action_ofList (action : Action) (values : List (State × K)) :
    (ofList action values).action = action := by
  rw [ofList, foldl_set_values]

theorem get_ofList_map (action : Action) (states : List State) (f : State → K) (state : State) :
    (ofList action (states.map fun state => (state, f state))).get state
      = if state ∈ states then f state else 0 := by
  unfold get ofList
  rw [foldl_set_values]
  dsimp only
  rw [List.foldl_map, EntityMap.getD_foldl_insert, Std.ExtTreeMap.getD_empty]

/-- The value of a vector that tabulates a function over a collection of states. -/
theorem dot_ofList_map (action : Action) (states : Collection .state) (f : State → K)
    (belief : Belief K) :
    (ofList action (states.toList.map fun state => (state, f state))).dot belief
      = ∑ state ∈ states.members, belief.get state * f state := by
  let alpha : AlphaVector K := ofList action (states.toList.map fun state => (state, f state))
  have hget : ∀ state, alpha.values.getD state 0
      = if state ∈ states.toList then f state else 0 :=
    get_ofList_map action states.toList f
  have houtside : ∀ state, state ∉ states.members → alpha.values.getD state 0 = 0 := by
    intro state hstate
    rw [hget, if_neg fun h => hstate (List.mem_toFinset.mpr h)]
  have hsum := EntityMap.sum_toList alpha.values belief.get houtside
  show Scalar.sum (alpha.values.toList.map fun value => belief.get value.1 * value.2) = _
  simp only [Scalar.sum_eq, mul_comm (belief.get _)]
  rw [hsum]
  refine Finset.sum_congr rfl fun state hstate => ?_
  rw [hget, if_pos (List.mem_toFinset.mp hstate)]

end AlphaVector

/-! ### The best vector -/

namespace VectorPolicy

theorem best?_concat {α : Type} [Scalar α] (gamma : List (AlphaVector α)) (last : AlphaVector α)
    (belief : Belief α) :
    best? (gamma ++ [last]) belief = some (match best? gamma belief with
      | none => (last.dot belief, last.action)
      | some best =>
        if best.1 < last.dot belief then (last.dot belief, last.action) else best) := by
  unfold best?
  rw [List.foldl_concat]
  cases List.foldl _ none gamma with
  | none => rfl
  | some best => exact (apply_ite some _ _ _).symm

theorem value_eq_of_best? {α : Type} [Scalar α] {policy : VectorPolicy α} {epoch : Nat}
    {gamma : List (AlphaVector α)} {belief : Belief α} {best : α × Action}
    (hgamma : policy.gamma epoch = .ok gamma) (hbest : best? gamma belief = some best) :
    policy.value epoch belief = .ok best ∧ policy.get epoch belief = .ok best.2 := by
  have hvalue : policy.value epoch belief = .ok best := by
    rw [value, hgamma]
    dsimp only [bind, Except.bind]
    rw [hbest]
  refine ⟨hvalue, ?_⟩
  rw [get, hvalue]
  rfl

/-- A value that some vector of a set has, with its action, and that none exceeds. -/
structure Best (gamma : List (AlphaVector K)) (belief : Belief K) (best : K × Action) : Prop where
  attained : ∃ alpha ∈ gamma, alpha.dot belief = best.1 ∧ alpha.action = best.2
  greatest : ∀ alpha ∈ gamma, alpha.dot belief ≤ best.1

namespace Best

variable {gamma : List (AlphaVector K)} {last : AlphaVector K} {belief : Belief K}
  {best : K × Action}

theorem replace (h : Best gamma belief best) (hlt : best.1 < last.dot belief) :
    Best (gamma ++ [last]) belief (last.dot belief, last.action) := by
  refine ⟨⟨last, by simp, rfl, rfl⟩, fun other hother => ?_⟩
  rcases List.mem_append.mp hother with hother | hother
  · exact le_trans (h.greatest other hother) hlt.le
  · rw [List.mem_singleton.mp hother]

theorem keep (h : Best gamma belief best) (hnot : ¬best.1 < last.dot belief) :
    Best (gamma ++ [last]) belief best := by
  obtain ⟨first, hfirst, hattained⟩ := h.attained
  refine ⟨⟨first, List.mem_append_left _ hfirst, hattained⟩, fun other hother => ?_⟩
  rcases List.mem_append.mp hother with hother | hother
  · exact h.greatest other hother
  · rw [List.mem_singleton.mp hother]
    exact not_lt.mp hnot

end Best

theorem best?_spec {gamma : List (AlphaVector K)} (hgamma : gamma ≠ []) (belief : Belief K) :
    ∃ best, best? gamma belief = some best ∧ Best gamma belief best := by
  obtain ⟨first, rest, rfl⟩ := List.exists_cons_of_ne_nil hgamma
  clear hgamma
  induction rest using List.reverseRecOn with
  | nil =>
      refine ⟨_, rfl, ⟨first, List.mem_singleton_self _, rfl, rfl⟩, fun other hother => ?_⟩
      rw [List.mem_singleton.mp hother]
  | append_singleton rest last ih =>
      obtain ⟨best, hbest, hspec⟩ := ih
      rw [← List.cons_append, best?_concat, hbest]
      refine ⟨_, rfl, ?_⟩
      dsimp only
      split
      · next hlt => exact hspec.replace hlt
      · next hnot => exact hspec.keep hnot

/-- **The value at a belief is the greatest of the vectors of the epoch**, and the action is that
of a vector that has it. -/
theorem value_spec {policy : VectorPolicy K} {epoch : Nat} {gamma : List (AlphaVector K)}
    (h : policy.gamma epoch = .ok gamma) (hgamma : gamma ≠ []) (belief : Belief K) :
    ∃ best, policy.value epoch belief = .ok best ∧ policy.get epoch belief = .ok best.2 ∧
      Best gamma belief best := by
  obtain ⟨best, hbest, hspec⟩ := best?_spec hgamma belief
  obtain ⟨hvalue, hget⟩ := value_eq_of_best? h hbest
  exact ⟨best, hvalue, hget, hspec⟩

end VectorPolicy

end MarkovPlanning
