/-
Updates one after the other.

A belief that is updated along a sequence of actions and observations is divided by the sum of
its masses at every step.  The forward masses are never divided: `forward` carries the weights
of the first belief along the tables to the end of the sequence.  Dividing is a matter of
scale, and a step takes scaled weights to weights scaled by the same factor, so after every
step the belief is the forward masses brought to the sum one (`Posterior`).  An update fails
where nothing is left to divide, which is where the forward masses add up to nothing.

The first belief may hold states that the process does not know.  They have a share in the
first step and none afterwards.
-/
import MarkovPlanning.Proofs.Pomdp.Stages
import Mathlib

namespace MarkovPlanning

/-- The states that a belief has an entry for. -/
def Belief.entries {α : Type} (belief : Belief α) : Finset State :=
  (belief.masses.toList.map Prod.fst).toFinset

/-- A belief is zero outside of any set that holds the states it has an entry for. -/
theorem Belief.Clamped.within {K : Type} [Field K] [LinearOrder K] {belief : Belief K}
    {among : Finset State} (hb : belief.Clamped) (hentries : belief.entries ⊆ among) :
    belief.Within among := by
  refine ⟨hb, fun state hstate => Std.ExtTreeMap.getD_eq_fallback fun hmem => hstate ?_⟩
  refine hentries (List.mem_toFinset.mpr ?_)
  rwa [Std.ExtTreeMap.map_fst_toList_eq_keys, Std.ExtTreeMap.mem_keys]

namespace Pomdp

/-- The belief after several actions with an observation each. -/
def updates {α : Type} [Scalar α] (pomdp : Pomdp α) (belief : Belief α)
    (steps : List (Action × Observation)) : Except NumericFault (Belief α) :=
  steps.foldlM (fun belief step => pomdp.update belief step.1 step.2) belief

variable {K : Type} [Field K] [LinearOrder K]

/-! ### Forward masses -/

/-- The masses after one more action and observation.  Only states of the process are come to. -/
def advance (pomdp : Pomdp K) (among : Finset State) (weights : State → K)
    (step : Action × Observation) (next : State) : K :=
  if next ∈ pomdp.states then pomdp.massFrom among weights step.1 step.2 next else 0

/-- The masses of the states at the end of a sequence, not brought to any sum. -/
def forward (pomdp : Pomdp K) (belief : Belief K) (steps : List (Action × Observation)) :
    State → K :=
  steps.foldl (pomdp.advance (pomdp.states.members ∪ belief.entries)) belief.get

variable {pomdp : Pomdp K} {among : Finset State} {weights : State → K} {belief : Belief K}

theorem total_advance (step : Action × Observation) :
    pomdp.total (pomdp.advance among weights step)
      = pomdp.total (pomdp.massFrom among weights step.1 step.2) := by
  unfold total
  exact Finset.sum_congr rfl fun next hnext => if_pos (Collection.mem_members.mp hnext)

theorem massFrom_mul {f : State → K} {c : K} (hf : ∀ state, f state = c * weights state)
    (action : Action) (observation : Observation) (next : State) :
    pomdp.massFrom among f action observation next
      = c * pomdp.massFrom among weights action observation next := by
  simp only [massFrom, hf, mul_assoc, ← Finset.mul_sum]
  exact mul_left_comm _ _ _

/-! ### Beliefs in proportion to masses -/

/-- A belief that is some masses brought to the sum one, with an entry for each positive mass. -/
structure Posterior (pomdp : Pomdp K) (weights : State → K) (belief : Belief K) : Prop where
  support : belief.Over pomdp.states
  get : ∀ state, belief.get state = weights state / pomdp.total weights
  entry : ∀ state ∈ belief.masses, 0 < weights state
  positive : 0 < pomdp.total weights

/-- A belief in proportion to some masses. -/
structure Follows (among : Finset State) (weights : State → K) (belief : Belief K) : Prop where
  within : belief.Within among
  scaled : ∃ c, 0 < c ∧ ∀ state, belief.get state = c * weights state

variable [IsStrictOrderedRing K]

theorem Posterior.follows (h : pomdp.Posterior weights belief)
    (hamong : pomdp.states.members ⊆ among) : Follows among weights belief where
  within := ⟨h.support.clamped, fun state hstate => h.support.support state fun hmem =>
    hstate (hamong (Collection.mem_members.mpr hmem))⟩
  scaled := ⟨(pomdp.total weights)⁻¹, inv_pos.mpr h.positive, fun state => by
    rw [h.get, div_eq_inv_mul]⟩

theorem Posterior.mem_states (h : pomdp.Posterior weights belief) {state : State}
    (hstate : state ∈ belief.masses) : state ∈ pomdp.states := by
  by_contra hmem
  have hzero := h.get state
  rw [h.support.support state hmem] at hzero
  exact (div_pos (h.entry state hstate) h.positive).ne hzero

omit [IsStrictOrderedRing K] in
/-- It adds up to one. -/
theorem Posterior.total_eq_one (h : pomdp.Posterior weights belief) : belief.total = 1 := by
  rw [← total_get h.support, total]
  simp only [h.get]
  rw [← Finset.sum_div]
  exact div_self h.positive.ne'

theorem Posterior.entry_mem (h : pomdp.Posterior weights belief) {entry : State × K}
    (hentry : entry ∈ belief.toList) : entry.1 ∈ pomdp.states ∧ 0 < entry.2 ∧ entry.2 ≤ 1 := by
  have hmem : entry.1 ∈ belief.masses := by
    rw [← Std.ExtTreeMap.mem_keys, ← Std.ExtTreeMap.map_fst_toList_eq_keys]
    exact List.mem_map_of_mem hentry
  have hvalue : belief.get entry.1 = entry.2 := EntityMap.getD_of_mem_toList hentry 0
  rw [← hvalue]
  refine ⟨h.mem_states hmem, ?_, (h.support.clamped _).2⟩
  rw [h.get]
  exact div_pos (h.entry _ hmem) h.positive

namespace Follows

variable {step : Action × Observation}

omit [IsStrictOrderedRing K] in
/-- The masses of the belief are those of the weights, scaled by one factor. -/
private theorem massFrom_get (hf : Follows among weights belief) (pomdp : Pomdp K)
    (step : Action × Observation) :
    ∃ c, 0 < c ∧ (∀ next, pomdp.massFrom among belief.get step.1 step.2 next
        = c * pomdp.massFrom among weights step.1 step.2 next) ∧
      pomdp.total (pomdp.massFrom among belief.get step.1 step.2)
        = c * pomdp.total (pomdp.advance among weights step) := by
  obtain ⟨c, hc, hget⟩ := hf.scaled
  refine ⟨c, hc, massFrom_mul hget _ _, ?_⟩
  rw [total_advance, total, total, Finset.mul_sum]
  exact Finset.sum_congr rfl fun next _ => massFrom_mul hget _ _ next

/-- **An update that finds masses brings them to the sum one.** -/
theorem update_ok (h : pomdp.Clamped) (hf : Follows among weights belief)
    (hpos : 0 < pomdp.total (pomdp.advance among weights step)) :
    ∃ updated, pomdp.update belief step.1 step.2 = .ok updated ∧
      pomdp.Posterior (pomdp.advance among weights step) updated := by
  obtain ⟨c, hc, hmass, htotal⟩ := hf.massFrom_get pomdp step
  obtain ⟨updated, hupdate, hover, hget, hentry⟩ := update_eq_ok h hf.within
    (htotal ▸ mul_pos hc hpos)
  refine ⟨updated, hupdate, hover, fun state => ?_, fun state hstate => ?_, hpos⟩
  · by_cases hstate : state ∈ pomdp.states
    · rw [hget state hstate, hmass, htotal, mul_div_mul_left _ _ hc.ne', advance, if_pos hstate]
    · rw [hover.support state hstate, advance, if_neg hstate, zero_div]
  · obtain ⟨hmem, hstate⟩ := hentry state hstate
    rw [hmass] at hstate
    rw [advance, if_pos hmem]
    exact pos_of_mul_pos_right hstate hc.le

/-- **An update that finds no masses fails.** -/
theorem update_error (h : pomdp.Clamped) (hf : Follows among weights belief)
    (hzero : pomdp.total (pomdp.advance among weights step) ≤ 0) :
    pomdp.update belief step.1 step.2 = .error (.impossible step.2 step.1) := by
  obtain ⟨c, hc, -, htotal⟩ := hf.massFrom_get pomdp step
  exact update_eq_error h hf.within (htotal ▸ mul_nonpos_of_nonneg_of_nonpos hc.le hzero)

/-! ### Sequences -/

/-- Updates along a sequence succeed where every part of it leaves some mass. -/
theorem updates_ok (h : pomdp.Clamped) (hamong : pomdp.states.members ⊆ among) :
    ∀ (rest : List (Action × Observation)) (step : Action × Observation) {belief : Belief K}
      {weights : State → K}, Follows among weights belief →
      (∀ made, made <+: step :: rest → made ≠ [] →
        0 < pomdp.total (made.foldl (pomdp.advance among) weights)) →
      ∃ updated, pomdp.updates belief (step :: rest) = .ok updated ∧
        pomdp.Posterior ((step :: rest).foldl (pomdp.advance among) weights) updated := by
  intro rest
  induction rest with
  | nil =>
      intro step belief weights hf hpos
      obtain ⟨updated, hupdate, hposterior⟩ :=
        hf.update_ok h (hpos [step] List.prefix_rfl (List.cons_ne_nil _ _))
      exact ⟨updated, by rw [updates, List.foldlM_cons, hupdate]; rfl, hposterior⟩
  | cons second rest ih =>
      intro step belief weights hf hpos
      obtain ⟨updated, hupdate, hposterior⟩ := hf.update_ok h
        (hpos [step] (List.prefix_append [step] _) (List.cons_ne_nil _ _))
      obtain ⟨last, hlast, hposterior'⟩ := ih second (hposterior.follows hamong)
        fun made hmade _ => hpos (step :: made) ((List.prefix_cons_inj step).mpr hmade)
          (List.cons_ne_nil _ _)
      refine ⟨last, ?_, hposterior'⟩
      rw [updates, List.foldlM_cons, hupdate]
      exact hlast

/-- Updates along a sequence fail where some part of it leaves no mass. -/
theorem updates_error (h : pomdp.Clamped) (hamong : pomdp.states.members ⊆ among) :
    ∀ (steps : List (Action × Observation)) {belief : Belief K} {weights : State → K},
      Follows among weights belief → ∀ made, made <+: steps → made ≠ [] →
      pomdp.total (made.foldl (pomdp.advance among) weights) ≤ 0 →
      ∃ fault, pomdp.updates belief steps = .error fault := by
  intro steps
  induction steps with
  | nil => intro belief weights _ made hmade hne _; exact absurd (List.prefix_nil.mp hmade) hne
  | cons step rest ih =>
      intro belief weights hf made hmade hne hzero
      rw [updates, List.foldlM_cons]
      rcases le_or_gt (pomdp.total (pomdp.advance among weights step)) 0 with hle | hpos
      · exact ⟨_, by rw [hf.update_error h hle]; rfl⟩
      · obtain ⟨updated, hupdate, hposterior⟩ := hf.update_ok h hpos
        obtain ⟨later, rfl, hlater⟩ := (List.prefix_cons_iff.mp hmade).resolve_left hne
        -- the first step leaves some mass, so it is a later one that does not
        have hne' : later ≠ [] := by
          intro hnil
          rw [hnil] at hzero
          exact hzero.not_gt hpos
        rw [hupdate]
        exact ih (hposterior.follows hamong) later hlater hne' hzero

end Follows

/-! ### The filter -/

/-- **Updates along a sequence succeed exactly if the forward masses never run out, and lead to
the forward masses brought to the sum one.** -/
theorem updates_forward (h : pomdp.Clamped) (hb : belief.Clamped)
    {steps : List (Action × Observation)} (hsteps : steps ≠ []) :
    ((∃ updated, pomdp.updates belief steps = .ok updated) ↔
      ∀ made, made <+: steps → made ≠ [] → 0 < pomdp.total (pomdp.forward belief made)) ∧
    ∀ updated, pomdp.updates belief steps = .ok updated →
      (∀ state, updated.get state
        = pomdp.forward belief steps state / pomdp.total (pomdp.forward belief steps)) ∧
      updated.total = 1 ∧
      ∀ entry ∈ updated.toList, entry.1 ∈ pomdp.states ∧ 0 < entry.2 ∧ entry.2 ≤ 1 := by
  have hfollows : Follows (pomdp.states.members ∪ belief.entries) belief.get belief :=
    ⟨Belief.Clamped.within hb Finset.subset_union_right, 1, one_pos, fun state => (one_mul _).symm⟩
  obtain ⟨step, rest, rfl⟩ := List.exists_cons_of_ne_nil hsteps
  have hok := hfollows.updates_ok h Finset.subset_union_left rest step
  have hnever : ∀ updated, pomdp.updates belief (step :: rest) = .ok updated →
      ∀ made, made <+: step :: rest → made ≠ [] → 0 < pomdp.total (pomdp.forward belief made) := by
    intro updated hupdated made hmade hne
    by_contra hzero
    obtain ⟨fault, hfault⟩ := hfollows.updates_error h Finset.subset_union_left _ made hmade hne
      (not_lt.mp hzero)
    rw [hupdated] at hfault
    cases hfault
  refine ⟨⟨fun hsucceeds => ?_, fun hpos => ?_⟩, fun updated hupdated => ?_⟩
  · obtain ⟨updated, hupdated⟩ := hsucceeds
    exact hnever updated hupdated
  · obtain ⟨updated, hupdated, -⟩ := hok hpos
    exact ⟨updated, hupdated⟩
  · obtain ⟨updated', hupdated', hposterior⟩ := hok (hnever updated hupdated)
    obtain rfl : updated = updated' := Except.ok.inj (hupdated.symm.trans hupdated')
    exact ⟨hposterior.get, hposterior.total_eq_one, fun entry => hposterior.entry_mem⟩

/-- The cups, with a coin that may come to lie under the left one from anywhere. -/
def dealt : Pomdp ℚ :=
  { cups 2 with
    transitions := (cups 2).transitions.set none none (some (.named .state "left")) (1/2) }

/-- The coin is in a hand that the process does not know, or under the right cup.  Darkness is
never seen there, so it must have come to lie under the left one; a second belief, under which
that cannot be, is not updated by darkness. -/
theorem updates_forward_dealt :
    let left : State := .named .state "left"
    let right : State := .named .state "right"
    let look : Action := .named .action "look"
    let dark : Observation := .named .observation "dark"
    let bright : Observation := .named .observation "bright"
    let belief : Belief ℚ := .ofList [(.named .state "hand", 1/2), (right, 1/2)]
    let steps := [(look, dark), (look, bright)]
    dealt.Clamped ∧ belief.Clamped ∧ steps ≠ [] ∧
      (∃ updated, dealt.updates belief steps = .ok updated ∧ updated.get left = 1 ∧
        updated.total = 1 ∧
        ∀ entry ∈ updated.toList, entry.1 ∈ dealt.states ∧ 0 < entry.2 ∧ entry.2 ≤ 1) ∧
      ¬∃ updated, (cups 2).updates (.ofList [(right, 1)]) steps = .ok updated := by
  intro left right look dark bright belief steps
  have hdealt : dealt.Clamped :=
    ⟨(cups_clamped 2).transitions.insert _ _, (cups_clamped 2).observationChances,
      (cups_clamped 2).horizon⟩
  refine ⟨hdealt, Belief.clamped_ofList _, List.cons_ne_nil _ _, ?_, fun hsucceeds => ?_⟩
  · obtain ⟨-, hspec⟩ := updates_forward hdealt (Belief.clamped_ofList _)
      (List.cons_ne_nil _ _ : steps ≠ [])
    have hupdates : (dealt.updates belief steps).toOption.isSome = true := by decide +kernel
    cases hresult : dealt.updates belief steps with
    | error fault => rw [hresult] at hupdates; cases hupdates
    | ok updated =>
        obtain ⟨hget, htotal, hentries⟩ := hspec updated hresult
        refine ⟨updated, rfl, ?_, htotal, hentries⟩
        rw [hget]
        decide +kernel
  · have hpos := (updates_forward (cups_clamped 2) (Belief.clamped_ofList _)
      (List.cons_ne_nil _ _ : steps ≠ [])).1.mp hsucceeds [(look, dark)]
      (List.prefix_append [(look, dark)] _) (List.cons_ne_nil _ _)
    exact absurd hpos (by decide +kernel)

end Pomdp

end MarkovPlanning
