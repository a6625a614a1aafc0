/-
Which vectors a solved process is given.

Value iteration starts from no vectors and takes one step for every decision to go:
`gamma` is what it has after so many steps.  Over a finite span the set of an epoch
is the one with as many steps as decisions are left (`solve_spec`), and every set but
the first one holds something, since pruning never drops everything.  That much is so in any
arithmetic.

The vectors themselves are backups that were not pruned: each looks ahead, by one of
the actions, to vectors of the set before.
-/
import MarkovPlanning.Proofs.Pomdp.Backup
import MarkovPlanning.Proofs.Pomdp.Envelope
import MarkovPlanning.Proofs.Policy.Vectors
import Mathlib

namespace MarkovPlanning

variable {K : Type} [Field K] [LinearOrder K]

namespace Pomdp

/-! ### The resolved process -/

section
variable {α : Type} [Scalar α] {pomdp : Pomdp α}

/-- There are states, actions and observations. -/
structure Populated (pomdp : Pomdp α) : Prop where
  states : pomdp.states ≠ ∅
  actions : pomdp.actions ≠ ∅
  observations : pomdp.observations ≠ ∅

/-- The numbers behind a process. -/
def resolved (pomdp : Pomdp α) : DensePomdp α where
  states := pomdp.states.toList
  observations := pomdp.observations.toList
  actions := pomdp.actions.toList.map pomdp.denseAction
  discount := pomdp.horizon.discount

omit [Scalar α] in
theorem isEmpty_iff_not_populated :
    (pomdp.states.isEmpty || pomdp.actions.isEmpty || pomdp.observations.isEmpty) = true ↔
      ¬ pomdp.Populated := by
  simp only [Bool.or_eq_true, Std.ExtTreeSet.isEmpty_iff]
  constructor
  · intro hempty hpopulated
    have := hpopulated.states
    have := hpopulated.actions
    have := hpopulated.observations
    tauto
  · intro hnot
    by_contra hempty
    simp only [not_or] at hempty
    exact hnot ⟨hempty.1.1, hempty.1.2, hempty.2⟩

omit [Scalar α] in
theorem not_populated_iff :
    ¬ pomdp.Populated ↔ pomdp.states = ∅ ∨ pomdp.actions = ∅ ∨ pomdp.observations = ∅ := by
  rw [← isEmpty_iff_not_populated]
  simp only [Bool.or_eq_true, Std.ExtTreeSet.isEmpty_iff, or_assoc]

theorem dense_eq_ok_iff {model : DensePomdp α} :
    pomdp.dense = .ok model ↔ pomdp.Populated ∧ pomdp.resolved = model := by
  unfold dense
  by_cases hpopulated : pomdp.Populated
  · rw [if_neg (mt isEmpty_iff_not_populated.mp (not_not_intro hpopulated))]
    exact ⟨fun h => ⟨hpopulated, Except.ok.inj h⟩, fun h => congrArg Except.ok h.2⟩
  · rw [if_pos (isEmpty_iff_not_populated.mpr hpopulated)]
    exact ⟨fun h => (nomatch h), fun h => absurd h.1 hpopulated⟩

theorem map_denseAction_ne_nil (hpopulated : pomdp.Populated) :
    pomdp.actions.toList.map pomdp.denseAction ≠ [] := by
  obtain ⟨action, haction⟩ := Collection.exists_mem hpopulated.actions
  exact List.ne_nil_of_mem (List.mem_map_of_mem (Std.ExtTreeSet.mem_toList.mpr haction))

end

variable {pomdp : Pomdp K}

/-- The vector of a policy for a list of coefficients. -/
theorem sparse_eq {alpha : DenseAlpha K} {f : State → K} (h : alpha.values = pomdp.tabulate f) :
    pomdp.resolved.sparse alpha
      = .ofList alpha.action (pomdp.states.toList.map fun state => (state, f state)) := by
  have hzip : pomdp.states.toList.zip alpha.values
      = pomdp.states.toList.map fun state => (state, f state) := by
    have hmap := @List.zip_map' _ _ _ id f pomdp.states.toList
    rwa [List.map_id, ← tabulate, ← h] at hmap
  exact congrArg (AlphaVector.ofList alpha.action) hzip

/-- A vector of a policy has the coefficients of the function it tabulates. -/
theorem get_sparse {alpha : DenseAlpha K} {f : State → K} (h : alpha.values = pomdp.tabulate f)
    (state : State) :
    (pomdp.resolved.sparse alpha).get state = if state ∈ pomdp.states then f state else 0 := by
  rw [sparse_eq h, AlphaVector.get_ofList_map]
  simp only [Std.ExtTreeSet.mem_toList]

/-- A vector of a policy has the value of the function it tabulates. -/
theorem dot_sparse {alpha : DenseAlpha K} {f : State → K} (h : alpha.values = pomdp.tabulate f)
    (belief : Belief K) :
    (pomdp.resolved.sparse alpha).dot belief = pomdp.expect belief.get f := by
  rw [sparse_eq h]
  exact AlphaVector.dot_ofList_map alpha.action pomdp.states f belief

theorem action_sparse (alpha : DenseAlpha K) :
    (pomdp.resolved.sparse alpha).action = alpha.action :=
  AlphaVector.action_ofList _ _

/-! ### Backups for every action -/

theorem mem_backups {prior : List (DenseAlpha K)} {alpha : DenseAlpha K} :
    alpha ∈ (pomdp.resolved.backups prior).flatten ↔ ∃ action ∈ pomdp.actions,
      alpha ∈ (pomdp.denseAction action).backup pomdp.horizon.discount prior := by
  unfold DensePomdp.backups resolved
  simp only [List.map_map, List.mem_flatten, List.mem_map, Function.comp_apply,
    Std.ExtTreeSet.mem_toList]
  constructor
  · intro h
    obtain ⟨-, ⟨action, haction, rfl⟩, hmem⟩ := h
    exact ⟨action, haction, hmem⟩
  · intro h
    obtain ⟨action, haction, hmem⟩ := h
    exact ⟨_, ⟨action, haction, rfl⟩, hmem⟩

/-- The vectors of one decision state its rewards. -/
theorem mem_backups_nil {alpha : DenseAlpha K} :
    alpha ∈ (pomdp.resolved.backups []).flatten ↔ alpha.action ∈ pomdp.actions ∧
      alpha.values = pomdp.tabulate fun state => pomdp.expectedReward state alpha.action := by
  rw [mem_backups]
  constructor
  · intro h
    obtain ⟨action, haction, hmem⟩ := h
    rw [backup_nil, List.mem_singleton] at hmem
    subst hmem
    exact ⟨haction, rfl⟩
  · intro h
    obtain ⟨haction, hvalues⟩ := h
    refine ⟨alpha.action, haction, ?_⟩
    rw [backup_nil, List.mem_singleton]
    exact DenseAlpha.ext rfl hvalues

/-- **The vectors of one more decision look ahead to those of a set**, in every way. -/
theorem mem_backups_of_ne_nil {prior : List (DenseAlpha K)} (hprior : prior ≠ [])
    (htabulated : pomdp.Tabulated prior) {alpha : DenseAlpha K} :
    alpha ∈ (pomdp.resolved.backups prior).flatten ↔ alpha.action ∈ pomdp.actions ∧
      ∃ after : Observation → State → K,
        (∀ observation ∈ pomdp.observations, pomdp.Offers prior (after observation)) ∧
          alpha.values = pomdp.tabulate (pomdp.lookAhead alpha.action after) := by
  rw [mem_backups]
  simp only [mem_backup hprior htabulated]
  constructor
  · intro h
    obtain ⟨action, haction, rfl, hafter⟩ := h
    exact ⟨haction, hafter⟩
  · intro h
    obtain ⟨haction, hafter⟩ := h
    exact ⟨alpha.action, haction, rfl, hafter⟩

theorem backups_tabulated {prior : List (DenseAlpha K)} (htabulated : pomdp.Tabulated prior) :
    pomdp.Tabulated (pomdp.resolved.backups prior).flatten := by
  intro alpha halpha
  by_cases hprior : prior = []
  · rw [hprior] at halpha
    exact ⟨_, (mem_backups_nil.mp halpha).2⟩
  · obtain ⟨-, after, -, hvalues⟩ := (mem_backups_of_ne_nil hprior htabulated).mp halpha
    exact ⟨_, hvalues⟩

end Pomdp

/-! ### The sets of the iteration -/

namespace EnvelopeIteration

section
variable {α : Type} [Scalar α] {solver : EnvelopeIteration α} {pomdp : Pomdp α}

/-- The vectors after so many steps. -/
def gamma (solver : EnvelopeIteration α) (model : DensePomdp α) (decisions : Nat) :
    List (DenseAlpha α) :=
  Nat.repeat (solver.step model) decisions []

theorem step_subset (model : DensePomdp α) (prior : List (DenseAlpha α)) :
    solver.step model prior ⊆ (model.backups prior).flatten :=
  Envelope.survivors_subset _ _

theorem gamma_ne_nil (hpopulated : pomdp.Populated) (decisions : Nat) :
    solver.gamma pomdp.resolved (decisions + 1) ≠ [] :=
  Envelope.survivors_ne_nil _
    (DensePomdp.backups_ne_nil (Pomdp.map_denseAction_ne_nil hpopulated) _)

theorem back?_stages (model : DensePomdp α) : ∀ (decisions : Nat),
    (stages solver model decisions).back?.getD [] = solver.gamma model decisions := by
  intro decisions
  induction decisions with
  | zero => rfl
  | succ decisions ih =>
      unfold stages
      rw [Vector.back?_eq_getElem?, Nat.add_sub_cancel, Vector.getElem?_push_size,
        Option.getD_some, ih]
      rfl

theorem getElem_stages (model : DensePomdp α) : ∀ (decisions i : Nat) (h : i < decisions),
    (stages solver model decisions)[i] = solver.gamma model (i + 1) := by
  intro decisions
  induction decisions with
  | zero => intro i h; exact absurd h (Nat.not_lt_zero i)
  | succ decisions ih =>
      intro i h
      unfold stages
      rw [Vector.getElem_push]
      split
      · rename_i hi
        exact ih i hi
      · rename_i hi
        obtain rfl : i = decisions := by omega
        rw [back?_stages]
        rfl

/-! ### The policy -/

theorem populated_of_solve {policy : VectorPolicy α} (h : solver.solve pomdp = .ok policy) :
    pomdp.Populated := by
  unfold solve at h
  cases hdense : pomdp.dense with
  | error fault => rw [hdense] at h; cases h
  | ok model => exact (Pomdp.dense_eq_ok_iff.mp hdense).1

/-- **Every epoch gets the vectors of the decisions that are left**, and an endless span those of
the backups asked for. -/
theorem solve_spec (solver : EnvelopeIteration α) (hpopulated : pomdp.Populated) :
    ∃ policy, solver.solve pomdp = .ok policy ∧ policy.span = pomdp.horizon.toSpan ∧
      (∀ epoch < pomdp.horizon.epochs, policy.gamma epoch
        = .ok ((solver.gamma pomdp.resolved (pomdp.horizon.epochs - epoch)).map
            pomdp.resolved.sparse)) ∧
      (pomdp.horizon.epochs = 0 → policy.gamma 0
        = .ok ((solver.gamma pomdp.resolved solver.backups).map pomdp.resolved.sparse)) := by
  have hdense : pomdp.dense = .ok pomdp.resolved := Pomdp.dense_eq_ok_iff.mpr ⟨hpopulated, rfl⟩
  unfold solve
  rw [hdense]
  by_cases hfinite : 0 < pomdp.horizon.epochs
  · refine ⟨_, dif_pos hfinite, rfl, fun epoch hepoch => ?_, fun h => absurd h hfinite.ne'⟩
    have hslot : epoch < pomdp.horizon.toSpan.slots := lt_of_lt_of_le hepoch (le_max_left _ _)
    unfold VectorPolicy.gamma
    rw [dif_pos hslot]
    simp only [Vector.getElem_cast, Vector.getElem_map, Vector.getElem_reverse, getElem_stages]
    congr 3
    omega
  · refine ⟨_, dif_neg hfinite, rfl, fun epoch hepoch => absurd hepoch (by omega), fun _ => ?_⟩
    unfold VectorPolicy.gamma
    rw [dif_pos (Span.slots_pos _)]
    simp only [Vector.getElem_replicate]
    rfl

end

variable {solver : EnvelopeIteration K} {pomdp : Pomdp K}

theorem gamma_tabulated : ∀ (decisions : Nat),
    pomdp.Tabulated (solver.gamma pomdp.resolved decisions) := by
  intro decisions
  induction decisions with
  | zero => intro alpha halpha; exact absurd halpha List.not_mem_nil
  | succ decisions ih =>
      intro alpha halpha
      exact Pomdp.backups_tabulated ih alpha (step_subset _ _ halpha)

/-- A policy with the vectors of some decisions has their greatest value at a belief. -/
theorem value_gamma (hpopulated : pomdp.Populated) {policy : VectorPolicy K}
    {epoch decisions : Nat}
    (h : policy.gamma epoch
      = .ok ((solver.gamma pomdp.resolved (decisions + 1)).map pomdp.resolved.sparse))
    (belief : Belief K) :
    ∃ best, policy.value epoch belief = .ok best ∧ policy.get epoch belief = .ok best.2 ∧
      (∃ alpha ∈ solver.gamma pomdp.resolved (decisions + 1), alpha.action = best.2 ∧
        ∀ f, alpha.values = pomdp.tabulate f → pomdp.expect belief.get f = best.1) ∧
      ∀ f, pomdp.Offers (solver.gamma pomdp.resolved (decisions + 1)) f →
        pomdp.expect belief.get f ≤ best.1 := by
  obtain ⟨best, hvalue, hget, hbest⟩ := VectorPolicy.value_spec h
    (by simpa using gamma_ne_nil hpopulated decisions) belief
  refine ⟨best, hvalue, hget, ?_, ?_⟩
  · obtain ⟨sparse, hsparse, hdot, haction⟩ := hbest.attained
    obtain ⟨alpha, halpha, rfl⟩ := List.mem_map.mp hsparse
    refine ⟨alpha, halpha, (Pomdp.action_sparse alpha).symm.trans haction, fun f hf => ?_⟩
    rw [← Pomdp.dot_sparse hf, hdot]
  · intro f h
    obtain ⟨alpha, halpha, hf⟩ := h
    rw [← Pomdp.dot_sparse hf]
    exact hbest.greatest _ (List.mem_map_of_mem halpha)

end EnvelopeIteration

/-! ### A small process

A coin lies under the left or the right of two cups.  Lifting the left one wins the coin or costs
two, so it is worth a look first, which may or may not find the coin on the left.
-/

def cups (epochs : Nat) : Pomdp ℚ :=
  let left : State := .named .state "left"
  let right : State := .named .state "right"
  let lift : Action := .named .action "lift"
  let dark : Observation := .named .observation "dark"
  let bright : Observation := .named .observation "bright"
  { states := .ofList [left, right]
    actions := .ofList [.named .action "look", lift]
    observations := .ofList [dark, bright]
    transitions := TransitionTable.set
      (TransitionTable.set {} (some left) none (some left) 1) (some right) none (some right) 1
    observationChances := ObservationTable.set (ObservationTable.set (ObservationTable.set {}
      none (some left) (some dark) (3/4)) none (some left) (some bright) (1/4))
      none (some right) (some bright) 1
    rewards := RewardTable.insert (RewardTable.insert {}
      (.cons (some left) (.cons (some lift) (.cons none (.cons none .nil)))) 1)
      (.cons (some right) (.cons (some lift) (.cons none (.cons none .nil)))) (-2)
    horizon := (Horizon.finite epochs).withDiscount (9/10) }

theorem cups_populated (epochs : Nat) : (cups epochs).Populated where
  states := by simp [cups, Collection.ofList]
  actions := by simp [cups, Collection.ofList]
  observations := by simp [cups, Collection.ofList]

theorem cups_clamped (epochs : Nat) : (cups epochs).Clamped where
  transitions := (ProbabilityTable.clamped_empty.insert _ _).insert _ _
  observationChances := ((ProbabilityTable.clamped_empty.insert _ _).insert _ _).insert _ _
  horizon := Horizon.clamped_withDiscount _ _

end MarkovPlanning
