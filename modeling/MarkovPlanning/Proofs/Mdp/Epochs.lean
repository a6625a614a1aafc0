/-
Backward induction decides best over a finite span.

A stage has the values with some number of decisions to go, and one more decision backs them
up.  What is proved about stages is proved decision by decision, and twice: whoever follows
the choices of the stages earns just the values (`earned_follow`), and no strategy, whatever
it remembers, earns more (`earned_le_stages`).  A backup is worth what its action is worth,
and no action is worth more; nothing else is needed, and in particular not that the chances
of a decision add up to one.

A policy is followed along its cursor, and its epochs count from the first decision to the last.
So the stages stand in it in the reverse order: an epoch has the choice of the stage with as
many decisions to go as there are epochs after it (`mapping_solveFinite`).
-/
import MarkovPlanning.Mdp.ValueIteration
import MarkovPlanning.Proofs.Mdp.Slack
import Mathlib

namespace MarkovPlanning

/-! ### Following a policy -/

namespace PolicyMap

/-- The decisions of a policy that is followed from its cursor on.  A policy that does not decide
a state is not followed any further. -/
def follow : PolicyMap → Strategy
  | policy, [], state =>
    match policy.next state with
    | .ok (action, _) => action
    | .error _ => default
  | policy, first :: past, state =>
    match policy.next first with
    | .ok (_, later) => later.follow past state
    | .error _ => default

variable {policy : PolicyMap} {epoch : Nat} {state : State} {action : Action}

theorem next_of_get (hfinite : 0 < policy.span.epochs)
    (h : policy.get epoch state = .ok action) :
    { policy with cursor := epoch }.next state
      = .ok (action, { policy with cursor := epoch + 1 }) := by
  have hspan : policy.span.next epoch = epoch + 1 := if_pos (decide_eq_true hfinite)
  show (policy.get epoch state >>= fun action =>
    pure (action, { policy with cursor := policy.span.next epoch })) = _
  rw [h, hspan]
  rfl

/-- What a policy decides first when it is followed. -/
theorem follow_nil (hfinite : 0 < policy.span.epochs)
    (h : policy.get epoch state = .ok action) :
    { policy with cursor := epoch }.follow [] state = action := by
  simp only [follow, next_of_get hfinite h]

/-- After the first decision a policy is followed from the next epoch on. -/
theorem follow_after (hfinite : 0 < policy.span.epochs)
    (h : policy.get epoch state = .ok action) :
    Strategy.after { policy with cursor := epoch }.follow state
      = { policy with cursor := epoch + 1 }.follow := by
  funext past other
  simp only [Strategy.after, follow, next_of_get hfinite h]

end PolicyMap

namespace ValueIteration

/-! ### The stages -/

section
variable {α : Type} [Scalar α] {n m : Nat} {model : DenseMdp α n m}

/-- The values with some decisions to go. -/
def stageValues (model : DenseMdp α n m) (decisions : Nat) : Vector α n :=
  (stages model decisions).1

/-- The choice that some decisions follow. -/
def stageChoice (model : DenseMdp α n m) (decisions : Nat) : Vector (Fin m) n :=
  (model.backups (stageValues model decisions)).map (·.action)

theorem get_stageValues_zero (state : Fin n) : (stageValues model 0).get state = 0 :=
  Vector.getElem_replicate _

theorem get_stageValues_succ (decisions : Nat) (state : Fin n) :
    (stageValues model (decisions + 1)).get state
      = (model.backup (stageValues model decisions) state).value := by
  show ((model.backups (stageValues model decisions)).map (·.value)).get state = _
  simp only [DenseMdp.backups, Vector.get_map, Vector.get_ofFn]

theorem get_stageChoice (decisions : Nat) (state : Fin n) :
    (stageChoice model decisions).get state
      = (model.backup (stageValues model decisions) state).action := by
  simp only [stageChoice, DenseMdp.backups, Vector.get_map, Vector.get_ofFn]

theorem getElem_stages : ∀ (decisions i : Nat) (h : i < decisions),
    (stages model decisions).2[i] = stageChoice model i := by
  intro decisions
  induction decisions with
  | zero => intro i h; omega
  | succ decisions ih =>
      intro i h
      show ((stages model decisions).2.push (stageChoice model decisions))[i] = _
      rw [Vector.getElem_push]
      split
      · rename_i hlt
        exact ih i hlt
      · rename_i hge
        rw [show i = decisions by omega]

/-- **An epoch has the choice of the stage with as many decisions to go as epochs follow it.** -/
theorem mapping_solveFinite (span : Span) (hfinite : 0 < span.epochs) {epoch : Nat}
    (hepoch : epoch < span.epochs) :
    (solveFinite model span hfinite).policy.mapping epoch
      = .ok (model.mapping (stageChoice model (span.epochs - 1 - epoch))) := by
  have hslot : epoch < span.slots := lt_of_lt_of_le hepoch (le_max_left _ _)
  refine (dif_pos hslot).trans (congrArg Except.ok ?_)
  show (((stages model span.epochs).2.reverse.map model.mapping).cast
    (by simp only [Span.slots]; omega))[epoch] = _
  simp only [Vector.getElem_cast, Vector.getElem_map, Vector.getElem_reverse, getElem_stages]

end

end ValueIteration

variable {K : Type} [Field K] [LinearOrder K] {n m : Nat} {model : DenseMdp K n m} {mdp : Mdp K}

/-- Only what follows at the states of the process matters. -/
theorem Mdp.worth_congr {values values' : State → K} {state : State} {action : Action}
    (h : ∀ next ∈ mdp.states, values next = values' next) :
    mdp.worth values state action = mdp.worth values' state action :=
  Finset.sum_congr rfl fun next hnext => by rw [h next (Collection.mem_members.mp hnext)]

namespace ValueIteration

/-- The choice of a stage decides for the stage's values. -/
theorem actionValue_stageChoice (decisions : Nat) (state : Fin n) :
    model.actionValue (stageValues model decisions) state ((stageChoice model decisions).get state)
      = (stageValues model (decisions + 1)).get state := by
  rw [get_stageChoice, get_stageValues_succ]
  exact (model.backup_spec _ state).1.symm

/-! ### The policy of the stages -/

theorem get_solveFinite (hmodel : model.Models mdp) (span : Span) (hfinite : 0 < span.epochs)
    {epoch : Nat} (hepoch : epoch < span.epochs) {state : State} (hstate : state ∈ mdp.states) :
    (solveFinite model span hfinite).policy.get epoch state
      = .ok (model.choiceOf (stageChoice model (span.epochs - 1 - epoch)) state) := by
  obtain ⟨number, rfl⟩ := hmodel.exists_state state hstate
  unfold PolicyMap.get
  rw [mapping_solveFinite span hfinite hepoch]
  simp only [bind, Except.bind, hmodel.mapping_get, hmodel.choiceOf_get]

/-- **Whoever follows the policy earns the values of the stages.** -/
theorem earned_follow (hmodel : model.Models mdp) (span : Span) (hfinite : 0 < span.epochs) :
    ∀ decisions epoch : Nat, epoch + decisions = span.epochs → ∀ state ∈ mdp.states,
      mdp.earned decisions
          { (solveFinite model span hfinite).policy with cursor := epoch }.follow state
        = model.valueOf (stageValues model decisions) state := by
  intro decisions
  induction decisions with
  | zero =>
      intro epoch _
      refine hmodel.forall_state.mpr fun state => ?_
      rw [hmodel.valueOf_get, get_stageValues_zero]
      rfl
  | succ decisions ih =>
      intro epoch hepoch
      refine hmodel.forall_state.mpr fun state => ?_
      have hinside : epoch < span.epochs := by omega
      have hget := get_solveFinite hmodel span hfinite hinside (hmodel.state_mem state)
      rw [show span.epochs - 1 - epoch = decisions by omega, hmodel.choiceOf_get] at hget
      rw [Mdp.earned, PolicyMap.follow_nil hfinite hget, PolicyMap.follow_after hfinite hget,
        Mdp.worth_congr (ih (epoch + 1) (by omega)), ← hmodel.actionValue_eq,
        actionValue_stageChoice, hmodel.valueOf_get]

variable [IsStrictOrderedRing K]

/-- **No strategy earns more than the values of the stages.** -/
theorem earned_le_stages (hmodel : model.Models mdp) (hclamped : mdp.Clamped) :
    ∀ (decisions : Nat) (strategy : Strategy), mdp.Allows strategy → ∀ state ∈ mdp.states,
      mdp.earned decisions strategy state ≤ model.valueOf (stageValues model decisions) state := by
  intro decisions
  induction decisions with
  | zero =>
      intro strategy _
      refine hmodel.forall_state.mpr fun state => ?_
      rw [hmodel.valueOf_get, get_stageValues_zero]
      exact le_refl 0
  | succ decisions ih =>
      intro strategy hallowed
      refine hmodel.forall_state.mpr fun state => ?_
      obtain ⟨action, haction⟩ := hmodel.exists_action _ (hallowed [] _ (hmodel.state_mem state))
      calc mdp.earned (decisions + 1) strategy (model.states.get state)
          ≤ mdp.worth (model.valueOf (stageValues model decisions)) (model.states.get state)
              (strategy [] (model.states.get state)) :=
            Mdp.worth_mono hclamped (ih _ (hallowed.after _))
        _ = model.actionValue (stageValues model decisions) state action := by
            rw [hmodel.actionValue_eq, haction]
        _ ≤ (model.backup (stageValues model decisions) state).value :=
            (model.backup_spec _ state).2 action
        _ = model.valueOf (stageValues model (decisions + 1)) (model.states.get state) := by
            rw [hmodel.valueOf_get, get_stageValues_succ]

/-! ### The solver -/

/-- **Value iteration over a finite span** decides every state at every epoch, and whoever follows
its policy earns the values that it hands out, and no strategy earns more. -/
theorem solve_finite_optimal (solver : ValueIteration K) (hclamped : mdp.Clamped)
    (hstates : mdp.states ≠ ∅) (hactions : mdp.actions ≠ ∅) (hfinite : 0 < mdp.horizon.epochs) :
    ∃ solution, solver.solve mdp = .ok solution ∧
      (∀ epoch < mdp.horizon.epochs, ∀ state ∈ mdp.states, ∃ action ∈ mdp.actions,
        solution.policy.get epoch state = .ok action) ∧
      (∀ state ∈ mdp.states,
        mdp.earned mdp.horizon.epochs solution.policy.follow state = solution.value state) ∧
      ∀ strategy, mdp.Allows strategy → ∀ state ∈ mdp.states,
        mdp.earned mdp.horizon.epochs strategy state ≤ solution.value state := by
  obtain ⟨model, hdense, hmodel⟩ := Mdp.dense_models hclamped hstates hactions
  refine ⟨solveFinite model mdp.horizon.toSpan hfinite, ?_, fun epoch hepoch state hstate => ?_,
    earned_follow hmodel mdp.horizon.toSpan hfinite mdp.horizon.epochs 0 (Nat.zero_add _),
    earned_le_stages hmodel hclamped mdp.horizon.epochs⟩
  · unfold solve
    rw [hdense]
    exact dif_pos hfinite
  · exact ⟨_, hmodel.choiceOf_mem _ state hstate, get_solveFinite hmodel _ hfinite hepoch hstate⟩

/-- The shuttle for three days, without discount. -/
def shuttleTrip : Mdp ℚ := { shuttle with horizon := .finite 3 }

theorem solve_finite_optimal_shuttle :
    ∃ solution, (standard : ValueIteration ℚ).solve shuttleTrip = .ok solution ∧
      (∀ epoch < 3, ∀ state ∈ shuttleTrip.states, ∃ action ∈ shuttleTrip.actions,
        solution.policy.get epoch state = .ok action) ∧
      (∀ state ∈ shuttleTrip.states,
        shuttleTrip.earned 3 solution.policy.follow state = solution.value state) ∧
      ∀ strategy, shuttleTrip.Allows strategy → ∀ state ∈ shuttleTrip.states,
        shuttleTrip.earned 3 strategy state ≤ solution.value state :=
  solve_finite_optimal standard ⟨shuttle_proper.clamped.transitions, Horizon.clamped_finite 3⟩
    shuttle_proper.states shuttle_proper.actions (by decide)

end ValueIteration

end MarkovPlanning
