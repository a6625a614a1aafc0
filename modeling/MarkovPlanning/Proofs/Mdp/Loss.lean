/-
What the policy of settled sweeps loses.

The choice of a sweep in place is made state by state, against the values that the state sees:
the new ones of the states before it and the old ones of the others (`sweep_spec`).  If no value
rises by more than some amount in the last sweep, the optimal values are at most that much,
passed on, above the new values; and if no value falls by more than some amount, what the choice
earns is at most that much, passed on, below them (`loss_le`).

A settled residual bounds rises and falls alike, and each of them passes on the tolerance.  So the
loss is at most twice the tolerance, and where values rise at one state and fall at another it
can be more than the tolerance once (`crossroads_loss`).  It is not if all values move the same way.
The first sweep backs up values of zero, and what it does is done again by all later ones
(`sweep_steered`), so this is a matter of the rewards: the values never fall if every state has
an action that costs nothing, and never rise if no action earns anything (`OneSided`).
-/
import MarkovPlanning.Proofs.Mdp.Trace
import Mathlib

namespace MarkovPlanning

/-- Every state has an action that costs nothing at once, or no action earns anything at once. -/
def Mdp.OneSided {K : Type} [Field K] [LinearOrder K] (mdp : Mdp K) : Prop :=
  (∀ state ∈ mdp.states, ∃ action ∈ mdp.actions, 0 ≤ mdp.worth 0 state action) ∨
    ∀ state ∈ mdp.states, ∀ action ∈ mdp.actions, mdp.worth 0 state action ≤ 0

namespace ValueIteration

variable {K : Type} [Field K] [LinearOrder K] [IsStrictOrderedRing K] {n m : Nat}
  {model : DenseMdp K n m} {mdp : Mdp K} {values : Vector K n} {choice : Vector (Fin m) n}

/-! ### The loss -/

section
variable (hmodel : model.Models mdp) (hproper : mdp.Proper)
  (hdiscount : mdp.horizon.discount < 1) {optimum earned : State → K}
  (hoptimum : mdp.Bellman optimum)
include hmodel hproper hdiscount hoptimum

/-- **The loss is what the rises and the falls of the last sweep pass on.** -/
theorem loss_le {rise fall : K} (hrise : 0 ≤ rise) (hfall : 0 ≤ fall)
    (hrises : ∀ state, (sweep model values choice).values.get state ≤ values.get state + rise)
    (hfalls : ∀ state, values.get state ≤ (sweep model values choice).values.get state + fall)
    (hsteady : mdp.Steady (model.choiceOf (sweep model values choice).choice) earned) :
    ∀ state ∈ mdp.states, optimum state ≤ earned state
      + mdp.horizon.discount * rise / (1 - mdp.horizon.discount)
      + mdp.horizon.discount * fall / (1 - mdp.horizon.discount) := by
  have hsweep := sweep_spec model values choice
  generalize sweep model values choice = after at hsweep hrises hfalls hsteady
  have hpassed : ∀ {distance : K}, 0 ≤ distance → 0 ≤ mdp.horizon.discount * distance :=
    mul_nonneg hproper.clamped.horizon.1
  have habove := hmodel.optimum_le hproper hdiscount after.values (hpassed hrise) hoptimum
    fun state => by
      have hseen : ∀ other, after.values.get other
          ≤ (seen values after.values state).get other + rise :=
        forall_seen (p := fun other x => after.values.get other ≤ x + rise) hrises
          fun _ _ => le_add_of_nonneg_right hrise
      exact hmodel.actionValue_le_of_backed hproper hrise hseen (hsweep.value state state.isLt)
  have hbelow := hmodel.le_earned hproper hdiscount after.values (hpassed hfall) hsteady
    fun state => by
      have hseen : ∀ other, (seen values after.values state).get other
          ≤ after.values.get other + fall :=
        forall_seen (p := fun other x => x ≤ after.values.get other + fall) hfalls
          fun _ _ => le_add_of_nonneg_right hfall
      rw [hsweep.action state state.isLt]
      exact hmodel.le_actionValue_of_backed hproper hfall hseen (hsweep.value state state.isLt)
  intro state hstate
  have habove := habove state hstate
  have hbelow := hbelow state hstate
  linarith

/-- **What a settled sweep loses**: twice the tolerance at most, and the tolerance at most if it
moved all values the same way. -/
theorem loss_le_of_settled {tolerance : K} (htolerance : 0 ≤ tolerance)
    (hsettled : settled (residualLimit tolerance model.discount)
      (sweep model values choice).residual = true)
    (hsteady : mdp.Steady (model.choiceOf (sweep model values choice).choice) earned) :
    ∀ state ∈ mdp.states, optimum state ≤ earned state + 2 * tolerance ∧
      ((∀ state, values.get state ≤ (sweep model values choice).values.get state) ∨
          (∀ state, values.get state ≥ (sweep model values choice).values.get state) →
        optimum state ≤ earned state + tolerance) := by
  -- no value changes by more than the residual
  have : Nonempty (Fin n) := ⟨⟨0, model.states_pos⟩⟩
  obtain ⟨top, htop⟩ := Finite.exists_max
    fun state => |values.get state - optimum (model.states.get state)|
  have hchanged := fun state : Fin n => (sweep_progress hmodel hproper hoptimum hdiscount
    (abs_nonneg _) htop choice).changed state state.isLt
  have hrises := fun state => sub_le_iff_le_add'.mp (abs_sub_le_iff.mp (hchanged state)).1
  have hfalls := fun state => sub_le_iff_le_add'.mp (abs_sub_le_iff.mp (hchanged state)).2
  have hresidual : 0 ≤ (sweep model values choice).residual :=
    (abs_nonneg _).trans (hchanged ⟨0, model.states_pos⟩)
  rw [hmodel.discount] at hsettled
  have hpassed := div_le_tolerance_of_settled htolerance hproper.clamped.horizon.1 hdiscount
    hsettled
  have hnothing : mdp.horizon.discount * 0 / (1 - mdp.horizon.discount) = 0 := by
    rw [mul_zero, zero_div]
  intro state hstate
  constructor
  · have hloss := loss_le hmodel hproper hdiscount hoptimum hresidual hresidual hrises hfalls
      hsteady state hstate
    linarith
  · rintro (hrising | hfalling)
    · have hloss := loss_le hmodel hproper hdiscount hoptimum hresidual le_rfl hrises
        (fun state => (hrising state).trans_eq (add_zero _).symm) hsteady state hstate
      linarith
    · have hloss := loss_le hmodel hproper hdiscount hoptimum le_rfl hresidual
        (fun state => (hfalling state).trans_eq (add_zero _).symm) hfalls hsteady state hstate
      linarith

end

/-! ### The solver -/

omit [IsStrictOrderedRing K] in
/-- All backups of zero move it the same way if the rewards have one sign. -/
theorem steered_zero (hmodel : model.Models mdp) (hsided : mdp.OneSided) :
    Steered model (Vector.replicate n 0) := by
  have hzero : ∀ state : Fin n, (Vector.replicate n (0 : K)).get state = 0 :=
    fun _ => Vector.getElem_replicate _
  rcases hsided with hfree | hcostly
  · refine Or.inl fun state => ?_
    obtain ⟨action, haction, hreward⟩ := hfree _ (hmodel.state_mem state)
    obtain ⟨number, rfl⟩ := hmodel.exists_action action haction
    rw [hzero]
    refine hreward.trans ((hmodel.actionValue_replicate 0 state number).symm.trans_le ?_)
    exact (model.backup_spec _ state).2 number
  · refine Or.inr fun state => ?_
    rw [hzero, (model.backup_spec _ state).1, hmodel.actionValue_replicate]
    exact hcostly _ (hmodel.state_mem state) _ (hmodel.action_mem _)

/-- What the solver does about an endless span. -/
theorem solve_endless_eq {α : Type} [Scalar α] {mdp : Mdp α} {solver : ValueIteration α}
    (hendless : mdp.horizon.epochs = 0)
    {model : DenseMdp α mdp.states.size mdp.actions.size} (hdense : mdp.dense = .ok model) :
    solve solver mdp
      = .ok ((searchStationary solver model).solution model mdp.horizon.toSpan) := by
  unfold solve
  rw [hdense]
  exact dif_neg (by rw [hendless]; exact Nat.lt_irrefl 0)

variable [Archimedean K] [TopologicalSpace K] [OrderTopology K]

open Filter Topology

/-- **The policy of value iteration over an endless span**: whenever the search has converged,
following the policy for ever loses at most twice the tolerance in every state, and at most the
tolerance if the rewards have one sign. -/
theorem solve_policy_loss {tolerance : K} (htolerance : 0 < tolerance) (maxSweeps : Nat)
    (hproper : mdp.Proper) (hendless : mdp.horizon.epochs = 0)
    (hdiscount : mdp.horizon.discount < 1) :
    ∃ solution, solve { tolerance, maxSweeps } mdp = .ok solution ∧
      ∃ (optimum earned : State → K) (choice : State → Action), mdp.Optimal optimum ∧
        (∀ state ∈ mdp.states,
          solution.policy.get 0 state = .ok (choice state) ∧ choice state ∈ mdp.actions ∧
          Tendsto (fun decisions => mdp.earned decisions (.stationary choice) state) atTop
            (𝓝 (earned state))) ∧
        (solution.converged = true → ∀ state ∈ mdp.states,
          optimum state ≤ earned state + 2 * tolerance ∧
          (mdp.OneSided → optimum state ≤ earned state + tolerance)) := by
  obtain ⟨model, hdense, hmodel⟩ :=
    Mdp.dense_models hproper.clamped hproper.states hproper.actions
  refine ⟨_, solve_endless_eq hendless hdense, ?_⟩
  generalize hfound : searchStationary { tolerance, maxSweeps } model = found
  have hallowed := hmodel.choiceOf_mem found.choice
  obtain ⟨optimum, hoptimum⟩ := hproper.exists_bellman hdiscount
  obtain ⟨earned, hsteady⟩ := hproper.exists_steady hdiscount hallowed
  refine ⟨optimum, earned, model.choiceOf found.choice, hoptimum.optimal hproper hdiscount,
    fun state hstate => ⟨hmodel.get_solution _ found hstate, hallowed state hstate,
      hsteady.tendsto_earned hproper hdiscount hstate⟩, fun hconverged state hstate => ?_⟩
  obtain ⟨before, choice, hsteered, hsettled, -, hchoice⟩ :=
    improve_last (p := fun values => mdp.OneSided → Steered model values)
      (fun values choice h hsided => ((h hsided).sweep hmodel hproper.clamped choice).2)
      maxSweeps 0 (Vector.replicate _ 0) (Vector.replicate _ model.firstAction)
      (steered_zero hmodel) (hfound ▸ hconverged)
  rw [← hfound, searchStationary, hchoice] at hsteady
  obtain ⟨htwice, honce⟩ := loss_le_of_settled hmodel hproper hdiscount hoptimum htolerance.le
    hsettled hsteady state hstate
  exact ⟨htwice, fun hsided =>
    honce ((hsteered hsided).sweep hmodel hproper.clamped choice).1⟩

/-- The shuttle may stay where it is, which costs nothing. -/
theorem shuttle_oneSided : shuttle.OneSided :=
  Or.inl fun state hstate => by
    have hfree : ∀ state ∈ shuttle.states, 0 ≤ shuttle.worth 0 state (.named .action "stay") := by
      decide +kernel
    exact ⟨.named .action "stay", by decide +kernel, hfree state hstate⟩

theorem solve_policy_loss_shuttle :
    ∃ solution, solve { tolerance := (1 : ℚ), maxSweeps := 60 } shuttle = .ok solution ∧
      solution.converged = true ∧
      ∃ (optimum earned : State → ℚ) (choice : State → Action), shuttle.Optimal optimum ∧
        (∀ state ∈ shuttle.states,
          solution.policy.get 0 state = .ok (choice state) ∧ choice state ∈ shuttle.actions ∧
          Tendsto (fun decisions => shuttle.earned decisions (.stationary choice) state) atTop
            (𝓝 (earned state))) ∧
        ∀ state ∈ shuttle.states, optimum state ≤ earned state + 1 := by
  obtain ⟨solution, hsolve, optimum, earned, choice, hoptimum, hchoice, hloss⟩ :=
    solve_policy_loss (K := ℚ) zero_lt_one 60 shuttle_proper rfl (by decide +kernel)
  have hsettles : ∀ solution ∈ (solve { tolerance := (1 : ℚ), maxSweeps := 60 } shuttle).toOption,
      solution.converged = true := by decide +kernel
  have hconverged := hsettles solution (by rw [hsolve]; rfl)
  exact ⟨solution, hsolve, hconverged, optimum, earned, choice, hoptimum, hchoice,
    fun state hstate => (hloss hconverged state hstate).2 shuttle_oneSided⟩

/-! ### Where the tolerance is exceeded

At the fork one way leads to where every day earns one and the other to where every day costs
one.  At the start all values are zero, the fork is indifferent and goes the first way, which is
the bad one.  The first sweep changes the values of the two ends by one, one up and one down.  With
a discount of a half and a tolerance of one that is a settled residual, and the wrong way stays.
-/

def crossroads : Mdp ℚ :=
  let fork : State := .named .state "fork"
  let gain : State := .named .state "gain"
  let loss : State := .named .state "loss"
  let left : Action := .named .action "left"
  let right : Action := .named .action "right"
  { states := .ofList [fork, gain, loss]
    actions := .ofList [left, right]
    transitions := TransitionTable.set (TransitionTable.set (TransitionTable.set
      (TransitionTable.set {} (some fork) (some left) (some loss) 1)
      (some fork) (some right) (some gain) 1)
      (some gain) none (some gain) 1) (some loss) none (some loss) 1
    rewards := RewardTable.insert (RewardTable.insert {}
      (.cons (some gain) (.cons none (.cons none .nil))) 1)
      (.cons (some loss) (.cons none (.cons none .nil))) (-1)
    horizon := .infinite (1/2) }

/-- Values at the crossroads, given by that of the fork. -/
def crossroadsValue (fork : ℚ) (state : State) : ℚ :=
  if state = .named .state "gain" then 2
  else if state = .named .state "loss" then -2
  else fork

/-- Always the way of the same name. -/
def oneWay (name : String) : State → Action := fun _ => .named .action name

theorem crossroads_rows : ∀ state ∈ crossroads.states, ∀ action ∈ crossroads.actions,
    ∑ next ∈ crossroads.states.members, crossroads.transitions.chance state action next = 1 := by
  decide +kernel

theorem crossroads_proper : crossroads.Proper where
  clamped := ⟨(((ProbabilityTable.clamped_empty.insert _ _).insert _ _).insert _ _).insert _ _,
    Horizon.clamped_infinite _⟩
  states := by simp [crossroads, Collection.ofList]
  actions := by simp [crossroads, Collection.ofList]
  rows := fun state hstate action haction => (crossroads_rows state hstate action haction).le

theorem crossroads_left : crossroads.Steady (oneWay "left") (crossroadsValue (-1)) where
  allowed := by decide +kernel
  values_eq := by decide +kernel

theorem crossroads_right : crossroads.Bellman (crossroadsValue 1) where
  best := by decide +kernel
  attained := ⟨oneWay "right", by decide +kernel, by decide +kernel⟩

theorem eq_ok_of_mem_toOption {ε β : Type} {x : β} : ∀ {result : Except ε β},
    x ∈ result.toOption → result = .ok x
  | .ok _, h => congrArg Except.ok (Option.some.inj h)

/-- One sweep is enough there, and it decides for the left. -/
theorem crossroads_solution :
    ∃ solution, solve { tolerance := (1 : ℚ), maxSweeps := 1 } crossroads = .ok solution ∧
      solution.converged = true ∧ ∀ state ∈ crossroads.states,
        solution.policy.get 0 state = .ok (oneWay "left" state) := by
  have hfound : ∃ solution ∈
      (solve { tolerance := (1 : ℚ), maxSweeps := 1 } crossroads).toOption,
        solution.converged = true ∧ ∀ state ∈ crossroads.states,
          oneWay "left" state ∈ (solution.policy.get 0 state).toOption := by
    decide +kernel
  obtain ⟨solution, hsolve, hconverged, hleft⟩ := hfound
  exact ⟨solution, eq_ok_of_mem_toOption hsolve, hconverged, fun state hstate =>
    eq_ok_of_mem_toOption (hleft state hstate)⟩

/-- **The loss can be more than the tolerance.**  With a tolerance of one the search converges at
the crossroads to a policy that earns two less than the optimum from the fork. -/
theorem crossroads_loss :
    crossroads.Proper ∧
    (∀ state ∈ crossroads.states, ∀ action ∈ crossroads.actions,
      ∑ next ∈ crossroads.states.members,
        crossroads.transitions.chance state action next = 1) ∧
    crossroads.horizon.epochs = 0 ∧
    0 < crossroads.horizon.discount ∧ crossroads.horizon.discount < 1 ∧
    ∃ solution, solve { tolerance := (1 : ℚ), maxSweeps := 1 } crossroads = .ok solution ∧
      solution.converged = true ∧
      ∃ (optimum earned : State → ℚ) (choice : State → Action), crossroads.Optimal optimum ∧
        (∀ state ∈ crossroads.states,
          solution.policy.get 0 state = .ok (choice state) ∧
          Tendsto (fun decisions => crossroads.earned decisions (.stationary choice) state) atTop
            (𝓝 (earned state))) ∧
        ∃ state ∈ crossroads.states, earned state + 1 < optimum state := by
  have hdiscount : crossroads.horizon.discount < 1 := by decide +kernel
  obtain ⟨solution, hsolve, hconverged, hleft⟩ := crossroads_solution
  refine ⟨crossroads_proper, crossroads_rows, rfl, by decide +kernel, hdiscount, solution, hsolve,
    hconverged, crossroadsValue 1, crossroadsValue (-1), oneWay "left",
    crossroads_right.optimal crossroads_proper hdiscount, fun state hstate =>
      ⟨hleft state hstate, crossroads_left.tendsto_earned crossroads_proper hdiscount hstate⟩,
    .named .state "fork", by decide +kernel, by decide +kernel⟩

end ValueIteration

end MarkovPlanning
