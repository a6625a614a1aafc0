/-
Blocks of sweeps stop near the optimal values.

A block follows the choice for some sweeps and then backs every state up at once.  The last block
of a search that converged follows the choice that is handed out, whatever the numbers are
(`improveBySweeps_last`).  What its sweeps before the backup did does not matter for exact
numbers: all that is used is what is true when the search stops (`Stopped`).  The values are
backups of some values that they are within the residual of, and every state has kept an action
that is as good as the best one, but for the threshold.

So against the new values an action is worth at most the discounted residual more than against
the old ones, and no action improves on them by more than that.  The best actions against the
old values keep up with the new ones but for the same slack, which bounds the values from the
other side (`abs_sub_le`).  The actions of the choice keep up with them but for that slack and
the threshold (`le_earned_add`).
-/
import MarkovPlanning.Mdp.PolicyIteration
import MarkovPlanning.Proofs.Mdp.Slack
import MarkovPlanning.Proofs.Mdp.Improvement
import Mathlib

namespace MarkovPlanning.PolicyIteration

/-! ### The last block -/

section
variable {α : Type} [Scalar α] {n m : Nat} {model : DenseMdp α n m} {limit : Option α}

/-- The values that a block goes on from to its last sweep: the other sweeps follow the choice. -/
def followed (model : DenseMdp α n m) (perBlock : Nat) (found : Stationary α n m) : Vector α n :=
  Nat.repeat (followOnce model (found.choice.map some)) (perBlock - 1) found.values

/-- States that all keep an action have one. -/
theorem map_some_of_kept {values : Vector α n} {choice : Vector (Option (Fin m)) n}
    {action : Fin n → Fin m} (h : ∀ state, kept? model values choice state = some (action state)) :
    (choice.map (·.getD model.firstAction)).map some = choice := by
  refine Vector.ext fun i hi => ?_
  have hchoice : choice[i] = some (action ⟨i, hi⟩) :=
    (Option.filter_eq_some_iff.mp (h ⟨i, hi⟩)).1
  rw [Vector.getElem_map, Vector.getElem_map, hchoice]
  rfl

/-- If all states keep an action, what is handed out are the actions that are kept. -/
theorem kept?_eq_get {values : Vector α n} {choice : Vector (Option (Fin m)) n}
    {backups : Vector (DenseMdp.Backup α m) n}
    (h : (Vector.ofFn (kept? model values choice)).all Option.isSome = true) (state : Fin n) :
    kept? model values choice state
      = some (((Vector.zipWith (fun kept backup => kept <|> some backup.action)
          (Vector.ofFn (kept? model values choice)) backups).map
            (·.getD model.firstAction)).get state) := by
  have hsome := Vector.all_eq_true.mp h state state.isLt
  rw [Vector.getElem_ofFn] at hsome
  obtain ⟨action, haction⟩ := Option.isSome_iff_exists.mp hsome
  simp only [Vector.get_eq_getElem, Vector.getElem_map, Vector.getElem_zipWith,
    Vector.getElem_ofFn] at haction ⊢
  rw [haction]
  rfl

/-- **A search that converged made one block more than the search that is stopped before it.**  All
states kept their actions in that block, and its residual was within the limit if it was looked
at. -/
theorem improveBySweeps_last (perBlock : Nat) :
    ∀ (rounds made : Nat) (values : Vector α n) (choice : Vector (Option (Fin m)) n),
      let found := improveBySweeps model limit perBlock rounds made values choice
      found.converged = true → ∃ done, found.iterations = made + done + 1 ∧
        let previous := improveBySweeps model limit perBlock done made values choice
        let before := followed model perBlock previous
        (∀ state, found.values.get state = (model.backup before state).value) ∧
        (∀ state, kept? model before (previous.choice.map some) state
          = some (found.choice.get state)) ∧
        (1 ≤ model.discount ∨ settled limit (residual before found.values) = true) := by
  intro rounds
  induction rounds with
  | zero => intro made values choice found hconverged; cases hconverged
  | succ rounds ih =>
      intro made values choice found hconverged
      let before := Nat.repeat (followOnce model choice) (perBlock - 1) values
      let after := (model.backups before).map (·.value)
      let choice' := Vector.zipWith (fun kept backup => kept <|> some backup.action)
        (Vector.ofFn (kept? model before choice)) (model.backups before)
      by_cases hend : ((Vector.ofFn (kept? model before choice)).all Option.isSome &&
          (1 ≤ model.discount || settled limit (residual before after))) = true
      · have hfound : found = ⟨choice'.map (·.getD model.firstAction), after, made + 1, true⟩ :=
          if_pos hend
        rw [Bool.and_eq_true, Bool.or_eq_true] at hend
        obtain ⟨hkept, hsettled⟩ := hend
        have hkeeps : ∀ state, kept? model before choice state = some (found.choice.get state) :=
          fun state => hfound ▸ kept?_eq_get hkept state
        -- so the choice to follow is the one that the block began with
        have hchoice : (choice.map (·.getD model.firstAction)).map some = choice :=
          map_some_of_kept hkeeps
        have hbefore : followed model perBlock
            (improveBySweeps model limit perBlock 0 made values choice) = before :=
          congrArg (fun choice => Nat.repeat (followOnce model choice) (perBlock - 1) values)
            hchoice
        refine ⟨0, congrArg Stationary.iterations hfound, ?_⟩
        dsimp only
        rw [hbefore]
        refine ⟨fun state => ?_, fun state => ?_, ?_⟩
        · rw [hfound]
          simp only [after, DenseMdp.backups, Vector.get_map, Vector.get_ofFn]
        · exact (congrArg (fun choice => kept? model before choice state) hchoice).trans
            (hkeeps state)
        · rw [hfound]
          exact hsettled.imp_left of_decide_eq_true
      · have hmore : ∀ rounds, improveBySweeps model limit perBlock (rounds + 1) made values choice
            = improveBySweeps model limit perBlock rounds (made + 1) after choice' :=
          fun _ => if_neg hend
        have hfound :
            found = improveBySweeps model limit perBlock rounds (made + 1) after choice' :=
          hmore rounds
        rw [hfound] at hconverged
        obtain ⟨done, hiterations, hlast⟩ := ih _ _ _ hconverged
        refine ⟨done + 1, ?_, ?_⟩
        · rw [hfound, hiterations]
          omega
        · dsimp only
          rw [hmore, hfound]
          exact hlast

end

variable {K : Type} [Field K] [LinearOrder K] {n m : Nat} {model : DenseMdp K n m} {mdp : Mdp K}
  {limit : Option K} {before : Vector K n} {found : Stationary K n m}

/-! ### The end of the search -/

/-- What is known when the search stops after a backup of some values. -/
structure Stopped (model : DenseMdp K n m) (limit : Option K) (before : Vector K n)
    (found : Stationary K n m) : Prop where
  backed : ∀ state, found.values.get state = (model.backup before state).value
  kept : ∀ state, found.values.get state
    ≤ model.actionValue before state (found.choice.get state) + improvementThreshold
  settled : settled limit (residual before found.values) = true

/-- An action that is kept is as good as the best one, but for the threshold. -/
theorem kept?_eq_some {choice : Vector (Option (Fin m)) n} {state : Fin n} {action : Fin m}
    (h : kept? model before choice state = some action) :
    (model.backup before state).value
      ≤ model.actionValue before state action + improvementThreshold := by
  rw [kept?, Option.filter_eq_some_iff] at h
  exact of_decide_eq_true h.2

/-- A search that converged has stopped. -/
theorem improveBySweeps_stopped (hdiscount : model.discount < 1) (perBlock rounds made : Nat)
    (values : Vector K n) (choice : Vector (Option (Fin m)) n)
    (hconverged : (improveBySweeps model limit perBlock rounds made values choice).converged
      = true) :
    ∃ before, Stopped model limit before
      (improveBySweeps model limit perBlock rounds made values choice) := by
  obtain ⟨done, -, hbacked, hkept, hsettled⟩ :=
    improveBySweeps_last perBlock rounds made values choice hconverged
  exact ⟨_, hbacked, fun state => (hbacked state).trans_le (kept?_eq_some (hkept state)),
    hsettled.resolve_left (not_le.mpr hdiscount)⟩

/-! ### What it hands out -/

variable [IsStrictOrderedRing K]

/-- No state changes by more than the residual. -/
theorem abs_sub_le_residual (values after : Vector K n) (state : Fin n) :
    |after.get state - values.get state| ≤ residual values after := by
  refine foldl_finRange (fun done seen => ∀ state : Fin n, state.val < done →
    |after.get state - values.get state| ≤ seen) (fun _ h => absurd h (Nat.not_lt_zero _))
    (fun last seen h state hstate => ?_) state state.isLt
  rw [Scalar.greater_eq, Scalar.abs_eq]
  rcases Nat.lt_or_eq_of_le (Nat.le_of_lt_succ hstate) with hlt | heq
  · exact (h state hlt).trans (le_max_left _ _)
  · rw [Fin.ext heq]
    exact le_max_right _ _

namespace Stopped

variable (h : Stopped model limit before found) (hmodel : model.Models mdp) (hproper : mdp.Proper)
  (hdiscount : mdp.horizon.discount < 1)
include h hmodel hproper hdiscount

/-- **The values are within the discounted residual, divided back, of the optimal ones.** -/
theorem abs_sub_le {optimum : State → K} (hoptimum : mdp.Bellman optimum) :
    ∀ state ∈ mdp.states, |model.valueOf found.values state - optimum state|
      ≤ mdp.horizon.discount * residual before found.values / (1 - mdp.horizon.discount) := by
  have hchange := abs_sub_le_residual before found.values
  have hresidual : 0 ≤ residual before found.values :=
    (abs_nonneg _).trans (hchange ⟨0, model.states_pos⟩)
  have hslack : 0 ≤ mdp.horizon.discount * residual before found.values :=
    mul_nonneg hproper.clamped.horizon.1 hresidual
  -- the actions that are best against the values before
  let greedy : Vector (Fin m) n := (model.backups before).map (·.action)
  have hgreedy : ∀ state, greedy.get state = (model.backup before state).action := by
    intro state
    simp only [greedy, DenseMdp.backups, Vector.get_map, Vector.get_ofFn]
  obtain ⟨earned, hsteady⟩ := hproper.exists_steady hdiscount (hmodel.choiceOf_mem greedy)
  have habove := hmodel.optimum_le hproper hdiscount found.values hslack hoptimum
    fun state => hmodel.actionValue_le_of_backed hproper hresidual (fun other =>
      sub_le_iff_le_add'.mp (abs_sub_le_iff.mp (hchange other)).1) (h.backed state)
  have hbelow := hmodel.le_earned hproper hdiscount found.values hslack hsteady
    fun state => by
      rw [hgreedy]
      exact hmodel.le_actionValue_of_backed hproper hresidual (fun other =>
        sub_le_iff_le_add'.mp (abs_sub_le_iff.mp (hchange other)).2) (h.backed state)
  intro state hstate
  have hearned := hsteady.le_optimum hproper hdiscount hoptimum state hstate
  have habove := habove state hstate
  have hbelow := hbelow state hstate
  rw [abs_sub_le_iff]
  constructor <;> linarith

/-- **What the choice earns is below the values by not much more.** -/
theorem le_earned_add {earned : State → K}
    (hsteady : mdp.Steady (model.choiceOf found.choice) earned) :
    ∀ state ∈ mdp.states, model.valueOf found.values state
      ≤ earned state + (mdp.horizon.discount * residual before found.values
        + improvementThreshold) / (1 - mdp.horizon.discount) := by
  have hchange := abs_sub_le_residual before found.values
  have hresidual : 0 ≤ residual before found.values :=
    (abs_nonneg _).trans (hchange ⟨0, model.states_pos⟩)
  have hslack : 0 ≤ mdp.horizon.discount * residual before found.values + improvementThreshold :=
    add_nonneg (mul_nonneg hproper.clamped.horizon.1 hresidual) improvementThreshold_pos.le
  refine hmodel.le_earned hproper hdiscount found.values hslack hsteady fun state => ?_
  have hpassed := hmodel.actionValue_le_add hproper hresidual (fun state =>
    sub_le_iff_le_add'.mp (abs_sub_le_iff.mp (hchange state)).2) state (found.choice.get state)
  have hkept := h.kept state
  linarith

end Stopped

/-! ### The solver -/

/-- What the solver does about an endless span. -/
theorem solve_sweeps_eq {α : Type} [Scalar α] {mdp : Mdp α} (tolerance : α) (maxRounds : Nat)
    {perBlock : Nat} (hblock : 1 ≤ perBlock) (hendless : mdp.horizon.epochs = 0)
    {model : DenseMdp α mdp.states.size mdp.actions.size} (hdense : mdp.dense = .ok model) :
    solve { evaluation := .sweeps perBlock, tolerance, maxRounds } mdp
      = .ok ((improveBySweeps model (residualLimit tolerance model.discount) perBlock maxRounds 0
          (Vector.replicate _ 0) (Vector.replicate _ none)).solution model
            mdp.horizon.toSpan) := by
  have hsome : ¬ Evaluation.sweeps perBlock = .sweeps 0 := by
    intro heq
    cases heq
    omega
  unfold solve
  rw [Span.isFinite_eq_false hendless, hdense, if_neg hsome]
  rfl

open Filter Topology

variable [Archimedean K] [TopologicalSpace K] [OrderTopology K]

/-- **Modified policy iteration**: whenever it has converged every value is within the tolerance of
the optimal one, and the optimal one itself if later rewards count for nothing; and the policy
earns nearly the optimal values. -/
theorem solve_sweeps_near_optimal {tolerance : K} (htolerance : 0 ≤ tolerance) {perBlock : Nat}
    (hblock : 1 ≤ perBlock) (maxRounds : Nat) (hproper : mdp.Proper)
    (hendless : mdp.horizon.epochs = 0) (hdiscount : mdp.horizon.discount < 1) :
    ∃ solution,
      solve { evaluation := .sweeps perBlock, tolerance, maxRounds } mdp = .ok solution ∧
      ∃ (optimum earned : State → K) (choice : State → Action), mdp.Optimal optimum ∧
        (∀ state ∈ mdp.states,
          solution.policy.get 0 state = .ok (choice state) ∧ choice state ∈ mdp.actions ∧
          Tendsto (fun decisions => mdp.earned decisions (.stationary choice) state) atTop
            (𝓝 (earned state))) ∧
        (solution.converged = true → ∀ state ∈ mdp.states,
          |solution.value state - optimum state| ≤ tolerance ∧
          (mdp.horizon.discount = 0 → solution.value state = optimum state) ∧
          (0 < mdp.horizon.discount → |earned state - optimum state|
            ≤ 2 * tolerance + 1e-12 / (1 - mdp.horizon.discount))) := by
  obtain ⟨model, hdense, hmodel⟩ :=
    Mdp.dense_models hproper.clamped hproper.states hproper.actions
  refine ⟨_, solve_sweeps_eq tolerance maxRounds hblock hendless hdense, ?_⟩
  generalize hfound : improveBySweeps model (residualLimit tolerance model.discount) perBlock
    maxRounds 0 (Vector.replicate _ 0) (Vector.replicate _ none) = found
  have hallowed := hmodel.choiceOf_mem found.choice
  obtain ⟨optimum, hoptimum⟩ := hproper.exists_bellman hdiscount
  obtain ⟨earned, hsteady⟩ := hproper.exists_steady hdiscount hallowed
  refine ⟨optimum, earned, model.choiceOf found.choice, hoptimum.optimal hproper hdiscount,
    fun state hstate => ⟨hmodel.get_solution _ found hstate, hallowed state hstate,
      hsteady.tendsto_earned hproper hdiscount hstate⟩, fun hconverged state hstate => ?_⟩
  rw [DenseMdp.value_solution]
  obtain ⟨before, hstopped⟩ := improveBySweeps_stopped (hmodel.discount ▸ hdiscount) perBlock
    maxRounds 0 (Vector.replicate _ 0) (Vector.replicate _ none) (hfound ▸ hconverged)
  rw [hfound] at hstopped
  have hpassed : mdp.horizon.discount * residual before found.values
      / (1 - mdp.horizon.discount) ≤ tolerance :=
    div_le_tolerance_of_settled htolerance hproper.clamped.horizon.1 hdiscount
      (hmodel.discount ▸ hstopped.settled)
  have hnear := hstopped.abs_sub_le hmodel hproper hdiscount hoptimum state hstate
  have hwithin := hnear.trans hpassed
  refine ⟨hwithin, fun hzero => ?_, fun _ => ?_⟩
  · rw [hzero, zero_mul, zero_div] at hnear
    exact sub_eq_zero.mp (abs_nonpos_iff.mp hnear)
  · have hbelow := hsteady.le_optimum hproper hdiscount hoptimum state hstate
    have hearned := hstopped.le_earned_add hmodel hproper hdiscount hsteady state hstate
    have hvalue := (abs_sub_le_iff.mp hwithin).2
    rw [add_div, improvementThreshold] at hearned
    rw [abs_sub_comm, abs_of_nonneg (sub_nonneg.mpr hbelow)]
    linarith

theorem solve_sweeps_near_optimal_shuttle :
    ∃ solution,
      solve { evaluation := .sweeps 3, tolerance := (1 : ℚ), maxRounds := 60 } shuttle
        = .ok solution ∧ solution.converged = true ∧
      ∃ (optimum earned : State → ℚ) (choice : State → Action), shuttle.Optimal optimum ∧
        (∀ state ∈ shuttle.states,
          solution.policy.get 0 state = .ok (choice state) ∧ choice state ∈ shuttle.actions ∧
          Tendsto (fun decisions => shuttle.earned decisions (.stationary choice) state) atTop
            (𝓝 (earned state))) ∧
        ∀ state ∈ shuttle.states, |solution.value state - optimum state| ≤ 1 ∧
          |earned state - optimum state| ≤ 2 * 1 + 1e-12 / (1 - shuttle.horizon.discount) := by
  obtain ⟨solution, hsolve, optimum, earned, choice, hoptimum, hchoice, hnear⟩ :=
    solve_sweeps_near_optimal (K := ℚ) zero_le_one (by norm_num : 1 ≤ 3) 60 shuttle_proper rfl
      (by decide +kernel)
  have hsettles : ∀ solution ∈
      (solve { evaluation := .sweeps 3, tolerance := (1 : ℚ), maxRounds := 60 }
        shuttle).toOption, solution.converged = true := by decide +kernel
  have hconverged := hsettles solution (by rw [hsolve]; rfl)
  refine ⟨solution, hsolve, hconverged, optimum, earned, choice, hoptimum, hchoice,
    fun state hstate => ?_⟩
  obtain ⟨hvalue, -, hearned⟩ := hnear hconverged state hstate
  exact ⟨hvalue, hearned (by decide +kernel)⟩

end MarkovPlanning.PolicyIteration
