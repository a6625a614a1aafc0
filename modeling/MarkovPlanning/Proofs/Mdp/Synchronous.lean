/-
What an epoch is decided by depends on the decisions to go alone.

Backward induction makes its stages from the last epoch backwards, from values of zero,
and a stage does not know how long the span is.  So epochs with as many decisions to go
have the same choice.

Blocks of one sweep go through the same stages.  Such a block follows no choice: it backs
every state up against the values of the block before, and the values it hands on are
those of the backups, whichever actions are kept (`values_improveBySweeps`).  So a search
that stops after some blocks, for whatever reason, has the values of a span of as many
epochs (`synchronous_agree`).

The decisions and the values are the same to the bit.  Nothing is assumed about the
arithmetic.
-/
import MarkovPlanning.Proofs.Mdp.Complete
import MarkovPlanning.Proofs.Mdp.Epochs

namespace MarkovPlanning

variable {α : Type} [Scalar α]

/-- The same process with another number of epochs, where none is for an endless span. -/
def Mdp.lasting (mdp : Mdp α) (epochs : Nat) : Mdp α :=
  { mdp with horizon := { mdp.horizon with epochs } }

/-! ### Stages of a span -/

namespace ValueIteration

variable {mdp : Mdp α}

/-- The decision of a solution for a state at an epoch, or why there is none. -/
def decision (solver : ValueIteration α) (mdp : Mdp α) (epoch : Nat) (state : State) :
    Except Error Action := do
  let solution ← solver.solve mdp
  solution.policy.get epoch state

theorem decision_of_solve {solver : ValueIteration α} {solution : MdpSolution α}
    (hsolve : solver.solve mdp = .ok solution) (epoch : Nat) (state : State) :
    solver.decision mdp epoch state = (solution.policy.get epoch state).mapError .policy := by
  unfold decision
  rw [hsolve]
  rfl

theorem decision_of_dense_eq_error (solver : ValueIteration α) {fault : ShapeFault}
    (hdense : mdp.dense = .error fault) (epochs epoch : Nat) (state : State) :
    solver.decision (mdp.lasting epochs) epoch state = .error (.shape fault) := by
  unfold decision
  rw [solve_eq_error_iff.mpr (show (mdp.lasting epochs).dense = .error fault from hdense)]
  rfl

variable {model : DenseMdp α mdp.states.size mdp.actions.size}

theorem solve_lasting (solver : ValueIteration α) (hdense : mdp.dense = .ok model) {epochs : Nat}
    (hfinite : 0 < epochs) :
    solver.solve (mdp.lasting epochs) = .ok (solveFinite model { epochs } hfinite) := by
  have hdense' : (mdp.lasting epochs).dense = .ok model := hdense
  unfold solve
  rw [hdense']
  exact dif_pos hfinite

/-- **A state is decided by the stage of its decisions to go.** -/
theorem decision_lasting (solver : ValueIteration α) (hdense : mdp.dense = .ok model)
    {epochs epoch : Nat} (hepoch : epoch < epochs) {state : State} (hstate : state ∈ mdp.states) :
    ∃ action ∈ mdp.actions, solver.decision (mdp.lasting epochs) epoch state = .ok action ∧
      (model.mapping (stageChoice model (epochs - epoch - 1)))[state]? = some action := by
  have hfinite : 0 < epochs := Nat.zero_lt_of_lt hepoch
  have hdecides := Mdp.decides_mapping hdense (stageChoice model (epochs - epoch - 1))
  obtain ⟨action, haction⟩ := Option.isSome_iff_exists.mp
    (Std.ExtTreeMap.isSome_getElem?_iff_mem.mpr ((hdecides.mem_iff state).mpr hstate))
  refine ⟨action, hdecides.action_mem state action haction, ?_, haction⟩
  rw [decision_of_solve (solver.solve_lasting hdense hfinite)]
  unfold PolicyMap.get
  rw [mapping_solveFinite { epochs } hfinite hepoch, Nat.sub_right_comm]
  simp only [bind, Except.bind, haction]
  rfl

/-- Epochs with as many decisions to go have the same decisions, or fail alike. -/
theorem decision_congr (solver : ValueIteration α) {epochs epochs' epoch epoch' : Nat}
    (hepoch : epoch < epochs) (hepoch' : epoch' < epochs')
    (hleft : epochs - epoch = epochs' - epoch') {state : State} (hstate : state ∈ mdp.states) :
    solver.decision (mdp.lasting epochs) epoch state
      = solver.decision (mdp.lasting epochs') epoch' state := by
  cases hdense : mdp.dense with
  | error fault =>
      rw [solver.decision_of_dense_eq_error hdense, solver.decision_of_dense_eq_error hdense]
  | ok model =>
      obtain ⟨action, -, hdecision, haction⟩ := solver.decision_lasting hdense hepoch hstate
      obtain ⟨action', -, hdecision', haction'⟩ := solver.decision_lasting hdense hepoch' hstate
      rw [hleft] at haction
      rw [hdecision, hdecision', Option.some.inj (haction.symm.trans haction')]

end ValueIteration

/-! ### Blocks of one sweep -/

namespace PolicyIteration

open ValueIteration (stageValues)

section
variable {n m : Nat} (model : DenseMdp α n m) (limit : Option α)

/-- **After each block of one sweep the values are those of one more stage**, whichever actions
were kept and whether or not the search ends there. -/
theorem values_improveBySweeps : ∀ (rounds made : Nat) (choice : Vector (Option (Fin m)) n),
    let found := improveBySweeps model limit 1 rounds made (stageValues model made) choice
    found.values = stageValues model found.iterations := by
  intro rounds
  induction rounds with
  | zero => intro made choice; rfl
  | succ rounds ih =>
      intro made choice
      unfold improveBySweeps
      -- the one sweep of the block is the backup at its end
      show Stationary.values (ite _ _ _) = stageValues model (Stationary.iterations (ite _ _ _))
      split
      · rfl
      · exact ih (made + 1) _

/-- A search that may make a block makes one. -/
theorem one_le_iterations {perBlock rounds : Nat} (hrounds : 1 ≤ rounds) (values : Vector α n)
    (choice : Vector (Option (Fin m)) n) :
    1 ≤ (improveBySweeps model limit perBlock rounds 0 values choice).iterations := by
  cases hconverged : (improveBySweeps model limit perBlock rounds 0 values choice).converged with
  | true =>
      obtain ⟨done, hiterations, -⟩ :=
        improveBySweeps_last perBlock rounds 0 values choice hconverged
      omega
  | false =>
      have hused := (stopped_improveBySweeps model limit perBlock rounds 0 values choice).used_up
        hconverged
      omega

end

variable {mdp : Mdp α}

theorem solve_lasting {model : DenseMdp α mdp.states.size mdp.actions.size}
    (hdense : mdp.dense = .ok model) (tolerance : α) (maxRounds : Nat) :
    solve { evaluation := .sweeps 1, tolerance, maxRounds } (mdp.lasting 0)
      = .ok ((improveBySweeps model (residualLimit tolerance model.discount) 1 maxRounds 0
          (stageValues model 0) (Vector.replicate _ none)).solution model { epochs := 0 }) := by
  have hdense' : (mdp.lasting 0).dense = .ok model := hdense
  exact solve_sweeps_eq tolerance maxRounds (Nat.le_refl 1) rfl hdense'

/-- Blocks of one sweep have the values of a span of as many epochs. -/
theorem exists_values_eq (solver : ValueIteration α) {tolerance : α} {maxRounds : Nat}
    {found : MdpSolution α}
    (hfound : solve { evaluation := .sweeps 1, tolerance, maxRounds } (mdp.lasting 0) = .ok found)
    (hblocks : 1 ≤ found.iterations) :
    ∃ solution, solver.solve (mdp.lasting found.iterations) = .ok solution ∧
      solution.values = found.values := by
  obtain ⟨model, hdense⟩ : ∃ model, mdp.dense = .ok model := (exists_dense rfl hfound).2
  obtain rfl := Except.ok.inj ((solve_lasting hdense tolerance maxRounds).symm.trans hfound)
  refine ⟨_, solver.solve_lasting hdense hblocks, congrArg model.valueMap ?_⟩
  exact (values_improveBySweeps model _ maxRounds 0 _).symm

/-- Blocks of one sweep stop, and not before the first one is made. -/
theorem exists_solve_lasting {model : DenseMdp α mdp.states.size mdp.actions.size}
    (hdense : mdp.dense = .ok model) (tolerance : α) {maxRounds : Nat} (hrounds : 1 ≤ maxRounds) :
    ∃ found, solve { evaluation := .sweeps 1, tolerance, maxRounds } (mdp.lasting 0) = .ok found ∧
      1 ≤ found.iterations ∧ found.iterations ≤ maxRounds := by
  refine ⟨_, solve_lasting hdense tolerance maxRounds, one_le_iterations model _ hrounds _ _, ?_⟩
  have hstopped := stopped_improveBySweeps model (residualLimit tolerance model.discount) 1
    maxRounds 0 (stageValues model 0) (Vector.replicate _ none)
  rw [Nat.zero_add] at hstopped
  exact hstopped.iterations_le

end PolicyIteration

/-- **The synchronous planners agree.**  Epochs with as many decisions to go have the same
decisions, whatever the length of the span.  Blocks of one sweep that stop after some blocks,
converged or not, have the values of a span of as many epochs. -/
theorem synchronous_agree (mdp : Mdp α) (solver : ValueIteration α) :
    (∀ epochs epochs' epoch epoch', epoch < epochs → epoch' < epochs' →
      epochs - epoch = epochs' - epoch' → ∀ state ∈ mdp.states,
        solver.decision (mdp.lasting epochs) epoch state
          = solver.decision (mdp.lasting epochs') epoch' state) ∧
    (∀ tolerance maxRounds found,
      PolicyIteration.solve { evaluation := .sweeps 1, tolerance, maxRounds } (mdp.lasting 0)
        = .ok found → 1 ≤ found.iterations →
      ∃ solution, solver.solve (mdp.lasting found.iterations) = .ok solution ∧
        solution.values = found.values) ∧
    (mdp.states ≠ ∅ → mdp.actions ≠ ∅ →
      (∀ epochs, ∀ epoch < epochs, ∀ state ∈ mdp.states, ∃ action ∈ mdp.actions,
        solver.decision (mdp.lasting epochs) epoch state = .ok action) ∧
      ∀ tolerance maxRounds, 1 ≤ maxRounds → ∃ found,
        PolicyIteration.solve { evaluation := .sweeps 1, tolerance, maxRounds } (mdp.lasting 0)
          = .ok found ∧ 1 ≤ found.iterations ∧ found.iterations ≤ maxRounds) := by
  refine ⟨?_, ?_, ?_⟩
  · intro epochs epochs' epoch epoch' hepoch hepoch' hleft state hstate
    exact solver.decision_congr hepoch hepoch' hleft hstate
  · intro tolerance maxRounds found hfound hblocks
    exact PolicyIteration.exists_values_eq solver hfound hblocks
  · intro hstates hactions
    cases hdense : mdp.dense with
    | error fault =>
        exact absurd (Mdp.dense_eq_error_iff.mp hdense).1 (not_or.mpr ⟨hstates, hactions⟩)
    | ok model =>
        constructor
        · intro epochs epoch hepoch state hstate
          obtain ⟨action, hmem, hdecision, -⟩ := solver.decision_lasting hdense hepoch hstate
          exact ⟨action, hmem, hdecision⟩
        · intro tolerance maxRounds hrounds
          exact PolicyIteration.exists_solve_lasting hdense tolerance hrounds

/-- A process in which nothing can be measured, with two decisions to go, and after four blocks of
one sweep at most. -/
theorem synchronous_agree_unmeasured :
    let solver : ValueIteration Float := .standard
    (∃ action ∈ unmeasured.actions,
      solver.decision (unmeasured.lasting 3) 1 (.named .state "there") = .ok action ∧
      solver.decision (unmeasured.lasting 2) 0 (.named .state "there") = .ok action) ∧
    ∃ found, PolicyIteration.solve
        { evaluation := .sweeps 1, tolerance := (0 : Float), maxRounds := 4 }
        (unmeasured.lasting 0) = .ok found ∧
      ∃ solution, solver.solve (unmeasured.lasting found.iterations) = .ok solution ∧
        solution.values = found.values := by
  intro solver
  obtain ⟨hdecisions, hvalues, hfound⟩ := synchronous_agree unmeasured solver
  have hstates : unmeasured.states ≠ ∅ := by
    simp [unmeasured, Collection.ofNames, Collection.ofList]
  have hactions : unmeasured.actions ≠ ∅ := by
    simp [unmeasured, Collection.ofNames, Collection.ofList]
  have hthere : (.named .state "there" : State) ∈ unmeasured.states := by decide +kernel
  obtain ⟨hdecided, hblocks⟩ := hfound hstates hactions
  constructor
  · obtain ⟨action, hmem, hdecision⟩ := hdecided 3 1 (by omega) _ hthere
    refine ⟨action, hmem, hdecision, ?_⟩
    rw [← hdecisions 3 2 1 0 (by omega) (by omega) rfl _ hthere]
    exact hdecision
  · obtain ⟨found, hsolve, hpos, -⟩ := hblocks 0 4 (by omega)
    exact ⟨found, hsolve, hvalues 0 4 found hsolve hpos⟩

end MarkovPlanning
