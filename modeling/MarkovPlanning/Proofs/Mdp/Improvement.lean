/-
Exact policy iteration climbs to the optimal values.

A round finds the values of a choice and switches the states that have a better action.  The
next choice decides better everywhere, so by `Steady.worth_le` its values are nowhere less,
and they are greater where a state switched (`values_lt`).

A run is recorded by the choices that it evaluates and their values (`improveRecorded`), and
`Run` says what is known of such a record.  Since the values climb, no choice comes
twice, and there are no more rounds than choices (`Run.length_le`).  Whichever way a run ends,
what it hands out was evaluated last.  If it ends because no state switches, no action is
better than the values by more than the threshold, so they are nearly optimal
(`abs_sub_le_of_stopped`).
-/
import MarkovPlanning.Proofs.Mdp.Evaluation
import Mathlib

namespace MarkovPlanning.PolicyIteration

/-! ### The record of a run -/

section
variable {α : Type} [Scalar α] {n m : Nat}

/-- `improveExactly` with a record of the choices it evaluates and their values, in order. -/
def improveRecorded (model : DenseMdp α n m) : (rounds made : Nat) → Vector (Fin m) n →
    Except NumericFault (Stationary α n m × List (Vector (Fin m) n × Vector α n))
  | 0, made, choice => do
    let values ← evaluate model choice
    return ({ choice, values, iterations := made, converged := false }, [(choice, values)])
  | rounds + 1, made, choice => do
    let values ← evaluate model choice
    let switches := Vector.ofFn (switch? model values choice)
    if switches.all Option.isNone then
      return ({ choice, values, iterations := made + 1, converged := true }, [(choice, values)])
    else
      let (found, later) ← improveRecorded model rounds (made + 1)
        (Vector.zipWith (fun switch action => switch.getD action) switches choice)
      return (found, (choice, values) :: later)

/-- Keeping a record changes nothing else. -/
theorem fst_improveRecorded (model : DenseMdp α n m) : ∀ (rounds made : Nat)
    (choice : Vector (Fin m) n),
      Prod.fst <$> improveRecorded model rounds made choice
        = improveExactly model rounds made choice := by
  intro rounds
  induction rounds with
  | zero =>
      intro made choice
      unfold improveRecorded improveExactly
      cases evaluate model choice <;> rfl
  | succ rounds ih =>
      intro made choice
      unfold improveRecorded improveExactly
      cases evaluate model choice with
      | error fault => rfl
      | ok values =>
          dsimp only [bind, Except.bind]
          split
          · rfl
          · rw [← ih]
            cases improveRecorded model rounds (made + 1) _ <;> rfl

/-- The choice after the states that have a better action have switched. -/
def switched (model : DenseMdp α n m) (values : Vector α n) (choice : Vector (Fin m) n) :
    Vector (Fin m) n :=
  Vector.zipWith (fun switch action => switch.getD action)
    (Vector.ofFn (switch? model values choice)) choice

theorem get_switched (model : DenseMdp α n m) (values : Vector α n) (choice : Vector (Fin m) n)
    (state : Fin n) : (switched model values choice).get state
      = (switch? model values choice state).getD (choice.get state) := by
  simp only [switched, Vector.get_eq_getElem, Vector.getElem_zipWith, Vector.getElem_ofFn]

end

variable {K : Type} [Field K] [LinearOrder K] {n m : Nat} {model : DenseMdp K n m} {mdp : Mdp K}
  {choice : Vector (Fin m) n} {values values' : Vector K n}

/-- What is known of the record of a run of so many rounds from a choice. -/
structure Run (model : DenseMdp K n m) (rounds : Nat) (choice : Vector (Fin m) n)
    (found : Stationary K n m) (record : List (Vector (Fin m) n × Vector K n)) : Prop where
  evaluated : ∀ entry ∈ record, evaluate model entry.1 = .ok entry.2
  first : record.head?.map Prod.fst = some choice
  last : record.getLast? = some (found.choice, found.values)
  climbs : record.Pairwise fun earlier later => earlier.2.get < later.2.get
  stopped : found.converged = true →
    ∀ state, switch? model found.values found.choice state = none
  exhausted : found.converged = false → record.length = rounds + 1

namespace Run

variable {rounds : Nat} {found : Stationary K n m}
  {record : List (Vector (Fin m) n × Vector K n)}

theorem evaluate_found (h : Run model rounds choice found record) :
    evaluate model found.choice = .ok found.values :=
  h.evaluated (found.choice, found.values) (List.mem_of_getLast? h.last)

/-- No choice comes twice. -/
theorem pairwise (h : Run model rounds choice found record) :
    record.Pairwise fun earlier later => earlier.1 ≠ later.1 ∧
      ∀ state, earlier.2.get state ≤ later.2.get state := by
  refine h.climbs.imp_of_mem fun {earlier later} hearlier hlater hlt => ⟨fun heq => ?_, hlt.le⟩
  have hsame := h.evaluated earlier hearlier
  rw [heq, h.evaluated later hlater] at hsame
  rw [Except.ok.inj hsame] at hlt
  exact lt_irrefl _ hlt

/-- **There are no more evaluations than choices.** -/
theorem length_le (h : Run model rounds choice found record) : record.length ≤ m ^ n := by
  have hnodup : (record.map fun entry => entry.1.get).Nodup := by
    refine List.pairwise_map.mpr (h.pairwise.imp fun hne heq => hne.1 ?_)
    exact Vector.ext fun i hi => congrFun heq ⟨i, hi⟩
  have hcard := hnodup.length_le_card
  rwa [List.length_map, Fintype.card_fun, Fintype.card_fin, Fintype.card_fin] at hcard

/-- A round before a run whose values are greater. -/
theorem cons (h : Run model rounds (switched model values choice) found record)
    (hvalues : evaluate model choice = .ok values)
    (hlt : ∀ values', evaluate model (switched model values choice) = .ok values' →
      values.get < values'.get) :
    Run model (rounds + 1) choice found ((choice, values) :: record) := by
  cases record with
  | nil => exact absurd h.last (by simp)
  | cons next rest =>
      have hfirst : next.1 = switched model values choice := by simpa using h.first
      have hnext : values.get < next.2.get :=
        hlt next.2 (hfirst ▸ h.evaluated next List.mem_cons_self)
      refine ⟨fun entry hentry => ?_, rfl, ?_, ?_, h.stopped, fun hexhausted => ?_⟩
      · rcases List.mem_cons.mp hentry with rfl | hentry
        · exact hvalues
        · exact h.evaluated entry hentry
      · rw [List.getLast?_cons_cons]
        exact h.last
      · refine List.pairwise_cons.mpr ⟨fun later hlater => ?_, h.climbs⟩
        rcases List.mem_cons.mp hlater with rfl | hlater
        · exact hnext
        · exact hnext.trans ((List.pairwise_cons.mp h.climbs).1 later hlater)
      · rw [List.length_cons, h.exhausted hexhausted]

end Run

/-! ### One round -/

/-- A state that does not switch has no action that is better by more than the threshold. -/
theorem backup_le_of_switch?_eq_none {state : Fin n}
    (h : switch? model values choice state = none) :
    (model.backup values state).value
      ≤ model.actionValue values state (choice.get state) + improvementThreshold := by
  by_contra hlt
  rw [switch?, if_pos (not_le.mp hlt)] at h
  cases h

variable [IsStrictOrderedRing K]

theorem improvementThreshold_pos : (0 : K) < improvementThreshold := by
  unfold improvementThreshold
  norm_num

/-- A state switches to a better action. -/
theorem lt_of_switch?_eq_some {state : Fin n} {action : Fin m}
    (h : switch? model values choice state = some action) :
    model.actionValue values state (choice.get state) < model.actionValue values state action := by
  by_cases hlt : model.actionValue values state (choice.get state) + improvementThreshold
      < (model.backup values state).value
  · rw [switch?, if_pos hlt] at h
    cases h
    rw [← (model.backup_spec values state).1]
    exact (lt_add_of_pos_right _ improvementThreshold_pos).trans hlt
  · rw [switch?, if_neg hlt] at h
    cases h

section
variable (hmodel : model.Models mdp) (hproper : mdp.Proper)
include hmodel hproper

/-- **A round in which some state switches leads to greater values.** -/
theorem values_lt (hdiscount : mdp.horizon.discount < 1) (h : evaluate model choice = .ok values)
    (h' : evaluate model (switched model values choice) = .ok values')
    (hswitch : ∃ state, switch? model values choice state ≠ none) : values.get < values'.get := by
  have hbetter : ∀ state,
      values.get state
          ≤ model.actionValue values state ((switched model values choice).get state) ∧
        (switch? model values choice state ≠ none → values.get state
          < model.actionValue values state ((switched model values choice).get state)) := by
    intro state
    rw [get_switched, eq_actionValue_of_evaluate h state]
    cases hstate : switch? model values choice state with
    | none => exact ⟨le_refl _, fun hne => absurd rfl hne⟩
    | some action =>
        have hlt := lt_of_switch?_eq_some hstate
        exact ⟨hlt.le, fun _ => hlt⟩
  have hworth : ∀ state ∈ mdp.states, model.valueOf values state
      ≤ mdp.worth (model.valueOf values) state
          (model.choiceOf (switched model values choice) state) := by
    refine hmodel.forall_state.mpr fun state => ?_
    rw [hmodel.valueOf_get, hmodel.choiceOf_get, ← hmodel.actionValue_eq]
    exact (hbetter state).1
  have hle : ∀ state, model.actionValue values state ((switched model values choice).get state)
      ≤ values'.get state := by
    intro state
    have hnext := (steady_of_evaluate hmodel h').worth_le hproper hdiscount hworth _
      (hmodel.state_mem state)
    rwa [hmodel.valueOf_get, hmodel.choiceOf_get, ← hmodel.actionValue_eq] at hnext
  obtain ⟨state, hstate⟩ := hswitch
  exact Pi.lt_def.mpr ⟨fun state => (hbetter state).1.trans (hle state),
    state, ((hbetter state).2 hstate).trans_le (hle state)⟩

/-- **Values that no action improves on by more than the threshold are nearly optimal.** -/
theorem abs_sub_le_of_stopped (hdiscount : mdp.horizon.discount < 1)
    (h : evaluate model choice = .ok values)
    (hstopped : ∀ state, switch? model values choice state = none) {optimum : State → K}
    (hoptimum : mdp.Bellman optimum) :
    ∀ state ∈ mdp.states, |model.valueOf values state - optimum state|
      ≤ improvementThreshold / (1 - mdp.horizon.discount) := by
  have hnear : ∀ state ∈ mdp.states, ∀ action ∈ mdp.actions,
      mdp.worth (model.valueOf values) state action
        ≤ model.valueOf values state + improvementThreshold := by
    refine hmodel.forall_state.mpr fun state action haction => ?_
    obtain ⟨number, rfl⟩ := hmodel.exists_action action haction
    rw [← hmodel.actionValue_eq, hmodel.valueOf_get, eq_actionValue_of_evaluate h state]
    exact ((model.backup_spec values state).2 number).trans
      (backup_le_of_switch?_eq_none (hstopped state))
  intro state hstate
  have hbelow := (steady_of_evaluate hmodel h).le_optimum hproper hdiscount hoptimum state hstate
  rw [abs_sub_comm, abs_of_nonneg (sub_nonneg.mpr hbelow), sub_le_iff_le_add']
  exact hoptimum.le_add_div hproper hdiscount improvementThreshold_pos.le hnear state hstate

end

/-! ### Whole runs -/

omit [IsStrictOrderedRing K] in
private theorem all_isNone_iff :
    (Vector.ofFn (switch? model values choice)).all Option.isNone = true ↔
      ∀ state, switch? model values choice state = none := by
  simp only [Vector.all_eq_true, Vector.getElem_ofFn, Option.isNone_iff_eq_none]
  exact ⟨fun h state => h state state.isLt, fun h i hi => h ⟨i, hi⟩⟩

/-- **A run never fails, and its values climb.** -/
theorem improveRecorded_run (hmodel : model.Models mdp) (hproper : mdp.Proper)
    (hdiscount : mdp.horizon.discount ≤ 1 - 1e-12) : ∀ (rounds made : Nat)
    (choice : Vector (Fin m) n), ∃ found record,
      improveRecorded model rounds made choice = .ok (found, record) ∧
        Run model rounds choice found record := by
  have hshort : mdp.horizon.discount < 1 :=
    hdiscount.trans_lt (sub_lt_self 1 improvementThreshold_pos)
  intro rounds
  induction rounds with
  | zero =>
      intro made choice
      obtain ⟨values, hvalues⟩ := exists_evaluate hmodel hproper hdiscount choice
      refine ⟨{ choice, values, iterations := made, converged := false }, [(choice, values)],
        by rw [improveRecorded, hvalues]; rfl, fun entry hentry => ?_, rfl, rfl,
        List.pairwise_singleton _ _, fun h => (nomatch h), fun _ => rfl⟩
      rw [List.mem_singleton.mp hentry]
      exact hvalues
  | succ rounds ih =>
      intro made choice
      obtain ⟨values, hvalues⟩ := exists_evaluate hmodel hproper hdiscount choice
      by_cases hstopped : ∀ state, switch? model values choice state = none
      · refine ⟨{ choice, values, iterations := made + 1, converged := true }, [(choice, values)],
          by rw [improveRecorded, hvalues]; exact if_pos (all_isNone_iff.mpr hstopped),
          fun entry hentry => ?_, rfl, rfl, List.pairwise_singleton _ _, fun _ => hstopped,
          fun h => (nomatch h)⟩
        rw [List.mem_singleton.mp hentry]
        exact hvalues
      · obtain ⟨found, record, hlater, hrun⟩ := ih (made + 1) (switched model values choice)
        refine ⟨found, (choice, values) :: record, ?_, hrun.cons hvalues fun values' h' =>
          values_lt hmodel hproper hshort hvalues h' (not_forall.mp hstopped)⟩
        rw [improveRecorded, hvalues]
        refine (if_neg (mt all_isNone_iff.mp hstopped)).trans ?_
        rw [switched] at hlater
        rw [hlater]
        rfl

/-! ### The solver -/

/-- A solution, and the record of the run that it came from. -/
def Records (maxRounds : Nat) (mdp : Mdp K) (solution : MdpSolution K)
    (record : List (Vector (Fin mdp.actions.size) mdp.states.size × Vector K mdp.states.size)) :
    Prop :=
  ∃ model found, mdp.dense = .ok model ∧
    improveRecorded model maxRounds 0 (Vector.replicate mdp.states.size model.firstAction)
      = .ok (found, record) ∧
    solution = found.solution model mdp.horizon.toSpan

/-- What the solver does about an endless span. -/
theorem solve_exact_eq {α : Type} [Scalar α] {mdp : Mdp α} (tolerance : α) (maxRounds : Nat)
    (hendless : mdp.horizon.epochs = 0)
    {model : DenseMdp α mdp.states.size mdp.actions.size} (hdense : mdp.dense = .ok model) :
    solve { evaluation := .exact, tolerance, maxRounds } mdp
      = ((improveExactly model maxRounds 0
          (Vector.replicate mdp.states.size model.firstAction)).mapError Error.numeric).map
            fun found => found.solution model mdp.horizon.toSpan := by
  unfold solve
  rw [Span.isFinite_eq_false hendless, hdense]
  change (liftM (improveExactly model maxRounds 0 _) >>= fun found =>
    pure (found.solution model mdp.horizon.toSpan) : Except Error (MdpSolution α)) = _
  cases improveExactly model maxRounds 0 (Vector.replicate mdp.states.size model.firstAction) <;>
    rfl

open Filter Topology

variable [Archimedean K] [TopologicalSpace K] [OrderTopology K]

/-- **Exact policy iteration**: the values that are evaluated climb and no choice is evaluated
twice, so it converges if it may make as many rounds as there are choices; the values that it
hands out are what its policy earns, and when it has converged they are nearly optimal. -/
theorem solve_exact (tolerance : K) (maxRounds : Nat) (hproper : mdp.Proper)
    (hendless : mdp.horizon.epochs = 0) (hdiscount : mdp.horizon.discount ≤ 1 - 1e-12) :
    ∃ solution, solve { evaluation := .exact, tolerance, maxRounds } mdp = .ok solution ∧
      (∃ record, Records maxRounds mdp solution record ∧ record.Pairwise fun earlier later =>
        earlier.1 ≠ later.1 ∧ ∀ state, earlier.2.get state ≤ later.2.get state) ∧
      (mdp.actions.size ^ mdp.states.size ≤ maxRounds → solution.converged = true) ∧
      (∃ choice, ∀ state ∈ mdp.states,
        solution.policy.get 0 state = .ok (choice state) ∧ choice state ∈ mdp.actions ∧
        Tendsto (fun decisions => mdp.earned decisions (.stationary choice) state) atTop
          (𝓝 (solution.value state))) ∧
      ∃ optimum, mdp.Optimal optimum ∧ (solution.converged = true → ∀ state ∈ mdp.states,
        |solution.value state - optimum state| ≤ 1e-12 / (1 - mdp.horizon.discount)) := by
  have hshort : mdp.horizon.discount < 1 :=
    hdiscount.trans_lt (sub_lt_self 1 improvementThreshold_pos)
  obtain ⟨model, hdense, hmodel⟩ :=
    Mdp.dense_models hproper.clamped hproper.states hproper.actions
  obtain ⟨found, record, hrecorded, hrun⟩ := improveRecorded_run hmodel hproper hdiscount
    maxRounds 0 (Vector.replicate mdp.states.size model.firstAction)
  have hfound : improveExactly model maxRounds 0 (Vector.replicate _ model.firstAction)
      = .ok found := by
    rw [← fst_improveRecorded, hrecorded]
    rfl
  have hsolve := solve_exact_eq tolerance maxRounds hendless hdense
  rw [hfound] at hsolve
  have hsteady := steady_of_evaluate hmodel hrun.evaluate_found
  obtain ⟨optimum, hoptimum⟩ := hproper.exists_bellman hshort
  refine ⟨_, hsolve, ⟨record, ⟨model, found, hdense, hrecorded, rfl⟩, hrun.pairwise⟩,
    fun henough => ?_, ⟨model.choiceOf found.choice, fun state hstate => ⟨?_, ?_, ?_⟩⟩,
    optimum, hoptimum.optimal hproper hshort, fun hconverged => ?_⟩
  · by_contra hno
    have hlength := hrun.exhausted (Bool.eq_false_iff.mpr hno)
    have hle := hrun.length_le
    omega
  · exact hmodel.get_solution _ found hstate
  · exact hsteady.allowed state hstate
  · exact hsteady.tendsto_earned hproper hshort hstate
  · exact abs_sub_le_of_stopped hmodel hproper hshort hrun.evaluate_found (hrun.stopped hconverged)
      hoptimum

theorem solve_exact_shuttle :
    ∃ solution, solve { evaluation := .exact, tolerance := (0 : ℚ), maxRounds := 4 } shuttle
        = .ok solution ∧
      (∃ record, Records 4 shuttle solution record ∧ record.Pairwise fun earlier later =>
        earlier.1 ≠ later.1 ∧ ∀ state, earlier.2.get state ≤ later.2.get state) ∧
      (shuttle.actions.size ^ shuttle.states.size ≤ 4 → solution.converged = true) ∧
      (∃ choice, ∀ state ∈ shuttle.states,
        solution.policy.get 0 state = .ok (choice state) ∧ choice state ∈ shuttle.actions ∧
        Tendsto (fun decisions => shuttle.earned decisions (.stationary choice) state) atTop
          (𝓝 (solution.value state))) ∧
      ∃ optimum, shuttle.Optimal optimum ∧ (solution.converged = true → ∀ state ∈ shuttle.states,
        |solution.value state - optimum state| ≤ 1e-12 / (1 - shuttle.horizon.discount)) :=
  solve_exact 0 4 shuttle_proper rfl (by decide +kernel)

/-- It is best to drive over once and to stay away. -/
example : ((solve { evaluation := .exact, tolerance := (0 : ℚ), maxRounds := 4 }
    shuttle).toOption.map fun solution => (solution.converged,
      solution.value (.named .state "home"), solution.value (.named .state "away")))
    = some (true, 27/2, 20) := by decide +kernel

end MarkovPlanning.PolicyIteration
