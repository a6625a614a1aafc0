/-
What a planner hands out is complete.

In a planner states and actions are numbers that are bounded by their types.  Where no comparison
holds, because values are no numbers, and where no round is made, the first action is taken, and
there is one because a process without actions is refused.  So a choice always is one, of an
action for every state, and behind the numbers stand the entities of the process
(`Mdp.decides_mapping`).  A policy is put together from such choices, one for each slot, and
writing them down entry by entry never leaves its span (`PolicyMap.recorded_of_decides`).

How often a search went round is counted as it goes, so it stops short of its limit only if it has
converged (`Stationary.Stopped`).  None of this depends on the arithmetic.
-/
import MarkovPlanning.Mdp.PolicyIteration
import MarkovPlanning.Mdp.ValueIteration
import MarkovPlanning.Proofs.Mdp.Overflow
import Mathlib

namespace MarkovPlanning

variable {α : Type} [Scalar α]

/-! ### Searches -/

section
variable {n m : Nat}

/-- A search that has stopped: within its limit, and before it only if it has converged. -/
structure Stationary.Stopped (limit : Nat) (found : Stationary α n m) : Prop where
  iterations_le : found.iterations ≤ limit
  used_up : found.converged = false → found.iterations = limit

theorem ValueIteration.stopped_improve (model : DenseMdp α n m) (limit : Option α)
    (sweeps made : Nat) (values : Vector α n) (choice : Vector (Fin m) n) :
    (improve model limit sweeps made values choice).Stopped (made + sweeps) := by
  induction sweeps generalizing made values choice with
  | zero => exact ⟨Nat.le_refl _, fun _ => rfl⟩
  | succ sweeps ih =>
      unfold improve
      dsimp only
      split
      · exact ⟨by dsimp only; omega, fun hfound => absurd hfound.symm Bool.false_ne_true⟩
      · rw [← Nat.succ_add_eq_add_succ]
        exact ih _ _ _

theorem PolicyIteration.stopped_improveBySweeps (model : DenseMdp α n m) (limit : Option α)
    (perBlock rounds made : Nat) (values : Vector α n) (choice : Vector (Option (Fin m)) n) :
    (improveBySweeps model limit perBlock rounds made values choice).Stopped (made + rounds) := by
  induction rounds generalizing made values choice with
  | zero => exact ⟨Nat.le_refl _, fun _ => rfl⟩
  | succ rounds ih =>
      unfold improveBySweeps
      dsimp only
      split
      · exact ⟨by dsimp only; omega, fun hfound => absurd hfound.symm Bool.false_ne_true⟩
      · rw [← Nat.succ_add_eq_add_succ]
        exact ih _ _ _

theorem PolicyIteration.stopped_improveExactly (model : DenseMdp α n m) (rounds made : Nat)
    (choice : Vector (Fin m) n) {found : Stationary α n m}
    (h : improveExactly model rounds made choice = .ok found) :
    found.Stopped (made + rounds) := by
  induction rounds generalizing made choice with
  | zero =>
      unfold improveExactly at h
      cases hvalues : evaluate model choice with
      | error fault =>
          rw [hvalues] at h
          cases h
      | ok values =>
          rw [hvalues] at h
          obtain rfl := Except.ok.inj h
          exact ⟨Nat.le_refl _, fun _ => rfl⟩
  | succ rounds ih =>
      unfold improveExactly at h
      cases hvalues : evaluate model choice with
      | error fault =>
          rw [hvalues] at h
          cases h
      | ok values =>
          rw [hvalues] at h
          dsimp only [bind, Except.bind] at h
          split at h
          · obtain rfl := Except.ok.inj h
            exact ⟨by dsimp only; omega, fun hfound => absurd hfound.symm Bool.false_ne_true⟩
          · rw [← Nat.succ_add_eq_add_succ]
            exact ih _ _ h

end

/-! ### Numbers and entities -/

namespace Mdp

variable {mdp : Mdp α} {model : DenseMdp α mdp.states.size mdp.actions.size}

theorem actions_dense (h : mdp.dense = .ok model) : model.actions = mdp.actions.toVector := by
  unfold dense at h
  dsimp only at h
  split at h
  · obtain rfl := Except.ok.inj h
    rfl
  · cases h

/-- **Only a process without states or without actions is refused.** -/
theorem dense_eq_error_iff {fault : ShapeFault} :
    mdp.dense = .error fault ↔
      (mdp.states = ∅ ∨ mdp.actions = ∅) ∧
        fault = .emptyMdp mdp.states.size mdp.actions.size := by
  rw [Std.ExtTreeSet.eq_empty_iff_size_eq_zero, Std.ExtTreeSet.eq_empty_iff_size_eq_zero]
  unfold dense
  dsimp only
  split
  · exact iff_of_false (fun hok => by cases hok) fun h => by omega
  · rw [Except.error.injEq, eq_comm, and_iff_right (by omega)]

/-- A mapping that decides every state of a process, and no other, for an action of it. -/
structure Decides (mdp : Mdp α) (mapping : EntityMap .state Action) : Prop where
  mem_iff : ∀ state, state ∈ mapping ↔ state ∈ mdp.states
  action_mem : ∀ (state : State) (action : Action), mapping[state]? = some action →
    action ∈ mdp.actions

/-- **The entities behind a numbered choice decide every state.** -/
theorem decides_mapping (h : mdp.dense = .ok model)
    (choice : Vector (Fin mdp.actions.size) mdp.states.size) :
    mdp.Decides (model.mapping choice) := by
  have hstates := (dense_eq_ok h).1
  have hmem (state : State) : state ∈ model.mapping choice ↔ state ∈ mdp.states := by
    rw [DenseMdp.mapping, EntityMap.mem_ofList_finRange, hstates, Collection.mem_iff_exists_get]
  refine ⟨hmem, fun state action hget => ?_⟩
  have hstate : state ∈ model.mapping choice := by
    rw [← Std.ExtTreeMap.isSome_getElem?_iff_mem, hget]
    rfl
  obtain ⟨number, rfl⟩ := Collection.exists_get_toVector ((hmem state).mp hstate)
  rw [DenseMdp.mapping, hstates,
    EntityMap.getElem?_ofList_finRange mdp.states.get_toVector_injective] at hget
  rw [← Option.some.inj hget, actions_dense h]
  exact mdp.actions.get_toVector_mem _

/-- The values that are handed out are those of the states. -/
theorem mem_valueMap (h : mdp.dense = .ok model) (values : Vector α mdp.states.size)
    (state : State) : state ∈ model.valueMap values ↔ state ∈ mdp.states := by
  rw [DenseMdp.valueMap, EntityMap.mem_ofList_finRange, (dense_eq_ok h).1,
    Collection.mem_iff_exists_get]

end Mdp

/-! ### Policies -/

namespace PolicyMap

variable {mdp : Mdp α}

/-- Writes down the decisions of an epoch one by one. -/
def record (policy : PolicyMap) (epoch : Nat) (states : List State) (choose : State → Action) :
    Except PolicyFault PolicyMap :=
  states.foldlM (fun policy state => policy.set epoch state (choose state)) policy

/-- Writes in an epoch of the span are never refused. -/
theorem record_eq_ok (policy : PolicyMap) {epoch : Nat} (h : epoch < policy.span.slots)
    (states : List State) (choose : State → Action) :
    policy.record epoch states choose
      = .ok { policy with
          epochs := policy.epochs.set epoch
            (states.foldl (fun mapping state => mapping.insert state (choose state))
              policy.epochs[epoch]) } := by
  induction states generalizing policy with
  | nil => simp [record, pure, Except.pure]
  | cons state states ih =>
      have hset : policy.set epoch state (choose state)
          = .ok { policy with
              epochs := policy.epochs.set epoch
                (policy.epochs[epoch].insert state (choose state)) } := dif_pos h
      rw [record, List.foldlM_cons, hset]
      refine (ih { policy with epochs := policy.epochs.set epoch _ } h).trans ?_
      simp only [Vector.getElem_set_self, Vector.set_set, List.foldl_cons]

/-- Epochs of the span are written one after the other. -/
theorem foldlM_record (policy : PolicyMap) (states : List State)
    (choose : Nat → State → Action) {epochs : List Nat} (hnodup : epochs.Nodup)
    (hepochs : ∀ epoch ∈ epochs, epoch < policy.span.slots) :
    ∃ written : Vector (EntityMap .state Action) policy.span.slots,
      epochs.foldlM (fun policy epoch => policy.record epoch states (choose epoch)) policy
        = .ok { policy with epochs := written } ∧
      ∀ (epoch : Nat) (h : epoch < policy.span.slots),
        written[epoch] = if epoch ∈ epochs then
            states.foldl (fun mapping state => mapping.insert state (choose epoch state))
              policy.epochs[epoch]
          else policy.epochs[epoch] := by
  induction epochs generalizing policy with
  | nil => exact ⟨policy.epochs, rfl, fun epoch h => rfl⟩
  | cons first rest ih =>
      have hfirst := hepochs first List.mem_cons_self
      have hnotMem := (List.nodup_cons.mp hnodup).1
      rw [List.foldlM_cons, record_eq_ok policy hfirst]
      obtain ⟨written, hwritten, hget⟩ := ih { policy with epochs := policy.epochs.set first _ }
        (List.nodup_cons.mp hnodup).2 fun epoch hepoch =>
          hepochs epoch (List.mem_cons_of_mem _ hepoch)
      refine ⟨written, hwritten, fun epoch hepoch => ?_⟩
      rw [hget epoch hepoch]
      by_cases heq : epoch = first
      · subst heq
        rw [if_neg hnotMem, if_pos List.mem_cons_self, Vector.getElem_set_self]
      · simp only [Vector.getElem_set_ne _ _ (Ne.symm heq), List.mem_cons, heq, false_or]

/-- A policy that is left when its decisions for some states are written down, state by state and
the last epoch first.  No write is refused. -/
def Recorded (policy : PolicyMap) (states : List State) : Prop :=
  ∃ choose : Nat → State → Action,
    (∀ epoch state action, policy.get epoch state = .ok action → choose epoch state = action) ∧
      (List.range policy.span.slots).reverse.foldlM
        (fun policy epoch => policy.record epoch states (choose epoch)) (empty policy.span)
          = .ok policy

omit [Scalar α] in
/-- **A policy that decides the states of a process in every epoch can be written down.** -/
theorem recorded_of_decides {span : Span} {epochs : Vector (EntityMap .state Action) span.slots}
    (h : ∀ (epoch : Nat) (h : epoch < span.slots), mdp.Decides epochs[epoch]) :
    ({ span, epochs } : PolicyMap).Recorded mdp.states.toList := by
  let choose (epoch : Nat) (state : State) : Action :=
    (epochs[epoch]?.bind fun mapping => mapping[state]?).getD default
  have hchoose {epoch : Nat} (hepoch : epoch < span.slots) {state : State} {action : Action}
      (hget : epochs[epoch][state]? = some action) : choose epoch state = action := by
    simp only [choose, Vector.getElem?_eq_getElem hepoch, Option.bind_some, hget, Option.getD_some]
  obtain ⟨written, hwritten, hget⟩ := foldlM_record (empty span) mdp.states.toList choose
    (List.nodup_reverse.mpr List.nodup_range) fun epoch hepoch => by simpa using hepoch
  refine ⟨choose, fun epoch state action hdecided => ?_, hwritten.trans ?_⟩
  · have hepoch := lt_slots_of_get hdecided
    exact hchoose hepoch ((get_eq_ok_iff hepoch).mp hdecided)
  have hepochs : written = epochs := by
    refine Vector.ext fun epoch hepoch => ?_
    rw [hget epoch hepoch, if_pos (by simpa using hepoch),
      show (empty span).epochs[epoch] = ∅ from Vector.getElem_replicate _]
    exact EntityMap.foldl_insert_eq
      (fun state => ((h epoch hepoch).mem_iff state).trans Std.ExtTreeSet.mem_toList.symm)
      fun state action => hchoose hepoch
  rw [hepochs]
  rfl

end PolicyMap

/-! ### Solutions -/

/-- A solution that leaves nothing of a process open, found in no more rounds than a limit. -/
structure MdpSolution.Complete (mdp : Mdp α) (limit : Nat) (solution : MdpSolution α) : Prop where
  span_eq : solution.policy.span = mdp.horizon.toSpan
  /-- Every state is decided at every epoch of the policy, and nothing else is. -/
  decided_iff : ∀ epoch state, (∃ action, solution.policy.get epoch state = .ok action) ↔
    epoch < mdp.horizon.slots ∧ state ∈ mdp.states
  action_mem : ∀ epoch state action, solution.policy.get epoch state = .ok action →
    action ∈ mdp.actions
  recorded : solution.policy.Recorded mdp.states.toList
  mem_values : ∀ state, state ∈ solution.values ↔ state ∈ mdp.states
  iterations_le : mdp.horizon.isFinite = false → solution.iterations ≤ limit
  /-- A search only gives up when it has used up its rounds. -/
  used_up : mdp.horizon.isFinite = false → solution.converged = false →
    solution.iterations = limit

section
variable {mdp : Mdp α} {model : DenseMdp α mdp.states.size mdp.actions.size}

omit [Scalar α] in
/-- A policy of choices decides everything. -/
theorem complete_of_decides {solution : MdpSolution α} {limit : Nat}
    {epochs : Vector (EntityMap .state Action) mdp.horizon.slots}
    (hpolicy : solution.policy = { span := mdp.horizon.toSpan, epochs })
    (hdecides : ∀ (epoch : Nat) (h : epoch < mdp.horizon.slots), mdp.Decides epochs[epoch])
    (hvalues : ∀ state, state ∈ solution.values ↔ state ∈ mdp.states)
    (hstopped : mdp.horizon.isFinite = false → solution.iterations ≤ limit ∧
      (solution.converged = false → solution.iterations = limit)) :
    solution.Complete mdp limit where
  span_eq := by rw [hpolicy]
  decided_iff epoch state := by
    rw [hpolicy]
    constructor
    · rintro ⟨action, hget⟩
      have hepoch := PolicyMap.lt_slots_of_get hget
      refine ⟨hepoch, ((hdecides epoch hepoch).mem_iff state).mp ?_⟩
      rw [← Std.ExtTreeMap.isSome_getElem?_iff_mem, (PolicyMap.get_eq_ok_iff hepoch).mp hget]
      rfl
    · rintro ⟨hepoch, hstate⟩
      have hdecided := ((hdecides epoch hepoch).mem_iff state).mpr hstate
      obtain ⟨action, hget⟩ := Option.isSome_iff_exists.mp
        (Std.ExtTreeMap.isSome_getElem?_iff_mem.mpr hdecided)
      exact ⟨action, (PolicyMap.get_eq_ok_iff hepoch).mpr hget⟩
  action_mem epoch state action hget := by
    rw [hpolicy] at hget
    have hepoch := PolicyMap.lt_slots_of_get hget
    exact (hdecides epoch hepoch).action_mem state action ((PolicyMap.get_eq_ok_iff hepoch).mp hget)
  recorded := by
    rw [hpolicy]
    exact PolicyMap.recorded_of_decides hdecides
  mem_values := hvalues
  iterations_le hendless := (hstopped hendless).1
  used_up hendless := (hstopped hendless).2

/-- **A search that has stopped gives a complete solution.** -/
theorem Stationary.Stopped.complete {limit : Nat}
    {found : Stationary α mdp.states.size mdp.actions.size} (h : found.Stopped limit)
    (hdense : mdp.dense = .ok model) :
    (found.solution model mdp.horizon.toSpan).Complete mdp limit :=
  complete_of_decides rfl
    (fun epoch hepoch => by
      rw [Vector.getElem_replicate]
      exact Mdp.decides_mapping hdense found.choice)
    (Mdp.mem_valueMap hdense found.values) fun _ => ⟨h.iterations_le, h.used_up⟩

/-- **Backward induction gives a complete solution.** -/
theorem ValueIteration.complete_solveFinite (hdense : mdp.dense = .ok model)
    (hfinite : 0 < mdp.horizon.epochs) (limit : Nat) :
    (solveFinite model mdp.horizon.toSpan hfinite).Complete mdp limit :=
  complete_of_decides rfl
    (fun epoch hepoch => by
      rw [Vector.getElem_cast, Vector.getElem_map]
      exact Mdp.decides_mapping hdense _)
    (Mdp.mem_valueMap hdense _) fun hendless => by
      rw [Span.isFinite, decide_eq_false_iff_not] at hendless
      exact absurd hfinite hendless

end

/-! ### Planners -/

section
variable {mdp : Mdp α}

theorem ValueIteration.solve_eq_error_iff {solver : ValueIteration α} {fault : ShapeFault} :
    solver.solve mdp = .error fault ↔ mdp.dense = .error fault := by
  unfold solve
  cases mdp.dense with
  | error other =>
      show (Except.error other : Except ShapeFault (MdpSolution α)) = .error fault ↔ _
      rw [Except.error.injEq, Except.error.injEq]
  | ok model =>
      refine iff_of_false (fun h => ?_) fun hok => by cases hok
      dsimp only [bind, Except.bind] at h
      split at h <;> cases h

theorem ValueIteration.complete_of_solve {solver : ValueIteration α} {solution : MdpSolution α}
    (h : solver.solve mdp = .ok solution) : solution.Complete mdp solver.maxSweeps := by
  obtain ⟨model, hdense⟩ := exists_dense h
  by_cases hfinite : 0 < mdp.horizon.epochs
  · have hsolve : solver.solve mdp = .ok (solveFinite model mdp.horizon.toSpan hfinite) := by
      unfold solve
      rw [hdense]
      exact dif_pos hfinite
    rw [← Except.ok.inj (hsolve.symm.trans h)]
    exact complete_solveFinite hdense hfinite _
  · rw [solve_endless_eq (Nat.eq_zero_of_not_pos hfinite) hdense] at h
    obtain rfl := Except.ok.inj h
    have hstopped := stopped_improve model (residualLimit solver.tolerance model.discount)
      solver.maxSweeps 0 (Vector.replicate _ 0) (Vector.replicate _ model.firstAction)
    rw [Nat.zero_add] at hstopped
    exact hstopped.complete hdense

namespace PolicyIteration

/-- A process of a shape that policy iteration does not take. -/
def Refuses (solver : PolicyIteration α) (mdp : Mdp α) : Prop :=
  mdp.horizon.isFinite = true ∨ solver.evaluation = .sweeps 0 ∨
    mdp.states = ∅ ∨ mdp.actions = ∅

theorem solve_refused {solver : PolicyIteration α} (h : solver.Refuses mdp) :
    ∃ fault, solver.solve mdp = .error (.shape fault) := by
  unfold solve
  by_cases hfinite : mdp.horizon.isFinite = true
  · rw [if_pos hfinite]
    exact ⟨.finiteHorizon, rfl⟩
  by_cases hsweeps : solver.evaluation = .sweeps 0
  · rw [if_neg hfinite, if_pos hsweeps]
    exact ⟨.noSweeps, rfl⟩
  have hempty := (h.resolve_left hfinite).resolve_left hsweeps
  rw [if_neg hfinite, if_neg hsweeps, Mdp.dense_eq_error_iff.mpr ⟨hempty, rfl⟩]
  exact ⟨.emptyMdp mdp.states.size mdp.actions.size, rfl⟩

/-- **What is not refused is solved completely, unless a choice cannot be evaluated.** -/
theorem solve_of_not_refused {solver : PolicyIteration α} (h : ¬solver.Refuses mdp) :
    (∃ solution, solver.solve mdp = .ok solution ∧ solution.Complete mdp solver.maxRounds) ∨
      solver.evaluation = .exact ∧ ∃ fault, solver.solve mdp = .error (.numeric fault) := by
  obtain ⟨evaluation, tolerance, maxRounds⟩ := solver
  simp only [Refuses, not_or] at h
  obtain ⟨hfinite, hsweeps, hstates, hactions⟩ := h
  have hendless : mdp.horizon.epochs = 0 := by simpa [Span.isFinite] using hfinite
  obtain ⟨model, hdense⟩ : ∃ model, mdp.dense = .ok model := by
    cases hdense : mdp.dense with
    | ok model => exact ⟨model, rfl⟩
    | error fault =>
        exact absurd (Mdp.dense_eq_error_iff.mp hdense).1 (not_or.mpr ⟨hstates, hactions⟩)
  cases evaluation with
  | exact =>
      rw [solve_exact_eq tolerance maxRounds hendless hdense]
      cases hfound : improveExactly model maxRounds 0
          (Vector.replicate mdp.states.size model.firstAction) with
      | error fault => exact .inr ⟨rfl, fault, rfl⟩
      | ok found =>
          have hstopped := stopped_improveExactly model maxRounds 0 _ hfound
          rw [Nat.zero_add] at hstopped
          exact .inl ⟨_, rfl, hstopped.complete hdense⟩
  | sweeps perBlock =>
      have hblock : 1 ≤ perBlock := Nat.pos_of_ne_zero fun heq => hsweeps (congrArg _ heq)
      rw [solve_sweeps_eq tolerance maxRounds hblock hendless hdense]
      have hstopped := stopped_improveBySweeps model (residualLimit tolerance model.discount)
        perBlock maxRounds 0 (Vector.replicate _ 0) (Vector.replicate _ none)
      rw [Nat.zero_add] at hstopped
      exact .inl ⟨_, rfl, hstopped.complete hdense⟩

end PolicyIteration

end

/-- **A planner refuses a process of the wrong shape, and every solution it finds is complete.**
Value iteration takes every process that has a state and an action.  Policy iteration takes those
among them whose span is endless, if its blocks have a sweep, and then only exact evaluation can
still fail. -/
theorem solve_complete (mdp : Mdp α) :
    (∀ solver : ValueIteration α,
      (∀ fault, solver.solve mdp = .error fault ↔
        (mdp.states = ∅ ∨ mdp.actions = ∅) ∧
          fault = .emptyMdp mdp.states.size mdp.actions.size) ∧
      ∀ solution, solver.solve mdp = .ok solution → solution.Complete mdp solver.maxSweeps) ∧
    ∀ solver : PolicyIteration α,
      ((∃ fault, solver.solve mdp = .error (.shape fault)) ↔
        mdp.horizon.isFinite = true ∨ solver.evaluation = .sweeps 0 ∨
          mdp.states = ∅ ∨ mdp.actions = ∅) ∧
      (∀ error, solver.solve mdp = .error error → (∃ fault, error = .shape fault) ∨
        solver.evaluation = .exact ∧ ∃ fault, error = .numeric fault) ∧
      ∀ solution, solver.solve mdp = .ok solution → solution.Complete mdp solver.maxRounds := by
  refine ⟨fun solver => ⟨fun fault => ?_, fun solution h => solver.complete_of_solve h⟩,
    fun solver => ?_⟩
  · rw [ValueIteration.solve_eq_error_iff, Mdp.dense_eq_error_iff]
  by_cases hrefuses : solver.Refuses mdp
  · obtain ⟨fault, hsolve⟩ := PolicyIteration.solve_refused hrefuses
    refine ⟨iff_of_true ⟨fault, hsolve⟩ hrefuses, fun error h => ?_, fun solution h => ?_⟩
    · exact .inl ⟨fault, Except.error.inj (h.symm.trans hsolve)⟩
    · cases h.symm.trans hsolve
  · rcases PolicyIteration.solve_of_not_refused hrefuses with
      ⟨found, hsolve, hcomplete⟩ | ⟨hexact, fault, hsolve⟩
    · refine ⟨iff_of_false ?_ hrefuses, fun error h => ?_, fun solution h => ?_⟩
      · rintro ⟨fault, h⟩
        cases h.symm.trans hsolve
      · cases h.symm.trans hsolve
      · obtain rfl := Except.ok.inj (h.symm.trans hsolve)
        exact hcomplete
    · refine ⟨iff_of_false ?_ hrefuses, fun error h => ?_, fun solution h => ?_⟩
      · rintro ⟨other, h⟩
        cases h.symm.trans hsolve
      · exact .inr ⟨hexact, fault, Except.error.inj (h.symm.trans hsolve)⟩
      · cases h.symm.trans hsolve

/-- A process in which no decision has a value that is a number. -/
def unmeasured : Mdp Float where
  states := .ofNames .state ["here", "there"]
  actions := .ofNames .action ["wait", "leave"]
  transitions := TransitionTable.set {} none none none 1
  rewards := RewardTable.insert {} (.cons none (.cons none (.cons none .nil))) (0 / 0)
  horizon := .infinite 0.9

/-- Blocks of two sweeps, none of which may be made. -/
def idle : PolicyIteration Float where
  evaluation := .sweeps 2
  tolerance := 0
  maxRounds := 0

/-- Solutions are complete without a number to go by, and without a round to find them in. -/
theorem solve_complete_unmeasured :
    (∃ solution, ValueIteration.standard.solve unmeasured = .ok solution ∧
      solution.Complete unmeasured 100000) ∧
    ∃ solution, idle.solve unmeasured = .ok solution ∧ solution.Complete unmeasured 0 := by
  obtain ⟨hvalue, hpolicy⟩ := solve_complete unmeasured
  have hempty : ¬(unmeasured.states = ∅ ∨ unmeasured.actions = ∅) := by
    rw [Std.ExtTreeSet.eq_empty_iff_size_eq_zero, Std.ExtTreeSet.eq_empty_iff_size_eq_zero]
    decide +kernel
  constructor
  · obtain ⟨herror, hcomplete⟩ := hvalue .standard
    cases hsolve : ValueIteration.standard.solve unmeasured with
    | ok solution => exact ⟨solution, rfl, hcomplete solution hsolve⟩
    | error fault => exact absurd ((herror fault).mp hsolve).1 hempty
  · obtain ⟨hshape, herror, hcomplete⟩ := hpolicy idle
    cases hsolve : idle.solve unmeasured with
    | ok solution => exact ⟨solution, rfl, hcomplete solution hsolve⟩
    | error error =>
        rcases herror error hsolve with ⟨fault, rfl⟩ | ⟨hexact, -⟩
        · rcases hshape.mp ⟨fault, hsolve⟩ with hfinite | hsweeps | hvoid
          · cases hfinite
          · cases hsweeps
          · exact absurd hvoid hempty
        · cases hexact

end MarkovPlanning
