/-
What an overflow does to a search that converges.

Values that grow can leave the range of double precision.  The change of a value that was
finite and is not any more is infinite, and so is the residual from then on
(`of_greater_change_ne`).  If an infinite residual is not within the limit, the search does not end
with a sweep in which this happens.  And no value is ever no number, because only what
compares with something is chosen (`DenseMdp.backup_le_self`).

So when a search has converged its values are numbers, and those that were finite before the
last sweep still are (`Mdp.staysFinite_of_converged`).  Values that an earlier sweep has made
infinite are another matter.  The change from an infinity to itself is no number, and the
greatest of several changes leaves it out.  So the sweep after an overflow may see no change at
all, and the search ends as if it had come to rest (`geyser_converged`).
-/
import MarkovPlanning.Proofs.Double
import MarkovPlanning.Proofs.Mdp.Blocks
import MarkovPlanning.Proofs.Mdp.Loss

namespace MarkovPlanning

open Scalar (infinity isFinite)

/-! ### Backups -/

namespace DenseMdp

variable {n m : Nat}

/-- What is taken up compares with something, so it compares with itself. -/
theorem Backup.improve_le_self {best : Option (Backup Float m)} {value : Float} {action : Fin m}
    (hbest : ∀ backup ∈ best, backup.value ≤ backup.value) :
    ∀ backup ∈ improve best value action, backup.value ≤ backup.value := by
  intro backup hbackup
  unfold improve at hbackup
  split at hbackup
  · split at hbackup
    · rename_i hcandidate
      obtain rfl := Option.some.inj hbackup
      exact Scalar.le_self_of_lt (of_decide_eq_true hcandidate)
    · cases hbackup
  · split at hbackup
    · rename_i hbetter
      obtain rfl := Option.some.inj hbackup
      exact Scalar.le_self_of_lt hbetter
    · exact hbest backup hbackup

/-- **No backup is no number**, whatever it backs up. -/
theorem backup_le_self (model : DenseMdp Float n m) (values : Vector Float n) (state : Fin n) :
    (model.backup values state).value ≤ (model.backup values state).value := by
  have hbest := List.foldlRecOn
    (motive := fun best : Option (Backup Float m) => ∀ backup ∈ best, backup.value ≤ backup.value)
    (List.finRange m)
    (fun best action => Backup.improve best (model.actionValue values state action) action)
    (fun _ h => absurd h (Option.not_mem_none _)) fun _ hbest _ _ => Backup.improve_le_self hbest
  unfold backup
  dsimp only
  cases hfold : (List.finRange m).foldl (fun best action =>
      Backup.improve best (model.actionValue values state action) action) none with
  | none => exact (by decide : (Scalar.lowest : Float) ≤ Scalar.lowest)
  | some found => exact hbest found hfold

end DenseMdp

/-! ### Residuals -/

/-- A residual that is not infinite was not before, and nothing that was finite has become
infinite. -/
theorem of_greater_change_ne {residual value before : Float} (hvalue : value ≤ value)
    (h : Scalar.greater residual (Scalar.abs (value - before)) ≠ infinity) :
    residual ≠ infinity ∧ (isFinite before = true → isFinite value = true) := by
  constructor
  · rintro rfl
    exact h (Scalar.infinity_greater _)
  · intro hbefore
    by_contra hinfinite
    rw [Scalar.abs_sub_eq_infinity hvalue hinfinite hbefore] at h
    exact h (Scalar.greater_infinity _)

/-- A limit that is exceeded by an infinite residual lets no such residual pass. -/
theorem ne_infinity_of_settled {limit : Option Float} (hlimit : settled limit infinity = false)
    {residual : Float} (h : settled limit residual = true) : residual ≠ infinity := by
  rintro rfl
  rw [hlimit] at h
  cases h

namespace ValueIteration

variable {n m : Nat} {model : DenseMdp Float n m} {before : Vector Float n}

/-- What is known of a sweep that has visited the first states: they have numbers for values, and
unless the residual is infinite, what was finite still is. -/
structure Sweep.Kept (before : Vector Float n) (done : Nat) (sweep : Sweep Float n m) : Prop where
  number : ∀ state : Fin n, state.val < done → sweep.values.get state ≤ sweep.values.get state
  kept : ∀ state : Fin n, done ≤ state.val → sweep.values.get state = before.get state
  finite : sweep.residual ≠ infinity → ∀ state : Fin n,
    isFinite (before.get state) = true → isFinite (sweep.values.get state) = true

/-- A visit backs up one state more. -/
theorem Sweep.Kept.visit {state : Fin n} {sweep : Sweep Float n m}
    (h : Kept before state sweep) : Kept before (state + 1) (sweep.visit model state) := by
  have hnumber := model.backup_le_self sweep.values state
  refine ⟨fun other hother => ?_, fun other hother => ?_, fun hresidual other hfinite => ?_⟩
  · rw [get_visit]
    by_cases heq : other = state
    · rw [if_pos heq]
      exact hnumber
    · rw [if_neg heq]
      exact h.number other (lt_of_le_of_ne (Nat.le_of_lt_succ hother) (Fin.val_ne_of_ne heq))
  · rw [get_visit, if_neg (Fin.ne_of_val_ne (by omega))]
    exact h.kept other (by omega)
  · obtain ⟨hearlier, hchange⟩ := of_greater_change_ne hnumber hresidual
    rw [get_visit]
    by_cases heq : other = state
    · rw [if_pos heq]
      rw [heq, ← h.kept state (le_refl _)] at hfinite
      exact hchange hfinite
    · rw [if_neg heq]
      exact h.finite hearlier other hfinite

theorem sweep_kept (model : DenseMdp Float n m) (values : Vector Float n)
    (choice : Vector (Fin m) n) : Sweep.Kept values n (sweep model values choice) :=
  foldl_finRange (Sweep.Kept values)
    ⟨fun _ h => absurd h (Nat.not_lt_zero _), fun _ _ => rfl, fun _ _ h => h⟩
    fun _ _ h => h.visit

end ValueIteration

namespace PolicyIteration

variable {n m : Nat} {values after : Vector Float n}

/-- Unless the residual is infinite, what was finite still is. -/
theorem isFinite_of_residual (hnumber : ∀ state, after.get state ≤ after.get state)
    (h : residual values after ≠ infinity) (state : Fin n)
    (hfinite : isFinite (values.get state) = true) : isFinite (after.get state) = true := by
  refine foldl_finRange (fun done seen => seen ≠ infinity → ∀ state : Fin n, state.val < done →
    isFinite (values.get state) = true → isFinite (after.get state) = true)
    (fun _ state hstate => absurd hstate (Nat.not_lt_zero _)) ?_ h state state.isLt hfinite
  intro last seen hbefore hseen other hother hfinite
  obtain ⟨hearlier, hchange⟩ := of_greater_change_ne (hnumber last) hseen
  by_cases heq : other = last
  · rw [heq] at hfinite ⊢
    exact hchange hfinite
  · exact hbefore hearlier other
      (lt_of_le_of_ne (Nat.le_of_lt_succ hother) (Fin.val_ne_of_ne heq)) hfinite

end PolicyIteration

/-! ### Searches that converged -/

/-- A value that is a number, and finite if it was before. -/
def StaysFinite (before after : Float) : Prop :=
  after ≤ after ∧ (isFinite before = true → isFinite after = true)

section
variable {n m : Nat} {model : DenseMdp Float n m} {limit : Option Float}

/-- The last sweep of a search that converged leaves finite values finite. -/
theorem ValueIteration.improve_staysFinite (hlimit : settled limit infinity = false)
    {sweeps : Nat} {values : Vector Float n} {choice : Vector (Fin m) n}
    (hconverged : (improve model limit sweeps 0 values choice).converged = true) (state : Fin n) :
    let found := improve model limit sweeps 0 values choice
    StaysFinite ((improve model limit (found.iterations - 1) 0 values choice).values.get state)
      (found.values.get state) := by
  obtain ⟨done, hiterations, -, hsettled, hvalues, -⟩ := improve_last_sweep (p := fun _ => True)
    (fun _ _ _ => trivial) sweeps 0 values choice trivial hconverged
  dsimp only
  rw [hvalues, hiterations, show 0 + done + 1 - 1 = done by omega]
  generalize improve model limit done 0 values choice = before at hsettled ⊢
  have hkept := sweep_kept model before.values before.choice
  exact ⟨hkept.number state state.isLt,
    hkept.finite (ne_infinity_of_settled hlimit hsettled) state⟩

/-- The last sweep of a search by blocks that converged does so, too. -/
theorem PolicyIteration.improveBySweeps_staysFinite (hlimit : settled limit infinity = false)
    (hdiscount : ¬ 1 ≤ model.discount) {perBlock rounds : Nat} {values : Vector Float n}
    {choice : Vector (Option (Fin m)) n}
    (hconverged : (improveBySweeps model limit perBlock rounds 0 values choice).converged = true)
    (state : Fin n) :
    let found := improveBySweeps model limit perBlock rounds 0 values choice
    StaysFinite ((followed model perBlock
        (improveBySweeps model limit perBlock (found.iterations - 1) 0 values choice)).get state)
      (found.values.get state) := by
  obtain ⟨done, hiterations, hbacked, -, hsettled⟩ :=
    improveBySweeps_last perBlock rounds 0 values choice hconverged
  dsimp only
  rw [hiterations, show 0 + done + 1 - 1 = done by omega]
  generalize improveBySweeps model limit perBlock rounds 0 values choice = found
    at hbacked hsettled ⊢
  have hnumber : ∀ state, found.values.get state ≤ found.values.get state := by
    intro state
    rw [hbacked]
    exact model.backup_le_self _ state
  have hresidual := ne_infinity_of_settled hlimit (hsettled.resolve_left hdiscount)
  exact ⟨hnumber state, isFinite_of_residual hnumber hresidual state⟩

end

/-! ### The solvers -/

section
variable {α : Type} [Scalar α] {mdp : Mdp α} {solution : MdpSolution α}

theorem ValueIteration.exists_dense {solver : ValueIteration α}
    (h : solver.solve mdp = .ok solution) : ∃ model, mdp.dense = .ok model := by
  cases hdense : mdp.dense with
  | ok model => exact ⟨model, rfl⟩
  | error fault =>
      unfold solve at h
      rw [hdense] at h
      cases h

theorem PolicyIteration.exists_dense {perBlock maxRounds : Nat} {tolerance : α}
    (hendless : mdp.horizon.epochs = 0)
    (h : solve { evaluation := .sweeps perBlock, tolerance, maxRounds } mdp = .ok solution) :
    1 ≤ perBlock ∧ ∃ model, mdp.dense = .ok model := by
  unfold solve at h
  rw [Span.isFinite_eq_false hendless] at h
  cases perBlock with
  | zero => cases h
  | succ perBlock =>
      refine ⟨Nat.succ_pos perBlock, ?_⟩
      cases hdense : mdp.dense with
      | ok model => exact ⟨model, rfl⟩
      | error fault =>
          rw [hdense] at h
          cases h

end

namespace Mdp

theorem dense_eq_ok {α : Type} [Scalar α] {mdp : Mdp α}
    {model : DenseMdp α mdp.states.size mdp.actions.size} (h : mdp.dense = .ok model) :
    model.states = mdp.states.toVector ∧ model.discount = mdp.horizon.discount := by
  unfold dense at h
  dsimp only at h
  split at h
  · obtain rfl := Except.ok.inj h
    exact ⟨rfl, rfl⟩
  · cases h

variable {mdp : Mdp Float}

/-- What is true of numbered values is true of those that are handed out. -/
theorem staysFinite_valueOf {model : DenseMdp Float mdp.states.size mdp.actions.size}
    (hdense : mdp.dense = .ok model) {before after : Vector Float mdp.states.size}
    (h : ∀ state, StaysFinite (before.get state) (after.get state)) :
    ∀ state ∈ mdp.states, StaysFinite (model.valueOf before state) (model.valueOf after state) := by
  have hstates := (dense_eq_ok hdense).1
  have hinjective : Function.Injective model.states.get :=
    hstates ▸ mdp.states.get_toVector_injective
  intro state hstate
  obtain ⟨number, rfl⟩ := Collection.exists_get_toVector hstate
  rw [← hstates, DenseMdp.valueOf_get hinjective, DenseMdp.valueOf_get hinjective]
  exact h number

/-- **A search that converged did not overflow in its last sweep.**  Its values are numbers, and
those that were finite before the last sweep still are, so they are all finite if they all were.
An infinite residual must not be within the limit for this, and later rewards have to count for
less if blocks of sweeps are made. -/
theorem staysFinite_of_converged {tolerance : Float} (hendless : mdp.horizon.epochs = 0)
    (hlimit : settled (residualLimit tolerance mdp.horizon.discount) infinity = false) :
    (∀ maxSweeps solution, ValueIteration.solve { tolerance, maxSweeps } mdp = .ok solution →
      solution.converged = true → ∃ before,
        ValueIteration.solve { tolerance, maxSweeps := solution.iterations - 1 } mdp = .ok before ∧
        ∀ state ∈ mdp.states, StaysFinite (before.value state) (solution.value state)) ∧
    (¬ 1 ≤ mdp.horizon.discount → ∀ perBlock maxRounds solution,
      PolicyIteration.solve { evaluation := .sweeps perBlock, tolerance, maxRounds } mdp
        = .ok solution →
      solution.converged = true → ∃ model before, mdp.dense = .ok model ∧
        PolicyIteration.solve
            { evaluation := .sweeps perBlock, tolerance, maxRounds := solution.iterations - 1 } mdp
          = .ok (before.solution model mdp.horizon.toSpan) ∧
        ∀ state ∈ mdp.states, StaysFinite
          (model.valueOf (PolicyIteration.followed model perBlock before) state)
          (solution.value state)) := by
  constructor
  · intro maxSweeps solution hsolve hconverged
    obtain ⟨model, hdense⟩ := ValueIteration.exists_dense hsolve
    rw [← (dense_eq_ok hdense).2] at hlimit
    rw [ValueIteration.solve_endless_eq hendless hdense] at hsolve
    obtain rfl := Except.ok.inj hsolve
    exact ⟨_, ValueIteration.solve_endless_eq hendless hdense,
      staysFinite_valueOf hdense (ValueIteration.improve_staysFinite hlimit hconverged)⟩
  · intro hdiscount perBlock maxRounds solution hsolve hconverged
    obtain ⟨hblock, model, hdense⟩ := PolicyIteration.exists_dense hendless hsolve
    rw [← (dense_eq_ok hdense).2] at hlimit hdiscount
    rw [PolicyIteration.solve_sweeps_eq tolerance maxRounds hblock hendless hdense] at hsolve
    obtain rfl := Except.ok.inj hsolve
    exact ⟨model, _, hdense, PolicyIteration.solve_sweeps_eq tolerance _ hblock hendless hdense,
      staysFinite_valueOf hdense
        (PolicyIteration.improveBySweeps_staysFinite hlimit hdiscount hconverged)⟩

/-! ### A process that overflows

A geyser gives the same at every turn.
-/

def geyser (reward discount : Float) : Mdp Float :=
  let here : State := .named .state "here"
  { states := .ofList [here]
    actions := .ofList [.named .action "wait"]
    transitions := TransitionTable.set {} (some here) none (some here) 1
    rewards := RewardTable.insert {} (.cons none (.cons none (.cons none .nil))) reward
    horizon := .infinite discount }

/-- What a geyser gives can be waited for by sweeps and by blocks of them. -/
theorem staysFinite_of_converged_geyser :
    (∃ solution before,
      ValueIteration.solve { tolerance := 0.001, maxSweeps := 50 } (geyser 1 0.5) = .ok solution ∧
      ValueIteration.solve { tolerance := 0.001, maxSweeps := solution.iterations - 1 }
        (geyser 1 0.5) = .ok before ∧
      ∀ state ∈ (geyser 1 0.5).states,
        StaysFinite (before.value state) (solution.value state)) ∧
    ∃ solution model before,
      PolicyIteration.solve { evaluation := .sweeps 3, tolerance := 0.001, maxRounds := 50 }
        (geyser 1 0.5) = .ok solution ∧
      (geyser 1 0.5).dense = .ok model ∧
      PolicyIteration.solve
          { evaluation := .sweeps 3, tolerance := 0.001, maxRounds := solution.iterations - 1 }
          (geyser 1 0.5)
        = .ok (before.solution model (geyser 1 0.5).horizon.toSpan) ∧
      ∀ state ∈ (geyser 1 0.5).states, StaysFinite
        (model.valueOf (PolicyIteration.followed model 3 before) state)
        (solution.value state) := by
  have hlimit : settled (residualLimit (0.001 : Float) (geyser 1 0.5).horizon.discount) infinity
      = false := by decide +kernel
  obtain ⟨hsweeps, hblocks⟩ := staysFinite_of_converged rfl hlimit
  constructor
  · have hsolves : ((ValueIteration.solve { tolerance := 0.001, maxSweeps := 50 }
        (geyser 1 0.5)).toOption.any (·.converged)) = true := by decide +kernel
    cases hsolve : ValueIteration.solve { tolerance := 0.001, maxSweeps := 50 } (geyser 1 0.5) with
    | error fault => rw [hsolve] at hsolves; cases hsolves
    | ok solution =>
        rw [hsolve] at hsolves
        obtain ⟨before, hbefore, hfinite⟩ := hsweeps 50 solution hsolve hsolves
        exact ⟨solution, before, rfl, hbefore, hfinite⟩
  · have hsolves : ((PolicyIteration.solve
        { evaluation := .sweeps 3, tolerance := 0.001, maxRounds := 50 }
        (geyser 1 0.5)).toOption.any (·.converged)) = true := by decide +kernel
    cases hsolve : PolicyIteration.solve
        { evaluation := .sweeps 3, tolerance := 0.001, maxRounds := 50 } (geyser 1 0.5) with
    | error fault => rw [hsolve] at hsolves; cases hsolves
    | ok solution =>
        rw [hsolve] at hsolves
        obtain ⟨model, before, hstopped⟩ := hblocks (by decide +kernel) 3 50 solution hsolve hsolves
        exact ⟨solution, model, before, rfl, hstopped⟩

/-- A solution that can be looked at and is converged, but has an infinite value. -/
theorem exists_infinite {ε : Type} {result : Except ε (MdpSolution Float)} {state : State}
    (h : result.toOption.any (fun solution =>
      solution.converged && !isFinite (solution.value state)) = true) :
    ∃ solution, result = .ok solution ∧ solution.converged = true ∧
      ¬ isFinite (solution.value state) = true := by
  cases result with
  | error fault => cases h
  | ok solution =>
      rw [Except.toOption, Option.any_some, Bool.and_eq_true, Bool.not_eq_true'] at h
      exact ⟨solution, rfl, h.1, h.2 ▸ Bool.false_ne_true⟩

/-- **A search may converge to an infinite value though nothing in the tables is infinite**: the
second sweep overflows and the third sees no change, because an infinity less itself is no
number.  Blocks of sweeps do the same. -/
theorem geyser_converged :
    (∀ state ∈ (geyser 1e308 0.9).states, ∀ action ∈ (geyser 1e308 0.9).actions,
      ∀ next ∈ (geyser 1e308 0.9).states,
        isFinite ((geyser 1e308 0.9).transitions.chance state action next) = true ∧
        isFinite ((geyser 1e308 0.9).rewards.reward state action next) = true) ∧
    .named .state "here" ∈ (geyser 1e308 0.9).states ∧
    (∃ solution, ValueIteration.solve { tolerance := 0.001, maxSweeps := 5 } (geyser 1e308 0.9)
        = .ok solution ∧ solution.converged = true ∧
      ¬ isFinite (solution.value (.named .state "here")) = true) ∧
    ∃ solution, PolicyIteration.solve
        { evaluation := .sweeps 1, tolerance := 0.001, maxRounds := 5 } (geyser 1e308 0.9)
        = .ok solution ∧ solution.converged = true ∧
      ¬ isFinite (solution.value (.named .state "here")) = true := by
  refine ⟨by decide +kernel, ?_, ?_, ?_⟩
  · simp [geyser, Collection.ofList]
  · apply exists_infinite
    decide +kernel
  · apply exists_infinite
    decide +kernel

end Mdp

end MarkovPlanning
