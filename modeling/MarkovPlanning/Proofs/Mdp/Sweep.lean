/-
Sweeps in place come close to the optimal values.

A backup of values within some distance of the optimal ones is within the distance times the
discount (`abs_backup_sub_le`).  In the course of a sweep some states have their new values
and the others their old ones; all of them are within the distance, so every new value is
within the distance discounted, just as if all states were backed up at once
(`Sweep.Progress`).

So the distance shrinks with every sweep, and with it the changes that a sweep makes:
at some time they are within the limit (`eventually_converged`).  And when they are, the
distance before the sweep was at most the largest change and the discounted distance
together, which bounds the distance after it (`sweep_near_of_settled`).
-/
import MarkovPlanning.Mdp.ValueIteration
import MarkovPlanning.Proofs.Mdp.Bellman
import MarkovPlanning.Proofs.Mdp.Dense
import Mathlib

namespace MarkovPlanning

open Filter Topology

variable {K : Type} [Field K] [LinearOrder K] {n m : Nat} {model : DenseMdp K n m} {mdp : Mdp K}
  {optimum : State → K} {values : Vector K n} {choice : Vector (Fin m) n} {distance : K}

/-- Whether numbered values are within a distance of values of the states. -/
def DenseMdp.Near (model : DenseMdp K n m) (values : Vector K n) (target : State → K)
    (distance : K) : Prop :=
  ∀ state, |values.get state - target (model.states.get state)| ≤ distance

variable [IsStrictOrderedRing K]

/-- **A backup brings values closer to the optimal ones.** -/
theorem DenseMdp.Models.abs_backup_sub_le (h : model.Models mdp) (hproper : mdp.Proper)
    (hoptimum : mdp.Bellman optimum) (hdistance : 0 ≤ distance)
    (hnear : model.Near values optimum distance) (state : Fin n) :
    |(model.backup values state).value - optimum (model.states.get state)|
      ≤ mdp.horizon.discount * distance := by
  have hstate := h.state_mem state
  obtain ⟨hvalue, hgreatest⟩ := model.backup_spec values state
  have hnear' : ∀ next ∈ mdp.states, |model.valueOf values next - optimum next| ≤ distance :=
    h.forall_state.mpr fun next => by rw [h.valueOf_get]; exact hnear next
  rw [abs_sub_le_iff]
  constructor
  · have haction := h.action_mem (model.backup values state).action
    have hbest := hoptimum.best _ hstate _ haction
    have hworth :=
      (abs_sub_le_iff.mp (hproper.abs_worth_sub_le hstate haction hdistance hnear')).1
    rw [hvalue, h.actionValue_eq]
    linarith
  · obtain ⟨action, haction, hattained⟩ := hoptimum.exists_action hstate
    have hworth :=
      (abs_sub_le_iff.mp (hproper.abs_worth_sub_le hstate haction hdistance hnear')).2
    obtain ⟨number, rfl⟩ := h.exists_action action haction
    have hle := hgreatest number
    rw [h.actionValue_eq] at hle
    rw [hattained]
    linarith

namespace ValueIteration

/-! ### One sweep -/

/-- What is known of a sweep that has backed up the first states of values within a distance. -/
structure Sweep.Progress (model : DenseMdp K n m) (optimum : State → K) (before : Vector K n)
    (discount distance : K) (done : Nat) (sweep : Sweep K n m) : Prop where
  near : ∀ state : Fin n, state.val < done →
    |sweep.values.get state - optimum (model.states.get state)| ≤ discount * distance
  kept : ∀ state : Fin n, done ≤ state.val → sweep.values.get state = before.get state
  changed : ∀ state : Fin n, state.val < done →
    |sweep.values.get state - before.get state| ≤ sweep.residual
  residual_le : sweep.residual ≤ discount * distance + distance

theorem Sweep.get_visit {α : Type} [Scalar α] {model : DenseMdp α n m} (sweep : Sweep α n m)
    (state other : Fin n) :
    (sweep.visit model state).values.get other
      = if other = state then (model.backup sweep.values state).value
        else sweep.values.get other := by
  simp only [visit, Vector.get_eq_getElem, Vector.getElem_set, Fin.ext_iff,
    eq_comm (a := other.val)]

section
variable (hmodel : model.Models mdp) (hproper : mdp.Proper) (hoptimum : mdp.Bellman optimum)
  (hdiscount : mdp.horizon.discount < 1)
include hmodel hproper hoptimum hdiscount

/-- A visit backs up one state more. -/
theorem Sweep.Progress.visit (hdistance : 0 ≤ distance)
    (hnear : model.Near values optimum distance) {state : Fin n} {sweep : Sweep K n m}
    (h : Progress model optimum values mdp.horizon.discount distance state sweep) :
    Progress model optimum values mdp.horizon.discount distance (state + 1)
      (sweep.visit model state) := by
  have hshrunk : mdp.horizon.discount * distance ≤ distance :=
    mul_le_of_le_one_left hdistance hdiscount.le
  -- old and new values are within the distance alike
  have hboth : model.Near sweep.values optimum distance := by
    intro other
    rcases lt_or_ge other.val state.val with hlt | hle
    · exact (h.near other hlt).trans hshrunk
    · rw [h.kept other hle]
      exact hnear other
  have hbackup := hmodel.abs_backup_sub_le hproper hoptimum hdistance hboth state
  have hresidual : (sweep.visit model state).residual
      = max sweep.residual |(model.backup sweep.values state).value - values.get state| := by
    rw [← h.kept state (le_refl _), ← Scalar.abs_eq]
    exact Scalar.greater_eq _ _
  have hvisited : ∀ other : Fin n, other.val < state.val + 1 →
      other = state ∨ other ≠ state ∧ other.val < state.val := by
    intro other hother
    by_cases heq : other = state
    · exact Or.inl heq
    · exact Or.inr ⟨heq, by have := Fin.val_ne_of_ne heq; omega⟩
  refine ⟨fun other hother => ?_, fun other hother => ?_, fun other hother => ?_, ?_⟩
  · rw [get_visit]
    rcases hvisited other hother with rfl | ⟨hne, hlt⟩
    · rw [if_pos rfl]
      exact hbackup
    · rw [if_neg hne]
      exact h.near other hlt
  · rw [get_visit, if_neg (Fin.ne_of_val_ne (by omega))]
    exact h.kept other (by omega)
  · rw [get_visit, hresidual]
    rcases hvisited other hother with rfl | ⟨hne, hlt⟩
    · rw [if_pos rfl]
      exact le_max_right _ _
    · rw [if_neg hne]
      exact (h.changed other hlt).trans (le_max_left _ _)
  · rw [hresidual]
    refine max_le h.residual_le ?_
    exact (abs_sub_le _ (optimum (model.states.get state)) _).trans
      (add_le_add hbackup (by rw [abs_sub_comm]; exact hnear state))

/-- A sweep over values within a distance of the optimal ones. -/
theorem sweep_progress (hdistance : 0 ≤ distance) (hnear : model.Near values optimum distance)
    (choice : Vector (Fin m) n) :
    Sweep.Progress model optimum values mdp.horizon.discount distance n
      (sweep model values choice) :=
  foldl_finRange (Sweep.Progress model optimum values mdp.horizon.discount distance)
    ⟨fun _ h => absurd h (Nat.not_lt_zero _), fun _ _ => rfl,
      fun _ h => absurd h (Nat.not_lt_zero _),
      add_nonneg (mul_nonneg hproper.clamped.horizon.1 hdistance) hdistance⟩
    fun _ _ h => h.visit hmodel hproper hoptimum hdiscount hdistance hnear

/-- **A sweep brings all values closer to the optimal ones.** -/
theorem sweep_near (hdistance : 0 ≤ distance) (hnear : model.Near values optimum distance)
    (choice : Vector (Fin m) n) :
    model.Near (sweep model values choice).values optimum (mdp.horizon.discount * distance) :=
  fun state => (sweep_progress hmodel hproper hoptimum hdiscount hdistance hnear choice).near state
    state.isLt

/-- **When a sweep counts as settled its values are within the tolerance.** -/
theorem sweep_near_of_settled {tolerance : K} (htolerance : 0 ≤ tolerance)
    (hsettled : settled (residualLimit tolerance model.discount)
      (sweep model values choice).residual = true) :
    model.Near (sweep model values choice).values optimum tolerance := by
  -- the distance at the state that is farthest off before the sweep
  have : Nonempty (Fin n) := ⟨⟨0, model.states_pos⟩⟩
  obtain ⟨top, htop⟩ := Finite.exists_max
    fun state => |values.get state - optimum (model.states.get state)|
  have hprogress := sweep_progress hmodel hproper hoptimum hdiscount (abs_nonneg _) htop choice
  generalize hdistance : |values.get top - optimum (model.states.get top)| = distance at hprogress
  refine fun state => (hprogress.near state state.isLt).trans ?_
  have hpassed : distance
      ≤ (sweep model values choice).residual + mdp.horizon.discount * distance := by
    rw [← hdistance]
    refine (abs_sub_le _ ((sweep model values choice).values.get top) _).trans
      (add_le_add ?_ ?_)
    · rw [abs_sub_comm]
      exact hprogress.changed top top.isLt
    · rw [hdistance]
      exact hprogress.near top top.isLt
  rw [hmodel.discount, residualLimit] at hsettled
  rcases eq_or_lt_of_le hproper.clamped.horizon.1 with hzero | hpos
  · rw [← hzero, zero_mul]
    exact htolerance
  · rw [if_neg (not_le.mpr hpos)] at hsettled
    have hlimit := of_decide_eq_true hsettled
    rw [le_div_iff₀ hpos] at hlimit
    have hshort : 0 < 1 - mdp.horizon.discount := sub_pos.mpr hdiscount
    refine le_of_mul_le_mul_right ?_ hshort
    calc mdp.horizon.discount * distance * (1 - mdp.horizon.discount)
        = (distance - mdp.horizon.discount * distance) * mdp.horizon.discount := by ring
      _ ≤ (sweep model values choice).residual * mdp.horizon.discount :=
          mul_le_mul_of_nonneg_right (sub_le_iff_le_add.mpr hpassed) hpos.le
      _ ≤ tolerance * (1 - mdp.horizon.discount) := hlimit

/-! ### All sweeps -/

/-- A search that converged has its values within the tolerance. -/
theorem improve_near {tolerance : K} (htolerance : 0 ≤ tolerance) :
    ∀ (sweeps made : Nat) (values : Vector K n) (choice : Vector (Fin m) n),
      (improve model (residualLimit tolerance model.discount) sweeps made values choice).converged
          = true →
        model.Near (improve model (residualLimit tolerance model.discount) sweeps made values
          choice).values optimum tolerance := by
  intro sweeps
  induction sweeps with
  | zero => intro made values choice hconverged; cases hconverged
  | succ sweeps ih =>
      intro made values choice
      unfold improve
      by_cases hsettled : settled (residualLimit tolerance model.discount)
          (sweep model values choice).residual = true
      · rw [if_pos hsettled]
        exact fun _ =>
          sweep_near_of_settled hmodel hproper hoptimum hdiscount htolerance hsettled
      · rw [if_neg hsettled]
        exact ih _ _ _

/-- A search converges when the changes that are left to its last sweep are within the limit. -/
theorem improve_converged {limit : K} :
    ∀ (sweeps made : Nat) (values : Vector K n) (choice : Vector (Fin m) n) (distance : K),
      0 ≤ distance → model.Near values optimum distance →
      mdp.horizon.discount ^ sweeps * (mdp.horizon.discount * distance + distance) ≤ limit →
        (improve model (some limit) (sweeps + 1) made values choice).converged = true := by
  intro sweeps
  induction sweeps with
  | zero =>
      intro made values choice distance hdistance hnear hlimit
      have hprogress :=
        sweep_progress hmodel hproper hoptimum hdiscount hdistance hnear choice
      have hsettled : settled (some limit) (sweep model values choice).residual = true := by
        rw [pow_zero, one_mul] at hlimit
        exact decide_eq_true (hprogress.residual_le.trans hlimit)
      unfold improve
      rw [if_pos hsettled]
  | succ sweeps ih =>
      intro made values choice distance hdistance hnear hlimit
      unfold improve
      by_cases hsettled : settled (some limit) (sweep model values choice).residual = true
      · rw [if_pos hsettled]
      · rw [if_neg hsettled]
        refine ih _ _ _ (mdp.horizon.discount * distance)
          (mul_nonneg hproper.clamped.horizon.1 hdistance)
          (sweep_near hmodel hproper hoptimum hdiscount hdistance hnear choice)
          (le_trans (le_of_eq ?_) hlimit)
        ring

/-- **With enough sweeps the search converges.** -/
theorem eventually_converged [Archimedean K] [TopologicalSpace K] [OrderTopology K] {tolerance : K}
    (htolerance : 0 < tolerance) (values : Vector K n) (choice : Vector (Fin m) n) :
    ∀ᶠ sweeps in atTop, (improve model (residualLimit tolerance model.discount) sweeps 0 values
      choice).converged = true := by
  rw [hmodel.discount, residualLimit]
  rcases eq_or_lt_of_le hproper.clamped.horizon.1 with hzero | hpos
  · rw [if_pos hzero.ge]
    filter_upwards [eventually_ge_atTop 1] with sweeps hsweeps
    obtain ⟨rest, rfl⟩ := Nat.exists_eq_add_of_le' hsweeps
    rfl
  · rw [if_neg (not_le.mpr hpos)]
    have hlimit : 0 < tolerance * (1 - mdp.horizon.discount) / mdp.horizon.discount :=
      div_pos (mul_pos htolerance (sub_pos.mpr hdiscount)) hpos
    -- some distance bounds how far off the first values are
    let distance := ∑ state, |values.get state - optimum (model.states.get state)|
    have hdistance : 0 ≤ distance := Finset.sum_nonneg fun _ _ => abs_nonneg _
    have hnear : model.Near values optimum distance := fun state =>
      Finset.single_le_sum (f := fun state => |values.get state - optimum (model.states.get state)|)
        (fun _ _ => abs_nonneg _) (Finset.mem_univ state)
    have hvanishes := hproper.tendsto_discount hdiscount
      (mdp.horizon.discount * distance + distance)
    obtain ⟨enough, henough⟩ := eventually_atTop.mp (hvanishes.eventually_lt_const hlimit)
    filter_upwards [eventually_ge_atTop (enough + 1)] with sweeps hsweeps
    obtain ⟨rest, rfl⟩ := Nat.exists_eq_add_of_le' (Nat.le_trans (Nat.le_add_left 1 enough) hsweeps)
    exact improve_converged hmodel hproper hoptimum hdiscount rest 0 values choice distance
      hdistance hnear (henough rest (by omega)).le

end

/-! ### The solver -/

variable [Archimedean K] [TopologicalSpace K] [OrderTopology K]

/-- **Value iteration over an endless span**: with enough sweeps it converges, and whenever it has
converged every value is within the tolerance of the optimal one. -/
theorem solve_near_optimal {tolerance : K} (htolerance : 0 < tolerance) (hproper : mdp.Proper)
    (hendless : mdp.horizon.epochs = 0) (hdiscount : mdp.horizon.discount < 1) :
    (∃ enough, ∀ maxSweeps ≥ enough, ∃ solution,
      solve { tolerance, maxSweeps } mdp = .ok solution ∧ solution.converged = true) ∧
    ∃ optimum, mdp.Optimal optimum ∧ ∀ maxSweeps, ∃ solution,
      solve { tolerance, maxSweeps } mdp = .ok solution ∧ (solution.converged = true →
        ∀ state ∈ mdp.states, |solution.value state - optimum state| ≤ tolerance) := by
  obtain ⟨model, hdense, hmodel⟩ :=
    Mdp.dense_models hproper.clamped hproper.states hproper.actions
  obtain ⟨optimum, hoptimum⟩ := hproper.exists_bellman hdiscount
  have hsolve : ∀ maxSweeps, solve { tolerance, maxSweeps } mdp
      = .ok ((searchStationary { tolerance, maxSweeps } model).solution model
          mdp.horizon.toSpan) := by
    intro maxSweeps
    unfold solve
    rw [hdense]
    exact dif_neg (by rw [hendless]; exact Nat.lt_irrefl 0)
  constructor
  · obtain ⟨enough, henough⟩ := eventually_atTop.mp (eventually_converged hmodel hproper hoptimum
      hdiscount htolerance (Vector.replicate _ 0) (Vector.replicate _ model.firstAction))
    exact ⟨enough, fun maxSweeps hmax => ⟨_, hsolve maxSweeps, henough maxSweeps hmax⟩⟩
  · refine ⟨optimum, hoptimum.optimal hproper hdiscount, fun maxSweeps =>
      ⟨_, hsolve maxSweeps, fun hconverged => hmodel.forall_state.mpr fun state => ?_⟩⟩
    rw [DenseMdp.value_solution, hmodel.valueOf_get]
    exact improve_near hmodel hproper hoptimum hdiscount htolerance.le _ _ _ _ hconverged state

theorem solve_near_optimal_shuttle :
    (∃ enough, ∀ maxSweeps ≥ enough, ∃ solution,
      solve { tolerance := (1/1000 : ℚ), maxSweeps } shuttle = .ok solution ∧
        solution.converged = true) ∧
    ∃ optimum, shuttle.Optimal optimum ∧ ∀ maxSweeps, ∃ solution,
      solve { tolerance := (1/1000 : ℚ), maxSweeps } shuttle = .ok solution ∧
        (solution.converged = true →
          ∀ state ∈ shuttle.states, |solution.value state - optimum state| ≤ 1/1000) :=
  solve_near_optimal (by norm_num) shuttle_proper rfl (by decide +kernel)

/-- With a tolerance of one the shuttle is settled after some sweeps. -/
example : ((solve { tolerance := (1 : ℚ), maxSweeps := 60 } shuttle).toOption.map fun solution =>
    (solution.converged, solution.iterations)) = some (true, 29) := by decide +kernel

end ValueIteration

end MarkovPlanning
