/-
What an error bound amounts to.

The number of backups for a bound is that after which the range of the rewards, discounted as
often, is within the bound, but it is rounded down.  What the backups leave open is the greatest
reward summed up for ever and discounted as often, which is more.  So it is within the bound only
up to a factor (`backupsFor_error`), and for a process with a single state it is more than the
bound (`workshop_error`).
-/
import MarkovPlanning.Pomdp.ErrorBound
import MarkovPlanning.Proofs.Pomdp.Endless
import Mathlib

namespace MarkovPlanning

open Filter Topology

/-- The natural logarithm.  Whole parts stop at the greatest number of 64 bits. -/
noncomputable instance : Logarithm ℝ where
  log := Real.log
  wholePart x := min ⌊x⌋₊ (2 ^ 64 - 1)

namespace Pomdp

variable {pomdp : Pomdp ℝ} {epsilon : ℝ}

theorem rewardRange_pos (bounds : Bounds ℝ) : 0 < rewardRange bounds := by
  have hleast : (0 : ℝ) < leastRange := by
    unfold leastRange
    norm_num
  unfold rewardRange
  split
  · split
    · rw [Scalar.greater_eq]
      exact hleast.trans_le (le_max_right _ _)
    · exact hleast
  · exact hleast

/-- The number of backups before it is rounded. -/
noncomputable def exponentFor (pomdp : Pomdp ℝ) (epsilon : ℝ) : ℝ :=
  (Real.log epsilon - Real.log (rewardRange pomdp.rewards.bounds))
    / Real.log pomdp.horizon.discount

section
variable (hpos : 0 < pomdp.horizon.discount) (hdiscount : pomdp.horizon.discount < 1)
  (hepsilon : 0 < epsilon)
include hpos hdiscount hepsilon

theorem backupsFor_eq : pomdp.backupsFor epsilon
    = .ok (max (min ⌊pomdp.exponentFor epsilon⌋₊ (2 ^ 64 - 1)) 1) := by
  unfold backupsFor
  rw [if_neg (not_not.mpr ⟨hpos, hdiscount⟩), if_neg (not_not.mpr hepsilon)]
  rfl

/-- Rounding up, the backups would bring the range of the rewards within the bound. -/
theorem range_mul_pow_lt {backups : Nat} (h : ⌊pomdp.exponentFor epsilon⌋₊ ≤ backups) :
    rewardRange pomdp.rewards.bounds * pomdp.horizon.discount ^ (backups + 1) < epsilon := by
  have hrange := rewardRange_pos pomdp.rewards.bounds
  have hpow : 0 < pomdp.horizon.discount ^ (backups + 1) := pow_pos hpos _
  have hexponent : pomdp.exponentFor epsilon < (backups + 1 : Nat) :=
    Nat.lt_of_floor_lt (Nat.lt_succ_of_le h)
  rw [exponentFor, div_lt_iff_of_neg (Real.log_neg hpos hdiscount)] at hexponent
  rw [← Real.log_lt_log_iff (mul_pos hrange hpow) hepsilon, Real.log_mul hrange.ne' hpow.ne',
    Real.log_pow]
  linarith

/-- So what they leave open is within the bound but for a factor. -/
theorem errorLeft_le {backups : Nat} (h : ⌊pomdp.exponentFor epsilon⌋₊ ≤ backups) :
    pomdp.errorLeft backups ≤ epsilon * (pomdp.rewards.bounds.magnitude
      / (pomdp.horizon.discount * (1 - pomdp.horizon.discount)
        * rewardRange pomdp.rewards.bounds)) := by
  have hrange := rewardRange_pos pomdp.rewards.bounds
  have hshort : 0 < 1 - pomdp.horizon.discount := sub_pos.mpr hdiscount
  have hlt := range_mul_pow_lt hpos hdiscount hepsilon h
  have hpow : pomdp.horizon.discount ^ backups
      ≤ epsilon / (pomdp.horizon.discount * rewardRange pomdp.rewards.bounds) := by
    rw [le_div_iff₀ (mul_pos hpos hrange)]
    calc pomdp.horizon.discount ^ backups
          * (pomdp.horizon.discount * rewardRange pomdp.rewards.bounds)
        = rewardRange pomdp.rewards.bounds * pomdp.horizon.discount ^ (backups + 1) := by ring
      _ ≤ epsilon := hlt.le
  calc pomdp.errorLeft backups
      ≤ epsilon / (pomdp.horizon.discount * rewardRange pomdp.rewards.bounds)
          * (pomdp.rewards.bounds.magnitude / (1 - pomdp.horizon.discount)) :=
        mul_le_mul_of_nonneg_right hpow (div_nonneg (Bounds.magnitude_nonneg _) hshort.le)
    _ = epsilon * (pomdp.rewards.bounds.magnitude
          / (pomdp.horizon.discount * (1 - pomdp.horizon.discount)
            * rewardRange pomdp.rewards.bounds)) := by
        rw [div_mul_div_comm, mul_div_assoc]
        congr 2
        ring

end

/-- **What the number of backups for an error bound leaves open**: at every belief all later
values, and the value of an endless span, are as close as the backups left can bring them.  That
is within the bound but for a factor, unless the number was cut off. -/
theorem backupsFor_error (hproper : pomdp.Proper) (hpopulated : pomdp.Populated)
    (hrewards : pomdp.rewards.Bounded) (hpos : 0 < pomdp.horizon.discount)
    (hdiscount : pomdp.horizon.discount < 1) (hepsilon : 0 < epsilon) :
    ∃ backups model, pomdp.backupsFor epsilon = .ok backups ∧ pomdp.dense = .ok model ∧
      (backups < 2 ^ 64 - 1 → pomdp.errorLeft backups
        ≤ epsilon * (pomdp.rewards.bounds.magnitude
          / (pomdp.horizon.discount * (1 - pomdp.horizon.discount)
            * rewardRange pomdp.rewards.bounds))) ∧
      ∀ belief : Belief ℝ, belief.Over pomdp.states → belief.total = 1 →
        (∀ later ≥ backups,
          |model.valueAfter later belief - model.valueAfter backups belief|
            ≤ pomdp.errorLeft backups) ∧
        ∃ endless,
          Tendsto (fun decisions => model.valueAfter decisions belief) atTop (𝓝 endless) ∧
          |endless - model.valueAfter backups belief| ≤ pomdp.errorLeft backups := by
  refine ⟨_, pomdp.resolved, backupsFor_eq hpos hdiscount hepsilon,
    dense_eq_ok_iff.mpr ⟨hpopulated, rfl⟩, fun hwhole => ?_, fun belief hb htotal => ?_⟩
  · -- the whole part was not cut off
    exact errorLeft_le hpos hdiscount hepsilon (by omega)
  · obtain ⟨endless, hendless, hnear⟩ :=
      exists_endless hproper hdiscount hpopulated hrewards hb htotal
    exact ⟨fun later hlater =>
      abs_valueAfter_sub_le hproper hdiscount hpopulated hrewards hb htotal hlater,
      endless, hendless, hnear _⟩

end Pomdp

/-! ### Where the bound is exceeded

In a workshop there is nothing to know.  Working earns one and waiting nothing, so the rewards
range over one.  With a discount of a half, what the first decision leaves open is one.
-/

noncomputable def workshop : Pomdp ℝ :=
  let here : State := .named .state "here"
  let wait : Action := .named .action "wait"
  let work : Action := .named .action "work"
  { states := .ofList [here]
    actions := .ofList [wait, work]
    observations := .ofList [.named .observation "tick"]
    transitions := TransitionTable.set {} none none none 1
    observationChances := ObservationTable.set {} none none none 1
    rewards := RewardTable.insert (RewardTable.insert {}
      (.cons (some here) (.cons (some wait) (.cons none (.cons none .nil)))) 0)
      (.cons (some here) (.cons (some work) (.cons none (.cons none .nil)))) 1
    horizon := .infinite (1/2) }

theorem workshop_states : workshop.states.members = {.named .state "here"} := by
  unfold Collection.members
  rw [show workshop.states.toList = [.named .state "here"] by decide +kernel]
  rfl

theorem workshop_observations :
    workshop.observations.members = {.named .observation "tick"} := by
  unfold Collection.members
  rw [show workshop.observations.toList = [.named .observation "tick"] by decide +kernel]
  rfl

theorem workshop_transition (state : State) (action : Action) (next : State) :
    workshop.transitions.chance state action next = 1 := by
  have hmasks : Pattern.masks 3 = [0, 1, 2, 4, 3, 5, 6, 7] := by decide
  unfold TransitionTable.chance ProbabilityTable.get Table.resolve? Table.stored?
  simp [workshop, TransitionTable.set, ProbabilityTable.insert, Table.insert, hmasks,
    Pattern.masked, Std.ExtTreeMap.getElem?_insert, Scalar.clamp01_eq_self,
    Std.LawfulEqCmp.compare_eq_iff_eq]

theorem workshop_observation (action : Action) (next : State) (observation : Observation) :
    workshop.observationChances.chance action next observation = 1 := by
  have hmasks : Pattern.masks 3 = [0, 1, 2, 4, 3, 5, 6, 7] := by decide
  unfold ObservationTable.chance ProbabilityTable.get Table.resolve? Table.stored?
  simp [workshop, ObservationTable.set, ProbabilityTable.insert, Table.insert, hmasks,
    Pattern.masked, Std.ExtTreeMap.getElem?_insert, Scalar.clamp01_eq_self,
    Std.LawfulEqCmp.compare_eq_iff_eq]

theorem workshop_reward : workshop.rewards.reward (.named .state "here") (.named .action "work")
    (.named .state "here") (.named .observation "tick") = 1 := by
  have hmasks : Pattern.masks 4 = [0, 1, 2, 4, 8, 3, 5, 6, 9, 10, 12, 7, 11, 13, 14, 15] := by
    decide
  unfold ObservationRewards.reward RewardTable.get Table.resolve? Table.stored?
  simp [workshop, RewardTable.insert, Table.insert, hmasks, Pattern.masked,
    Std.ExtTreeMap.getElem?_insert, Std.LawfulEqCmp.compare_eq_iff_eq]

theorem workshop_discount : workshop.horizon.discount = 1/2 := by
  show Scalar.clamp01 (1/2 : ℝ) = 1/2
  exact Scalar.clamp01_eq_self (by norm_num) (by norm_num)

theorem workshop_bounds : workshop.rewards.bounds = { least := some 0, greatest := some 1 } := by
  show (({} : Bounds ℝ).join 0).join 1 = _
  rw [Bounds.join_eq, Bounds.join_eq]
  simp

theorem workshop_rows : (∀ state ∈ workshop.states, ∀ action ∈ workshop.actions,
      ∑ next ∈ workshop.states.members, workshop.transitions.chance state action next = 1) ∧
    ∀ action ∈ workshop.actions, ∀ next ∈ workshop.states,
      ∑ observation ∈ workshop.observations.members,
        workshop.observationChances.chance action next observation = 1 := by
  simp only [workshop_states, workshop_observations, Finset.sum_singleton, workshop_transition,
    workshop_observation, implies_true, and_self]

theorem workshop_proper : workshop.Proper where
  clamped :=
    { transitions := ProbabilityTable.clamped_empty.insert _ _
      observationChances := ProbabilityTable.clamped_empty.insert _ _
      horizon := Horizon.clamped_infinite _ }
  transitions := fun state hstate action haction =>
    (workshop_rows.1 state hstate action haction).le
  observations := fun action haction next hnext =>
    (workshop_rows.2 action haction next hnext).le

theorem workshop_populated : workshop.Populated where
  states := by simp [workshop, Collection.ofList]
  actions := by simp [workshop, Collection.ofList]
  observations := by simp [workshop, Collection.ofList]

theorem workshop_bounded : workshop.rewards.Bounded :=
  (RewardTable.bounded_empty.insert _ _).insert _ _

namespace Pomdp

theorem backupsFor_error_workshop :
    ∃ backups model, workshop.backupsFor (3/8) = .ok backups ∧ workshop.dense = .ok model ∧
      (backups < 2 ^ 64 - 1 → workshop.errorLeft backups
        ≤ 3/8 * (workshop.rewards.bounds.magnitude
          / (workshop.horizon.discount * (1 - workshop.horizon.discount)
            * rewardRange workshop.rewards.bounds))) ∧
      ∀ belief : Belief ℝ, belief.Over workshop.states → belief.total = 1 →
        (∀ later ≥ backups,
          |model.valueAfter later belief - model.valueAfter backups belief|
            ≤ workshop.errorLeft backups) ∧
        ∃ endless,
          Tendsto (fun decisions => model.valueAfter decisions belief) atTop (𝓝 endless) ∧
          |endless - model.valueAfter backups belief| ≤ workshop.errorLeft backups :=
  backupsFor_error workshop_proper workshop_populated workshop_bounded
    (by rw [workshop_discount]; norm_num) (by rw [workshop_discount]; norm_num) (by norm_num)

/-- A single backup is taken for a bound of three eighths. -/
theorem workshop_backups : workshop.backupsFor (3/8) = .ok 1 := by
  have hrange : rewardRange workshop.rewards.bounds = 1 := by
    rw [workshop_bounds]
    show (if Scalar.isFinite ((1 : ℝ) - 0) = true then Scalar.greater (1 - 0) leastRange
      else leastRange) = 1
    rw [if_pos (Scalar.isFinite_eq_true _), Scalar.greater_eq, sub_zero]
    exact max_eq_left (by unfold leastRange; norm_num)
  have hexponent : workshop.exponentFor (3/8) = Real.log (8/3) / Real.log 2 := by
    rw [exponentFor, hrange, workshop_discount, Real.log_one, sub_zero,
      show (3/8 : ℝ) = (8/3)⁻¹ by norm_num, one_div, Real.log_inv, Real.log_inv, neg_div_neg_eq]
  have hpos : 0 < Real.log 2 := Real.log_pos (by norm_num)
  have hfloor : ⌊workshop.exponentFor (3/8)⌋₊ = 1 := by
    rw [hexponent, Nat.floor_eq_iff (div_nonneg (Real.log_nonneg (by norm_num)) hpos.le)]
    constructor
    · rw [Nat.cast_one, le_div_iff₀ hpos, one_mul]
      exact Real.log_le_log (by norm_num) (by norm_num)
    · rw [div_lt_iff₀ hpos, Nat.cast_one, show (1 + 1 : ℝ) * Real.log 2 = Real.log (2 ^ 2) by
        rw [Real.log_pow]; norm_num]
      exact Real.log_lt_log (by norm_num) (by norm_num)
  rw [backupsFor_eq (by rw [workshop_discount]; norm_num) (by rw [workshop_discount]; norm_num)
    (by norm_num), hfloor]
  rfl

theorem workshop_lookAhead (action : Action) (after : Observation → State → ℝ) :
    workshop.lookAhead action after (.named .state "here")
      = workshop.rewards.reward (.named .state "here") action (.named .state "here")
          (.named .observation "tick")
        + 1/2 * after (.named .observation "tick") (.named .state "here") := by
  rw [lookAhead_eq, workshop_states, workshop_observations, Finset.sum_singleton,
    Finset.sum_singleton, workshop_transition, workshop_observation, workshop_discount, one_mul,
    one_mul]

theorem workshop_belief : (Belief.uniform workshop.states : Belief ℝ).get (.named .state "here")
    = 1 := by
  have hlist : workshop.states.toList = [.named .state "here"] := by decide +kernel
  have hsize : workshop.states.size = 1 := by decide +kernel
  rw [Belief.uniform, Belief.get_ofList_map, hlist, if_pos List.mem_cons_self, hsize]
  show Scalar.clamp01 (1 / ((1 : Nat) : ℝ)) = 1
  rw [Nat.cast_one, div_one]
  exact Scalar.clamp01_eq_self zero_le_one le_rfl

/-- A second decision adds a half to what the first one earns. -/
theorem workshop_valueAfter :
    workshop.resolved.valueAfter 1 (.uniform workshop.states) ≤ 1 ∧
      3/2 ≤ workshop.resolved.valueAfter 2 (.uniform workshop.states) := by
  have hexpect : ∀ f, workshop.expect (Belief.uniform workshop.states : Belief ℝ).get f
      = f (.named .state "here") := by
    intro f
    rw [expect, workshop_states, Finset.sum_singleton, workshop_belief, one_mul]
  have hhere : (.named .state "here" : State) ∈ workshop.states := by
    decide +kernel
  have htick : (.named .observation "tick" : Observation) ∈ workshop.observations := by
    decide +kernel
  have hwork : (.named .action "work" : Action) ∈ workshop.actions := by
    decide +kernel
  constructor
  · obtain ⟨f, hf, hattained⟩ := (workshop.valueAfter_spec 1 (.uniform workshop.states)).1
    obtain ⟨action, -, after, hafter, hf⟩ :=
      (promises_backups workshop_populated (unpruned_tabulated 0)).mp hf
    have hreward := workshop_bounded.abs_get_le (.cons (some (.named .state "here" : State))
      (.cons (some action) (.cons (some (.named .state "here"))
        (.cons (some (.named .observation "tick")) .nil))))
    have hmagnitude : workshop.rewards.bounds.magnitude = 1 := by
      rw [workshop_bounds, Bounds.magnitude]
      simp
    rw [hmagnitude] at hreward
    rw [← hattained, hexpect, hf _ hhere, workshop_lookAhead,
      promises_nil.mp (hafter _ htick), Pi.zero_apply, mul_zero, add_zero]
    exact (le_abs_self _).trans hreward
  · -- work twice
    let once : State → ℝ := workshop.lookAhead (.named .action "work") fun _ => 0
    let twice : State → ℝ := workshop.lookAhead (.named .action "work") fun _ => once
    have honce : workshop.Promises (workshop.resolved.unpruned 1) once :=
      (promises_backups workshop_populated (unpruned_tabulated 0)).mpr
        ⟨_, hwork, _, fun _ _ => promises_nil.mpr rfl, fun _ _ => rfl⟩
    have htwice : workshop.Promises (workshop.resolved.unpruned 2) twice :=
      (promises_backups workshop_populated (unpruned_tabulated 1)).mpr
        ⟨_, hwork, _, fun _ _ => honce, fun _ _ => rfl⟩
    have hle := (workshop.valueAfter_spec 2 (.uniform workshop.states)).2 twice htwice
    have hvalue : twice (.named .state "here") = 3/2 := by
      simp only [twice, once, workshop_lookAhead, workshop_reward, Pi.zero_apply]
      norm_num
    rwa [hexpect, hvalue] at hle

/-- **The bound can be exceeded.**  In the workshop a second backup adds a half to the value of
the one that is taken to be enough for three eighths. -/
theorem workshop_error :
    workshop.Proper ∧ workshop.Populated ∧ workshop.rewards.Bounded ∧
    (∀ state ∈ workshop.states, ∀ action ∈ workshop.actions,
      ∑ next ∈ workshop.states.members, workshop.transitions.chance state action next = 1) ∧
    (∀ action ∈ workshop.actions, ∀ next ∈ workshop.states,
      ∑ observation ∈ workshop.observations.members,
        workshop.observationChances.chance action next observation = 1) ∧
    workshop.horizon.epochs = 0 ∧
    0 < workshop.horizon.discount ∧ workshop.horizon.discount < 1 ∧
    ∃ backups model later, workshop.backupsFor (3/8) = .ok backups ∧
      workshop.dense = .ok model ∧ backups ≤ later ∧
      ∃ belief : Belief ℝ, belief.Over workshop.states ∧ belief.total = 1 ∧
        3/8 < |model.valueAfter later belief - model.valueAfter backups belief| := by
  refine ⟨workshop_proper, workshop_populated, workshop_bounded, workshop_rows.1, workshop_rows.2,
    rfl, by rw [workshop_discount]; norm_num, by rw [workshop_discount]; norm_num, 1,
    workshop.resolved, 2, workshop_backups, dense_eq_ok_iff.mpr ⟨workshop_populated, rfl⟩,
    one_le_two, .uniform workshop.states, Belief.over_uniform _, ?_, ?_⟩
  · rw [← total_get (Belief.over_uniform _), total, workshop_states, Finset.sum_singleton,
      workshop_belief]
  · obtain ⟨hone, htwo⟩ := workshop_valueAfter
    refine lt_of_lt_of_le ?_ (le_abs_self _)
    linarith

end Pomdp

end MarkovPlanning
