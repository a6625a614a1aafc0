/-
What one backup leaves of a difference.

Two sets of vectors are compared by what they are worth at weights that need not add up to one,
since what follows an observation is weighed by masses.  One set is `Below` another but for a
distance if nothing it promises is worth more than something the other one promises, and the
distance times what the weights add up to.

Looking ahead goes on with the masses of all observations, and these add up to no more than the
weights did (`sum_evidence_le`).  So a backup leaves the distance discounted (`Below.backups`).
A set without vectors promises that nothing follows, which makes the first backup a backup like
any other (`mem_backups_iff`).
-/
import MarkovPlanning.Proofs.Pomdp.Stages
import Mathlib

namespace MarkovPlanning

variable {K : Type} [Field K] [LinearOrder K]

/-- The greatest value of some vectors at a belief, zero if there are none. -/
def DenseAlpha.greatest (gamma : List (DenseAlpha K)) (belief : List K) : K :=
  (Envelope.height? (·.values) gamma belief).getD 0

namespace Pomdp

variable {pomdp : Pomdp K} {action : Action}

/-- A process in which nothing is more than certain. -/
structure Proper (pomdp : Pomdp K) : Prop where
  clamped : pomdp.Clamped
  transitions : ∀ state ∈ pomdp.states, ∀ action ∈ pomdp.actions,
    ∑ next ∈ pomdp.states.members, pomdp.transitions.chance state action next ≤ 1
  observations : ∀ action ∈ pomdp.actions, ∀ next ∈ pomdp.states,
    ∑ observation ∈ pomdp.observations.members,
      pomdp.observationChances.chance action next observation ≤ 1

/-! ### What is promised -/

/-- What may be had by going on with a set of vectors: what one of them says, and nothing if there
are none. -/
def Promises (pomdp : Pomdp K) (gamma : List (DenseAlpha K)) (f : State → K) : Prop :=
  pomdp.Offers gamma f ∨ gamma = [] ∧ f = 0

omit [LinearOrder K] in
theorem promises_nil {f : State → K} : pomdp.Promises [] f ↔ f = 0 := by
  unfold Promises Offers
  simp

omit [LinearOrder K] in
theorem promises_of_ne_nil {gamma : List (DenseAlpha K)} {f : State → K} (h : gamma ≠ []) :
    pomdp.Promises gamma f ↔ pomdp.Offers gamma f := by
  unfold Promises
  simp [h]

omit [LinearOrder K] in
theorem exists_promises {gamma : List (DenseAlpha K)} (htabulated : pomdp.Tabulated gamma) :
    ∃ f, pomdp.Promises gamma f := by
  cases gamma with
  | nil => exact ⟨0, promises_nil.mpr rfl⟩
  | cons alpha rest =>
      obtain ⟨f, hf⟩ := htabulated alpha List.mem_cons_self
      exact ⟨f, Or.inl ⟨alpha, List.mem_cons_self, hf⟩⟩

/-- **The greatest value is the greatest expectation of what is promised.** -/
theorem greatest_spec {gamma : List (DenseAlpha K)} (htabulated : pomdp.Tabulated gamma)
    (weights : State → K) :
    (∃ f, pomdp.Promises gamma f ∧
      pomdp.expect weights f = DenseAlpha.greatest gamma (pomdp.tabulate weights)) ∧
    ∀ f, pomdp.Promises gamma f →
      pomdp.expect weights f ≤ DenseAlpha.greatest gamma (pomdp.tabulate weights) := by
  unfold DenseAlpha.greatest
  by_cases hgamma : gamma = []
  · subst hgamma
    have hzero : pomdp.expect weights 0 = 0 := Finset.sum_eq_zero fun state _ => mul_zero _
    simp only [promises_nil]
    exact ⟨⟨0, rfl, hzero⟩, fun f hf => by rw [hf]; exact hzero.le⟩
  · obtain ⟨top, htop⟩ : ∃ top, Envelope.height? (·.values) gamma (pomdp.tabulate weights)
        = some top := Envelope.exists_height? hgamma _
    rw [htop, Option.getD_some]
    simp only [promises_of_ne_nil hgamma]
    obtain ⟨⟨alpha, halpha, hattained⟩, hgreatest⟩ := Envelope.height?_eq_some.mp htop
    constructor
    · obtain ⟨f, hf⟩ := htabulated alpha halpha
      rw [hf] at hattained
      exact ⟨f, ⟨alpha, halpha, hf⟩, (dot_tabulate f weights).symm.trans hattained⟩
    · intro f h
      obtain ⟨beta, hbeta, hf⟩ := h
      have hle := hgreatest beta hbeta
      rw [hf] at hle
      exact (dot_tabulate f weights).symm.trans_le hle

/-- Looking ahead to nothing leaves the reward. -/
theorem lookAhead_zero {after : Observation → State → K}
    (h : ∀ observation ∈ pomdp.observations, after observation = 0) (state : State) :
    pomdp.lookAhead action after state = pomdp.expectedReward state action := by
  have hnothing : pomdp.lookAhead action after state = pomdp.lookAhead action (fun _ => 0) state :=
    lookAhead_congr (fun observation hobservation next _ => by
      rw [h observation hobservation]) state
  rw [hnothing, lookAhead]
  simp

/-- **The vectors of one more decision look ahead to what the set before promises**, in every
way. -/
theorem mem_backups_iff {prior : List (DenseAlpha K)} (htabulated : pomdp.Tabulated prior)
    {alpha : DenseAlpha K} :
    alpha ∈ (pomdp.resolved.backups prior).flatten ↔ alpha.action ∈ pomdp.actions ∧
      ∃ after : Observation → State → K,
        (∀ observation ∈ pomdp.observations, pomdp.Promises prior (after observation)) ∧
          alpha.values = pomdp.tabulate (pomdp.lookAhead alpha.action after) := by
  by_cases hprior : prior = []
  · subst hprior
    rw [mem_backups_nil]
    simp only [promises_nil]
    refine and_congr_right fun _ => ?_
    constructor
    · intro hvalues
      refine ⟨fun _ => 0, fun _ _ => rfl, hvalues.trans (tabulate_eq_iff.mpr fun state _ => ?_)⟩
      exact (lookAhead_zero (fun _ _ => rfl) state).symm
    · intro h
      obtain ⟨after, hafter, hvalues⟩ := h
      exact hvalues.trans (tabulate_eq_iff.mpr fun state _ => lookAhead_zero hafter state)
  · rw [mem_backups_of_ne_nil hprior htabulated]
    simp only [promises_of_ne_nil hprior]

/-- What a backup promises: to look ahead to what the set before promises. -/
theorem promises_backups (hpopulated : pomdp.Populated) {prior : List (DenseAlpha K)}
    (htabulated : pomdp.Tabulated prior) {f : State → K} :
    pomdp.Promises (pomdp.resolved.backups prior).flatten f ↔ ∃ action ∈ pomdp.actions,
      ∃ after : Observation → State → K,
        (∀ observation ∈ pomdp.observations, pomdp.Promises prior (after observation)) ∧
          ∀ state ∈ pomdp.states, f state = pomdp.lookAhead action after state := by
  rw [promises_of_ne_nil (DensePomdp.backups_ne_nil (map_denseAction_ne_nil hpopulated) _)]
  constructor
  · intro h
    obtain ⟨alpha, halpha, hf⟩ := h
    obtain ⟨haction, after, hafter, hvalues⟩ := (mem_backups_iff htabulated).mp halpha
    exact ⟨_, haction, after, hafter, tabulate_eq_iff.mp (hf.symm.trans hvalues)⟩
  · intro h
    obtain ⟨action, haction, after, hafter, hf⟩ := h
    refine ⟨⟨action, pomdp.tabulate (pomdp.lookAhead action after)⟩,
      (mem_backups_iff htabulated).mpr ⟨haction, after, hafter, rfl⟩, ?_⟩
    exact tabulate_eq_iff.mpr fun state hstate => (hf state hstate).symm

/-! ### One decision -/

variable [IsStrictOrderedRing K]

/-- What an expectation is at most, by what the weights add up to. -/
theorem abs_expect_le {weights f : State → K} (hweights : ∀ state, 0 ≤ weights state) {bound : K}
    (hf : ∀ state ∈ pomdp.states, |f state| ≤ bound) :
    |pomdp.expect weights f| ≤ bound * pomdp.total weights := by
  unfold expect total
  rw [Finset.mul_sum]
  refine (Finset.abs_sum_le_sum_abs _ _).trans (Finset.sum_le_sum fun state hstate => ?_)
  rw [abs_mul, abs_of_nonneg (hweights state), mul_comm]
  exact mul_le_mul_of_nonneg_right (hf state (Collection.mem_members.mp hstate)) (hweights state)

/-- The masses of all observations add up to no more than the weights. -/
theorem sum_evidence_le (hproper : pomdp.Proper) (haction : action ∈ pomdp.actions)
    {weights : State → K} (hweights : ∀ state, 0 ≤ weights state) :
    ∑ observation ∈ pomdp.observations.members, pomdp.evidence weights action observation
      ≤ pomdp.total weights := by
  have hreach : ∀ next, 0 ≤ ∑ state ∈ pomdp.states.members,
      weights state * pomdp.transitions.chance state action next := fun next =>
    Finset.sum_nonneg fun state _ =>
      mul_nonneg (hweights state) (hproper.clamped.transitions.get_mem _).1
  calc ∑ observation ∈ pomdp.observations.members, pomdp.evidence weights action observation
      = ∑ next ∈ pomdp.states.members, (∑ observation ∈ pomdp.observations.members,
          pomdp.observationChances.chance action next observation)
            * ∑ state ∈ pomdp.states.members,
                weights state * pomdp.transitions.chance state action next := by
        unfold evidence mass
        rw [Finset.sum_comm]
        exact Finset.sum_congr rfl fun next _ => (Finset.sum_mul _ _ _).symm
    _ ≤ ∑ next ∈ pomdp.states.members, ∑ state ∈ pomdp.states.members,
          weights state * pomdp.transitions.chance state action next :=
        Finset.sum_le_sum fun next hnext => mul_le_of_le_one_left (hreach next)
          (hproper.observations action haction next (Collection.mem_members.mp hnext))
    _ = ∑ state ∈ pomdp.states.members, weights state
          * ∑ next ∈ pomdp.states.members, pomdp.transitions.chance state action next := by
        rw [Finset.sum_comm]
        exact Finset.sum_congr rfl fun state _ => (Finset.mul_sum _ _ _).symm
    _ ≤ pomdp.total weights :=
        Finset.sum_le_sum fun state hstate => mul_le_of_le_one_right (hweights state)
          (hproper.transitions state (Collection.mem_members.mp hstate) action haction)

/-- **Looking ahead passes a distance on discounted.** -/
theorem expect_lookAhead_le_add (hproper : pomdp.Proper) (haction : action ∈ pomdp.actions)
    {weights : State → K} (hweights : ∀ state, 0 ≤ weights state) {distance : K}
    (hdistance : 0 ≤ distance) {after after' : Observation → State → K}
    (hle : ∀ observation ∈ pomdp.observations,
      pomdp.expect (pomdp.mass weights action observation) (after observation)
        ≤ pomdp.expect (pomdp.mass weights action observation) (after' observation)
          + distance * pomdp.evidence weights action observation) :
    pomdp.expect weights (pomdp.lookAhead action after)
      ≤ pomdp.expect weights (pomdp.lookAhead action after')
        + pomdp.horizon.discount * distance * pomdp.total weights := by
  have hsum : ∑ observation ∈ pomdp.observations.members,
      pomdp.expect (pomdp.mass weights action observation) (after observation)
        ≤ ∑ observation ∈ pomdp.observations.members,
            pomdp.expect (pomdp.mass weights action observation) (after' observation)
          + distance * pomdp.total weights := by
    refine (Finset.sum_le_sum fun observation hobservation =>
      hle observation (Collection.mem_members.mp hobservation)).trans ?_
    rw [Finset.sum_add_distrib, ← Finset.mul_sum]
    exact add_le_add_right
      (mul_le_mul_of_nonneg_left (sum_evidence_le hproper haction hweights) hdistance) _
  have hdiscounted := mul_le_mul_of_nonneg_left hsum hproper.clamped.horizon.1
  rw [mul_add, ← mul_assoc] at hdiscounted
  rw [expect_lookAhead, expect_lookAhead]
  linarith

/-- Looking ahead is worth no more than what a transition can bring. -/
theorem abs_lookAhead_le (hproper : pomdp.Proper) (haction : action ∈ pomdp.actions)
    {after : Observation → State → K} {bound : K} (hbound : 0 ≤ bound) {state : State}
    (hstate : state ∈ pomdp.states)
    (h : ∀ next ∈ pomdp.states, ∀ observation ∈ pomdp.observations,
      |pomdp.rewards.reward state action next observation
        + pomdp.horizon.discount * after observation next| ≤ bound) :
    |pomdp.lookAhead action after state| ≤ bound := by
  -- an average of what is within the bound is within the bound
  have haverage : ∀ {ι : Type} (set : Finset ι) (chance x : ι → K), (∀ i, 0 ≤ chance i) →
      ∑ i ∈ set, chance i ≤ 1 → (∀ i ∈ set, |x i| ≤ bound) →
        |∑ i ∈ set, chance i * x i| ≤ bound := by
    intro ι set chance x hchance hsum hx
    calc |∑ i ∈ set, chance i * x i|
        ≤ ∑ i ∈ set, |chance i * x i| := Finset.abs_sum_le_sum_abs _ _
      _ ≤ ∑ i ∈ set, chance i * bound := Finset.sum_le_sum fun i hi => by
          rw [abs_mul, abs_of_nonneg (hchance i)]
          exact mul_le_mul_of_nonneg_left (hx i hi) (hchance i)
      _ = (∑ i ∈ set, chance i) * bound := (Finset.sum_mul _ _ _).symm
      _ ≤ bound := mul_le_of_le_one_left hbound hsum
  rw [lookAhead_eq]
  refine haverage _ _ _ (fun next => (hproper.clamped.transitions.get_mem _).1)
    (hproper.transitions state hstate action haction) fun next hnext => ?_
  have hnext := Collection.mem_members.mp hnext
  refine haverage _ _ _ (fun observation => (hproper.clamped.observationChances.get_mem _).1)
    (hproper.observations action haction next hnext) fun observation hobservation => ?_
  exact h next hnext observation (Collection.mem_members.mp hobservation)

/-! ### Sets of vectors -/

/-- Whether one set of vectors promises no more than another but for a distance, at any weights. -/
def Below (pomdp : Pomdp K) (distance : K) (gamma gamma' : List (DenseAlpha K)) : Prop :=
  ∀ weights : State → K, (∀ state, 0 ≤ weights state) → ∀ f, pomdp.Promises gamma f →
    ∃ g, pomdp.Promises gamma' g ∧
      pomdp.expect weights f ≤ pomdp.expect weights g + distance * pomdp.total weights

/-- **A backup leaves a distance discounted.** -/
theorem Below.backups {distance : K} {gamma gamma' : List (DenseAlpha K)}
    (h : pomdp.Below distance gamma gamma') (hproper : pomdp.Proper)
    (hpopulated : pomdp.Populated) (hdistance : 0 ≤ distance)
    (htabulated : pomdp.Tabulated gamma) (htabulated' : pomdp.Tabulated gamma') :
    pomdp.Below (pomdp.horizon.discount * distance) (pomdp.resolved.backups gamma).flatten
      (pomdp.resolved.backups gamma').flatten := by
  intro weights hweights f hf
  obtain ⟨action, haction, after, hafter, hf⟩ := (promises_backups hpopulated htabulated).mp hf
  have hfollow : ∀ observation ∈ pomdp.observations, ∃ g, pomdp.Promises gamma' g ∧
      pomdp.expect (pomdp.mass weights action observation) (after observation)
        ≤ pomdp.expect (pomdp.mass weights action observation) g
          + distance * pomdp.evidence weights action observation :=
    fun observation hobservation => h _ (mass_nonneg hproper.clamped hweights) _
      (hafter observation hobservation)
  choose! after' hafter' hle using hfollow
  refine ⟨pomdp.lookAhead action after', (promises_backups hpopulated htabulated').mpr
    ⟨action, haction, after', hafter', fun _ _ => rfl⟩, ?_⟩
  rw [expect_congr hf]
  exact expect_lookAhead_le_add hproper haction hweights hdistance hle

end Pomdp

end MarkovPlanning
