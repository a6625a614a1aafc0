/-
How close so many backups are to an endless span.

Nothing that some backups promise is farther from zero than the greatest reward summed up for
ever (`abs_le_of_promises`).  So that is a distance between the promises of any number of
backups and those of none, and every backup that is made before leaves of the distance what it is
discounted (`below_unpruned`).  At a belief the values are that close (`abs_valueAfter_sub_le`),
and have a limit (`exists_endless`).
-/
import MarkovPlanning.Proofs.Pomdp.Contraction
import Mathlib

namespace MarkovPlanning

open Filter Topology

variable {K : Type} [Field K] [LinearOrder K]

namespace DensePomdp

/-- The vectors of so many decisions if nothing is pruned. -/
def unpruned {α : Type} [Scalar α] (model : DensePomdp α) (decisions : Nat) :
    List (DenseAlpha α) :=
  Nat.repeat (fun prior => (model.backups prior).flatten) decisions []

/-- The greatest value of these vectors at a belief, zero if there are none. -/
def valueAfter (model : DensePomdp K) (decisions : Nat) (belief : Belief K) : K :=
  (Envelope.height? (·.values) (model.unpruned decisions) (model.states.map belief.get)).getD 0

end DensePomdp

namespace Pomdp

variable {pomdp : Pomdp K}

/-- What so many backups leave open: the greatest reward, summed up from there on for ever. -/
def errorLeft (pomdp : Pomdp K) (backups : Nat) : K :=
  pomdp.horizon.discount ^ backups
    * (pomdp.rewards.bounds.magnitude / (1 - pomdp.horizon.discount))

theorem unpruned_tabulated : ∀ decisions,
    pomdp.Tabulated (pomdp.resolved.unpruned decisions) := by
  intro decisions
  induction decisions with
  | zero => intro alpha halpha; exact absurd halpha List.not_mem_nil
  | succ decisions ih => exact backups_tabulated ih

/-- **The value at a belief is the greatest expectation of what is promised.** -/
theorem valueAfter_spec (decisions : Nat) (belief : Belief K) :
    (∃ f, pomdp.Promises (pomdp.resolved.unpruned decisions) f ∧
      pomdp.expect belief.get f = pomdp.resolved.valueAfter decisions belief) ∧
    ∀ f, pomdp.Promises (pomdp.resolved.unpruned decisions) f →
      pomdp.expect belief.get f ≤ pomdp.resolved.valueAfter decisions belief :=
  greatest_spec (unpruned_tabulated decisions) belief.get

/-! ### The distance between numbers of backups -/

theorem errorLeft_succ (backups : Nat) :
    pomdp.errorLeft (backups + 1) = pomdp.horizon.discount * pomdp.errorLeft backups := by
  rw [errorLeft, errorLeft, pow_succ', mul_assoc]

variable [IsStrictOrderedRing K]

/-- The greatest reward summed up for ever is one reward, and the sum discounted. -/
theorem errorLeft_zero (hdiscount : pomdp.horizon.discount < 1) :
    pomdp.errorLeft 0
      = pomdp.rewards.bounds.magnitude + pomdp.horizon.discount * pomdp.errorLeft 0 := by
  have hshort : 1 - pomdp.horizon.discount ≠ 0 := (sub_pos.mpr hdiscount).ne'
  rw [errorLeft, pow_zero, one_mul]
  field_simp
  ring

section
variable (hproper : pomdp.Proper) (hdiscount : pomdp.horizon.discount < 1)
include hproper hdiscount

theorem errorLeft_nonneg (backups : Nat) : 0 ≤ pomdp.errorLeft backups :=
  mul_nonneg (pow_nonneg hproper.clamped.horizon.1 _)
    (div_nonneg (Bounds.magnitude_nonneg _) (sub_pos.mpr hdiscount).le)

variable (hpopulated : pomdp.Populated) (hrewards : pomdp.rewards.Bounded)
include hpopulated hrewards

/-- Nothing that is promised exceeds the greatest reward summed up for ever. -/
theorem abs_le_of_promises : ∀ (decisions : Nat) (f : State → K),
    pomdp.Promises (pomdp.resolved.unpruned decisions) f →
      ∀ state ∈ pomdp.states, |f state| ≤ pomdp.errorLeft 0 := by
  have hpos := errorLeft_nonneg hproper hdiscount 0
  intro decisions
  induction decisions with
  | zero =>
      intro f hf state _
      rw [promises_nil.mp hf, Pi.zero_apply, abs_zero]
      exact hpos
  | succ decisions ih =>
      intro f hf state hstate
      obtain ⟨action, haction, after, hafter, hf⟩ :=
        (promises_backups hpopulated (unpruned_tabulated decisions)).mp hf
      rw [hf state hstate]
      refine abs_lookAhead_le hproper haction hpos hstate fun next hnext observation hobs => ?_
      rw [errorLeft_zero hdiscount]
      refine (abs_add_le _ _).trans (add_le_add (hrewards.abs_get_le _) ?_)
      rw [abs_mul, abs_of_nonneg hproper.clamped.horizon.1]
      exact mul_le_mul_of_nonneg_left (ih _ (hafter observation hobs) next hnext)
        hproper.clamped.horizon.1

/-- **The first backups leave a distance discounted as often.** -/
theorem below_unpruned (more : Nat) : ∀ decisions,
    pomdp.Below (pomdp.errorLeft decisions) (pomdp.resolved.unpruned (decisions + more))
        (pomdp.resolved.unpruned decisions) ∧
      pomdp.Below (pomdp.errorLeft decisions) (pomdp.resolved.unpruned decisions)
        (pomdp.resolved.unpruned (decisions + more)) := by
  intro decisions
  induction decisions with
  | zero =>
      rw [Nat.zero_add]
      -- without a decision nothing is had, and what is promised is within the distance of that
      have hnothing : ∀ weights : State → K, pomdp.expect weights 0 = 0 := fun weights =>
        Finset.sum_eq_zero fun state _ => mul_zero _
      have hbound := abs_le_of_promises hproper hdiscount hpopulated hrewards more
      constructor
      · intro weights hweights f hf
        refine ⟨0, promises_nil.mpr rfl, ?_⟩
        rw [hnothing, zero_add]
        exact (le_abs_self _).trans (abs_expect_le hweights (hbound f hf))
      · intro weights hweights f hf
        obtain ⟨g, hg⟩ := exists_promises (pomdp.unpruned_tabulated more)
        refine ⟨g, hg, ?_⟩
        rw [promises_nil.mp hf, hnothing]
        have hle := (abs_le.mp (abs_expect_le hweights (hbound g hg))).1
        linarith
  | succ decisions ih =>
      have hleft := errorLeft_nonneg hproper hdiscount decisions
      rw [errorLeft_succ, Nat.add_right_comm]
      exact ⟨ih.1.backups hproper hpopulated hleft (unpruned_tabulated _) (unpruned_tabulated _),
        ih.2.backups hproper hpopulated hleft (unpruned_tabulated _) (unpruned_tabulated _)⟩

/-- **At a belief, later values differ by no more than what is left open.** -/
theorem abs_valueAfter_sub_le {belief : Belief K} (hb : belief.Over pomdp.states)
    (htotal : belief.total = 1) {decisions later : Nat} (hlater : decisions ≤ later) :
    |pomdp.resolved.valueAfter later belief - pomdp.resolved.valueAfter decisions belief|
      ≤ pomdp.errorLeft decisions := by
  obtain ⟨more, rfl⟩ := Nat.exists_eq_add_of_le hlater
  have hweights : ∀ state, 0 ≤ belief.get state := fun state => (hb.clamped state).1
  have hvalue : ∀ {n n' : Nat}, pomdp.Below (pomdp.errorLeft decisions)
      (pomdp.resolved.unpruned n) (pomdp.resolved.unpruned n') →
      pomdp.resolved.valueAfter n belief
        ≤ pomdp.resolved.valueAfter n' belief + pomdp.errorLeft decisions := by
    intro n n' hbelow
    obtain ⟨f, hf, hattained⟩ := (valueAfter_spec n belief).1
    obtain ⟨g, hg, hle⟩ := hbelow belief.get hweights f hf
    rw [total_get hb, htotal, mul_one] at hle
    have hgreatest := (valueAfter_spec n' belief).2 g hg
    linarith
  obtain ⟨habove, hbelow⟩ := below_unpruned hproper hdiscount hpopulated hrewards more decisions
  rw [abs_sub_le_iff, sub_le_iff_le_add', sub_le_iff_le_add']
  exact ⟨hvalue habove, hvalue hbelow⟩

end

/-- The values of more and more backups have a limit, which the first ones are as close to as to
all later ones. -/
theorem exists_endless {pomdp : Pomdp ℝ} (hproper : pomdp.Proper)
    (hdiscount : pomdp.horizon.discount < 1) (hpopulated : pomdp.Populated)
    (hrewards : pomdp.rewards.Bounded) {belief : Belief ℝ}
    (hb : belief.Over pomdp.states) (htotal : belief.total = 1) :
    ∃ endless, Tendsto (fun backups => pomdp.resolved.valueAfter backups belief) atTop
        (𝓝 endless) ∧
      ∀ backups, |endless - pomdp.resolved.valueAfter backups belief|
        ≤ pomdp.errorLeft backups := by
  have hnear : ∀ {backups later : Nat}, backups ≤ later →
      |pomdp.resolved.valueAfter later belief - pomdp.resolved.valueAfter backups belief|
        ≤ pomdp.errorLeft backups :=
    abs_valueAfter_sub_le hproper hdiscount hpopulated hrewards hb htotal
  have hcauchy : CauchySeq fun backups => pomdp.resolved.valueAfter backups belief := by
    refine cauchySeq_of_le_geometric pomdp.horizon.discount
      (pomdp.rewards.bounds.magnitude / (1 - pomdp.horizon.discount)) hdiscount fun backups => ?_
    rw [dist_comm, Real.dist_eq, mul_comm]
    exact hnear (Nat.le_succ backups)
  obtain ⟨endless, hendless⟩ := cauchySeq_tendsto_of_complete hcauchy
  refine ⟨endless, hendless, fun backups => ?_⟩
  refine le_of_tendsto ((hendless.sub_const _).abs) ?_
  filter_upwards [eventually_ge_atTop backups] with later hlater
  exact hnear hlater

end Pomdp

end MarkovPlanning
