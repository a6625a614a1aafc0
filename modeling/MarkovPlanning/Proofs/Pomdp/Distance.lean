/-
How far apart two sets of vectors are, before a backup and after it.

At a belief the value of a set is the greatest one of its vectors.  That one set is nowhere worth
more than another but for a distance can be said of the beliefs alone (`below_iff`): other weights
have the values of a belief times what they add up to.  So what a backup leaves of a difference at
all weights, it leaves of one at the beliefs (`abs_greatest_backups_sub_le`), and it keeps an order
between two sets (`greatest_backups_le`).

Over the reals the greatest difference at any belief is a distance between sets of vectors, and a
backup is a contraction (`backups_contract`).
-/
import MarkovPlanning.Proofs.Pomdp.Choices
import MarkovPlanning.Proofs.Pomdp.ErrorBound
import Mathlib

namespace MarkovPlanning.Pomdp

open DenseAlpha (greatest)
open Envelope (Weights)

variable {K : Type} [Field K] [LinearOrder K]

/-! ### Beliefs and other weights -/

section
variable {pomdp : Pomdp K}

omit [LinearOrder K] in
theorem sum_tabulate (weights : State → K) :
    (pomdp.tabulate weights).sum = pomdp.total weights :=
  Collection.sum_toList _ _

omit [LinearOrder K] in
theorem expect_scale (c : K) (weights f : State → K) :
    pomdp.expect (fun state => c * weights state) f = c * pomdp.expect weights f := by
  unfold expect
  rw [Finset.mul_sum]
  exact Finset.sum_congr rfl fun state _ => mul_assoc _ _ _

variable [IsStrictOrderedRing K]

/-- The weights of a belief as a function of the state. -/
theorem exists_weights {b : List K} (hb : Weights pomdp.states.size b) :
    ∃ weights : State → K, (∀ state, 0 ≤ weights state) ∧ pomdp.total weights = 1 ∧
      b = pomdp.tabulate weights := by
  obtain ⟨weights, rfl⟩ := exists_tabulate hb.length
  -- what the function is elsewhere does not matter
  have habs : pomdp.tabulate weights = pomdp.tabulate fun state => |weights state| :=
    tabulate_eq_iff.mpr fun state hstate => (abs_of_nonneg (hb.nonneg _
      (List.mem_map_of_mem (Std.ExtTreeSet.mem_toList.mpr hstate)))).symm
  refine ⟨fun state => |weights state|, fun state => abs_nonneg _, ?_, habs⟩
  rw [← sum_tabulate, ← habs]
  exact hb.total

variable {gamma gamma' : List (DenseAlpha K)}

/-- **Beliefs are enough to compare two sets of vectors at.** -/
theorem below_iff (htabulated : pomdp.Tabulated gamma) (htabulated' : pomdp.Tabulated gamma')
    {distance : K} :
    pomdp.Below distance gamma gamma' ↔ ∀ b, Weights pomdp.states.size b →
      greatest gamma b ≤ greatest gamma' b + distance := by
  constructor
  · intro h b hb
    obtain ⟨weights, hweights, htotal, rfl⟩ := exists_weights hb
    obtain ⟨f, hf, hattained⟩ := (greatest_spec htabulated weights).1
    obtain ⟨g, hg, hle⟩ := h weights hweights f hf
    have hgreatest := (greatest_spec htabulated' weights).2 g hg
    rw [htotal, mul_one] at hle
    linarith
  · intro h weights hweights f hf
    have hnonneg : ∀ p ∈ pomdp.tabulate weights, 0 ≤ p := by
      intro p hp
      obtain ⟨state, -, rfl⟩ := List.mem_map.mp hp
      exact hweights state
    rcases (List.sum_nonneg hnonneg).lt_or_eq with hpos | hzero
    · -- the belief that the weights are in proportion to
      have hb := Envelope.weights_scale hnonneg hpos
      rw [sum_tabulate] at hpos hb
      have hscaled : (pomdp.tabulate weights).map ((pomdp.total weights)⁻¹ * ·)
          = pomdp.tabulate fun state => (pomdp.total weights)⁻¹ * weights state := List.map_map
      rw [hscaled, length_tabulate] at hb
      obtain ⟨g, hg, hattained⟩ := (greatest_spec htabulated' _).1
      have hle := ((greatest_spec htabulated _).2 f hf).trans (h _ hb)
      rw [← hattained, expect_scale, expect_scale, ← div_eq_inv_mul, ← div_eq_inv_mul,
        div_le_iff₀ hpos, add_mul, div_mul_cancel₀ _ hpos.ne'] at hle
      exact ⟨g, hg, hle⟩
    · -- nothing has a value
      have hnothing : ∀ f : State → K, pomdp.expect weights f = 0 := fun f =>
        (dot_tabulate f weights).symm.trans (Envelope.dot_eq_zero hnonneg hzero.symm _)
      obtain ⟨g, hg⟩ := exists_promises htabulated'
      refine ⟨g, hg, ?_⟩
      rw [hnothing, hnothing, ← sum_tabulate, ← hzero, mul_zero, add_zero]

/-! ### One backup -/

section
variable (hproper : pomdp.Proper) (hpopulated : pomdp.Populated)
  (htabulated : pomdp.Tabulated gamma) (htabulated' : pomdp.Tabulated gamma')
include hproper hpopulated htabulated htabulated'

/-- **A backup leaves a difference discounted.** -/
theorem abs_greatest_backups_sub_le {distance : K}
    (h : ∀ b, Weights pomdp.states.size b →
      |greatest gamma b - greatest gamma' b| ≤ distance) {b : List K}
    (hb : Weights pomdp.states.size b) :
    |greatest (pomdp.resolved.backups gamma).flatten b
        - greatest (pomdp.resolved.backups gamma').flatten b|
      ≤ pomdp.horizon.discount * distance := by
  have hdistance : 0 ≤ distance := (abs_nonneg _).trans (h b hb)
  have habove : pomdp.Below distance gamma gamma' :=
    (below_iff htabulated htabulated').mpr fun b hb =>
      sub_le_iff_le_add'.mp (abs_sub_le_iff.mp (h b hb)).1
  have hbelow : pomdp.Below distance gamma' gamma :=
    (below_iff htabulated' htabulated).mpr fun b hb =>
      sub_le_iff_le_add'.mp (abs_sub_le_iff.mp (h b hb)).2
  have hbackups := backups_tabulated htabulated
  have hbackups' := backups_tabulated htabulated'
  rw [abs_sub_le_iff, sub_le_iff_le_add', sub_le_iff_le_add']
  exact ⟨(below_iff hbackups hbackups').mp
      (habove.backups hproper hpopulated hdistance htabulated htabulated') b hb,
    (below_iff hbackups' hbackups).mp
      (hbelow.backups hproper hpopulated hdistance htabulated' htabulated) b hb⟩

/-- **A backup keeps the order of two sets.** -/
theorem greatest_backups_le
    (h : ∀ b, Weights pomdp.states.size b → greatest gamma b ≤ greatest gamma' b) {b : List K}
    (hb : Weights pomdp.states.size b) :
    greatest (pomdp.resolved.backups gamma).flatten b
      ≤ greatest (pomdp.resolved.backups gamma').flatten b := by
  have hbelow : pomdp.Below 0 gamma gamma' :=
    (below_iff htabulated htabulated').mpr fun b hb => (h b hb).trans_eq (add_zero _).symm
  have hle := (below_iff (backups_tabulated htabulated) (backups_tabulated htabulated')).mp
    (hbelow.backups hproper hpopulated le_rfl htabulated htabulated') b hb
  rwa [mul_zero, add_zero] at hle

end

/-! ### The greatest difference -/

/-- The coefficients of some vectors bound what they promise. -/
theorem exists_bound (htabulated : pomdp.Tabulated gamma) :
    ∃ bound, ∀ b, Weights pomdp.states.size b → |greatest gamma b| ≤ bound := by
  let magnitudes : List K := (gamma.flatMap (·.values)).map fun x => |x|
  have hnonneg : ∀ x ∈ magnitudes, 0 ≤ x := by
    intro x hx
    obtain ⟨y, -, rfl⟩ := List.mem_map.mp hx
    exact abs_nonneg y
  refine ⟨magnitudes.sum, fun b hb => ?_⟩
  obtain ⟨weights, hweights, htotal, rfl⟩ := exists_weights hb
  obtain ⟨f, hf, hattained⟩ := (greatest_spec htabulated weights).1
  have hbound : ∀ state ∈ pomdp.states, |f state| ≤ magnitudes.sum := by
    intro state hstate
    rcases hf with ⟨alpha, halpha, hvalues⟩ | ⟨-, rfl⟩
    · have hmem : f state ∈ alpha.values := by
        rw [hvalues]
        exact List.mem_map_of_mem (Std.ExtTreeSet.mem_toList.mpr hstate)
      exact List.single_le_sum hnonneg _
        (List.mem_map_of_mem (List.mem_flatMap.mpr ⟨alpha, halpha, hmem⟩))
    · rw [Pi.zero_apply, abs_zero]
      exact List.sum_nonneg hnonneg
  rw [← hattained]
  have hle := abs_expect_le hweights hbound
  rwa [htotal, mul_one] at hle

end

section
variable {pomdp : Pomdp ℝ} {gamma gamma' : List (DenseAlpha ℝ)}

/-- By how much the values of two sets of vectors differ at a belief. -/
noncomputable def difference (pomdp : Pomdp ℝ) (gamma gamma' : List (DenseAlpha ℝ))
    (belief : {b : List ℝ // Weights pomdp.states.size b}) : ℝ :=
  |greatest gamma belief.val - greatest gamma' belief.val|

theorem bddAbove_difference (htabulated : pomdp.Tabulated gamma)
    (htabulated' : pomdp.Tabulated gamma') :
    BddAbove (Set.range (pomdp.difference gamma gamma')) := by
  obtain ⟨bound, hbound⟩ := exists_bound htabulated
  obtain ⟨bound', hbound'⟩ := exists_bound htabulated'
  refine ⟨bound + bound', ?_⟩
  rintro x ⟨belief, rfl⟩
  exact (abs_sub _ _).trans
    (add_le_add (hbound _ belief.property) (hbound' _ belief.property))

/-- **A backup is a contraction.**  At the belief where the values differ most after the backups,
they differ by no more than the greatest difference before, discounted; and a set that is worth no
more than another at any belief is not after a backup. -/
theorem backups_contract {model : DensePomdp ℝ} (hmodel : pomdp.dense = .ok model)
    (hproper : pomdp.Proper)
    (hlength : ∀ alpha ∈ gamma, alpha.values.length = pomdp.states.size)
    (hlength' : ∀ alpha ∈ gamma', alpha.values.length = pomdp.states.size) :
    BddAbove (Set.range (pomdp.difference gamma gamma')) ∧
    BddAbove (Set.range
      (pomdp.difference (model.backups gamma).flatten (model.backups gamma').flatten)) ∧
    (⨆ belief, pomdp.difference (model.backups gamma).flatten (model.backups gamma').flatten belief)
      ≤ pomdp.horizon.discount * ⨆ belief, pomdp.difference gamma gamma' belief ∧
    ((∀ b, Weights pomdp.states.size b → greatest gamma b ≤ greatest gamma' b) →
      ∀ b, Weights pomdp.states.size b →
        greatest (model.backups gamma).flatten b ≤ greatest (model.backups gamma').flatten b) := by
  obtain ⟨hpopulated, rfl⟩ := dense_eq_ok_iff.mp hmodel
  have htabulated := tabulated_of_length hlength
  have htabulated' := tabulated_of_length hlength'
  have hbdd := bddAbove_difference htabulated htabulated'
  refine ⟨hbdd, bddAbove_difference (backups_tabulated htabulated) (backups_tabulated htabulated'),
    ?_, fun h b hb => greatest_backups_le hproper hpopulated htabulated htabulated' h hb⟩
  have hnonneg : 0 ≤ ⨆ belief, pomdp.difference gamma gamma' belief :=
    Real.iSup_nonneg fun belief => abs_nonneg _
  refine Real.iSup_le (fun belief => ?_) (mul_nonneg hproper.clamped.horizon.1 hnonneg)
  exact abs_greatest_backups_sub_le hproper hpopulated htabulated htabulated'
    (fun b hb => le_ciSup hbdd ⟨b, hb⟩) belief.property

/-- A single vector that promises nothing. -/
def idle : List (DenseAlpha ℝ) := [⟨.named .action "wait", [0]⟩]

/-- Two vectors, one of which is never better. -/
noncomputable def busy : List (DenseAlpha ℝ) :=
  [⟨.named .action "wait", [-1]⟩, ⟨.named .action "work", [1]⟩]

theorem backups_contract_workshop :
    BddAbove (Set.range (workshop.difference idle busy)) ∧
    BddAbove (Set.range (workshop.difference (workshop.resolved.backups idle).flatten
      (workshop.resolved.backups busy).flatten)) ∧
    (⨆ belief, workshop.difference (workshop.resolved.backups idle).flatten
        (workshop.resolved.backups busy).flatten belief)
      ≤ workshop.horizon.discount * ⨆ belief, workshop.difference idle busy belief ∧
    ((∀ b, Weights workshop.states.size b → greatest idle b ≤ greatest busy b) →
      ∀ b, Weights workshop.states.size b →
        greatest (workshop.resolved.backups idle).flatten b
          ≤ greatest (workshop.resolved.backups busy).flatten b) := by
  have hsize : workshop.states.size = 1 := by decide +kernel
  exact backups_contract (dense_eq_ok_iff.mpr ⟨workshop_populated, rfl⟩) workshop_proper
    (by simp [idle, hsize]) (by simp [busy, hsize])

end

end MarkovPlanning.Pomdp
