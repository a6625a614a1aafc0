/-
The tree of a policy earns what the policy promises.

A policy promises the value of its best vector, and the tree of the policy takes the
action of that vector.  The vector looks ahead to some vector of the next epoch
after each observation.  There the tree goes on at the updated belief, with the
vector that is best there, so it does not matter which vectors pruning kept: going
on with the best one of them is at least as good as with the one that was looked
ahead to.

The vectors weigh what follows an observation by masses and the tree by updated
beliefs.  The two differ by a factor, the chance of the observation, which is not
negative (`Pomdp.expect_mass_eq`).
-/
import MarkovPlanning.Proofs.Pomdp.Fill
import MarkovPlanning.Proofs.Pomdp.Stages
import Mathlib

namespace MarkovPlanning

namespace EnvelopeIteration

open DecisionNode (worth)

variable {K : Type} [Field K] [LinearOrder K] [IsStrictOrderedRing K]
variable {solver : EnvelopeIteration K} {pomdp : Pomdp K} {policy : VectorPolicy K}

/-- After an observation, no vector of the epoch is worth more than a subtree that earns the value
of the policy at the belief that is gone on with. -/
theorem expect_mass_le_worth (hclamped : pomdp.Clamped) (hpopulated : pomdp.Populated)
    {epoch decisions : Nat} (hgamma : policy.gamma epoch
      = .ok ((solver.gamma pomdp.resolved (decisions + 1)).map pomdp.resolved.sparse))
    {belief : Belief K} (hb : belief.Over pomdp.states) {action : Action}
    {observation : Observation} {child : DecisionNode} {best : K × Action}
    (hvalue : policy.value epoch (pomdp.updateOrKeep belief action observation) = .ok best)
    (hle : best.1 ≤ pomdp.treeReward child (pomdp.updateOrKeep belief action observation))
    {f : State → K} (hf : pomdp.Offers (solver.gamma pomdp.resolved (decisions + 1)) f) :
    pomdp.expect (pomdp.mass belief.get action observation) f
      ≤ pomdp.expect (pomdp.mass belief.get action observation) (worth pomdp child) := by
  obtain ⟨best', hvalue', -, -, hgreatest⟩ :=
    value_gamma hpopulated hgamma (pomdp.updateOrKeep belief action observation)
  obtain rfl : best = best' := Except.ok.inj (hvalue.symm.trans hvalue')
  rw [Pomdp.expect_mass_eq hclamped hb, Pomdp.expect_mass_eq hclamped hb]
  refine mul_le_mul_of_nonneg_left ((hgreatest f hf).trans hle) ?_
  exact Pomdp.evidence_nonneg hclamped fun state => (hb.clamped state).1

/-- From an epoch on there is a tree for so many more observations, and it earns at least the value
of the policy. -/
def Kept (pomdp : Pomdp K) (policy : VectorPolicy K) (depth epoch : Nat) (belief : Belief K) :
    Prop :=
  ∃ node best, pomdp.Unrolls policy depth epoch belief node ∧
    policy.value epoch belief = .ok best ∧ best.1 ≤ pomdp.treeReward node belief

omit [IsStrictOrderedRing K] in
/-- The last decision earns what the policy promises for it. -/
theorem kept_last (hpopulated : pomdp.Populated) {epoch : Nat} (hgamma : policy.gamma epoch
      = .ok ((solver.gamma pomdp.resolved 1).map pomdp.resolved.sparse)) (belief : Belief K) :
    Kept pomdp policy 0 epoch belief := by
  obtain ⟨best, hvalue, hget, ⟨alpha, halpha, haction, hattained⟩, -⟩ :=
    value_gamma hpopulated hgamma belief
  have hbackups := Pomdp.mem_backups_nil.mp (step_subset _ _ halpha)
  refine ⟨.node (some best.2) [], best, .last hget, hvalue, le_of_eq ?_⟩
  rw [← hattained _ hbackups.2, haction]
  exact Pomdp.expect_congr fun state _ => (Pomdp.worth_last state).symm

/-- A decision before trees that keep to the policy keeps to it, too. -/
theorem kept_next (hclamped : pomdp.Clamped) (hpopulated : pomdp.Populated) {depth epoch : Nat}
    (hgamma : policy.gamma epoch
      = .ok ((solver.gamma pomdp.resolved (depth + 1 + 1)).map pomdp.resolved.sparse))
    (hnext : policy.gamma (epoch + 1)
      = .ok ((solver.gamma pomdp.resolved (depth + 1)).map pomdp.resolved.sparse))
    (hkept : ∀ belief : Belief K, belief.Over pomdp.states →
      Kept pomdp policy depth (epoch + 1) belief)
    {belief : Belief K} (hb : belief.Over pomdp.states) :
    Kept pomdp policy (depth + 1) epoch belief := by
  obtain ⟨best, hvalue, hget, ⟨alpha, halpha, haction, hattained⟩, -⟩ :=
    value_gamma hpopulated hgamma belief
  obtain ⟨-, after, hoffers, hvalues⟩ := (Pomdp.mem_backups_of_ne_nil
    (gamma_ne_nil hpopulated depth) (gamma_tabulated _)).mp (step_subset _ _ halpha)
  rw [haction] at hvalues
  -- the subtree of an observation is at least as good as what was looked ahead to
  have hsubtrees : ∀ observation ∈ pomdp.observations, ∃ child,
      pomdp.Unrolls policy depth (epoch + 1)
        (pomdp.updateOrKeep belief best.2 observation) child ∧
      pomdp.expect (pomdp.mass belief.get best.2 observation) (after observation)
        ≤ pomdp.expect (pomdp.mass belief.get best.2 observation) (worth pomdp child) := by
    intro observation hobservation
    obtain ⟨child, best', hchild, hvalue', hle⟩ := hkept _ (Pomdp.updateOrKeep_over hclamped hb)
    exact ⟨child, hchild, expect_mass_le_worth hclamped hpopulated hnext hb hvalue' hle
      (hoffers observation hobservation)⟩
  have : Nonempty DecisionNode := ⟨.node none []⟩
  choose! children hchildren hle using hsubtrees
  refine ⟨_, best, .next hget hchildren, hvalue, ?_⟩
  calc best.1
      = pomdp.expect belief.get (pomdp.lookAhead best.2 after) := (hattained _ hvalues).symm
    _ ≤ pomdp.expect belief.get (pomdp.lookAhead best.2 fun observation =>
          worth pomdp (children observation)) := Pomdp.expect_lookAhead_le hclamped hle
    _ = _ := Pomdp.expect_congr fun state _ => (Pomdp.worth_next children state).symm

/-- **At every epoch, the tree from there on earns at least the value of the policy.** -/
theorem kept_of_gamma (hclamped : pomdp.Clamped) (hpopulated : pomdp.Populated)
    (hgamma : ∀ epoch < pomdp.horizon.epochs, policy.gamma epoch
      = .ok ((solver.gamma pomdp.resolved (pomdp.horizon.epochs - epoch)).map
          pomdp.resolved.sparse)) :
    ∀ (depth epoch : Nat), epoch + (depth + 1) = pomdp.horizon.epochs →
      ∀ belief : Belief K, belief.Over pomdp.states → Kept pomdp policy depth epoch belief := by
  intro depth
  induction depth with
  | zero =>
      intro epoch hepoch belief _
      have h := hgamma epoch (by omega)
      rw [show pomdp.horizon.epochs - epoch = 1 by omega] at h
      exact kept_last hpopulated h belief
  | succ depth ih =>
      intro epoch hepoch belief hb
      have h := hgamma epoch (by omega)
      have hnext := hgamma (epoch + 1) (by omega)
      rw [show pomdp.horizon.epochs - epoch = depth + 1 + 1 by omega] at h
      rw [show pomdp.horizon.epochs - (epoch + 1) = depth + 1 by omega] at hnext
      exact kept_next hclamped hpopulated h hnext (ih (epoch + 1) (by omega)) hb

/-- **Over a finite span, executing the tree of a policy earns at least the value of the policy**,
whatever pruning kept. -/
theorem value_le_treeReward (hclamped : pomdp.Clamped) (hfinite : 0 < pomdp.horizon.epochs)
    (hsolve : solver.solve pomdp = .ok policy) {belief : Belief K}
    (hb : belief.Over pomdp.states) :
    ∃ tree best, pomdp.unroll policy belief = .ok tree ∧ policy.value 0 belief = .ok best ∧
      best.1 ≤ pomdp.treeReward tree.root belief := by
  have hpopulated := populated_of_solve hsolve
  obtain ⟨policy', hsolve', hspan, hgamma, -⟩ := solve_spec solver hpopulated
  obtain rfl : policy = policy' := Except.ok.inj (hsolve.symm.trans hsolve')
  obtain ⟨depth, hdepth⟩ : ∃ depth, pomdp.horizon.epochs = depth + 1 :=
    ⟨pomdp.horizon.epochs - 1, by omega⟩
  obtain ⟨node, best, hunroll, hvalue, hle⟩ :=
    kept_of_gamma hclamped hpopulated hgamma depth 0 (by omega) belief hb
  exact ⟨_, best, Pomdp.unroll_eq_ok (hspan ▸ hdepth) hunroll, hvalue, hle⟩

/-- Three decisions about the cups, with a margin that drops useful vectors. -/
theorem value_le_treeReward_cups :
    let solver : EnvelopeIteration ℚ :=
      { backups := 1
        envelope := { tolerance := 1, program := { maxPivots := 9, tolerance := 1/10 } } }
    ∃ policy tree best, solver.solve (cups 3) = .ok policy ∧
      (cups 3).unroll policy (.uniform (cups 3).states) = .ok tree ∧
      policy.value 0 (.uniform (cups 3).states) = .ok best ∧
      best.1 ≤ (cups 3).treeReward tree.root (.uniform (cups 3).states) := by
  intro solver
  obtain ⟨policy, hsolve, -⟩ := solve_spec solver (cups_populated 3)
  obtain ⟨tree, best, htree⟩ :=
    value_le_treeReward (cups_clamped 3) (Nat.succ_pos 2) hsolve (Belief.over_uniform _)
  exact ⟨policy, tree, best, hsolve, htree⟩

end EnvelopeIteration

end MarkovPlanning
