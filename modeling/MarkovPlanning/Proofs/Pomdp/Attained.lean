/-
No vector of a policy promises more than a plan earns.

While value iteration runs, every vector is what some plan is worth (`gamma_plan`).
Pruning only drops vectors, so its settings do not matter to this.  What is left is
the way into the policy, where a vector holds a coefficient for every state of the
process: the coefficient is what the plan is worth from that state on.
-/
import MarkovPlanning.Proofs.Pomdp.Optimal

namespace MarkovPlanning

variable {K : Type} [Field K] [LinearOrder K] {pomdp : Pomdp K}

open DecisionNode (worth)

/-- A vector that states, for every state, what one plan of so many decisions is worth, with the
action that the plan starts with. -/
def Pomdp.Attained (pomdp : Pomdp K) (decisions : Nat) (alpha : AlphaVector K) : Prop :=
  ∃ plan, pomdp.Plan decisions plan ∧ plan.action? = some alpha.action ∧
    ∀ state, alpha.get state = if state ∈ pomdp.states then worth pomdp plan state else 0

namespace EnvelopeIteration

variable {solver : EnvelopeIteration K}

/-- The vectors of a policy after so many steps, of which there is at least one. -/
theorem attained_gamma (hpopulated : pomdp.Populated) {decisions : Nat} (hpos : 0 < decisions) :
    let gamma := (solver.gamma pomdp.resolved decisions).map pomdp.resolved.sparse
    gamma ≠ [] ∧ ∀ alpha ∈ gamma, pomdp.Attained decisions alpha := by
  obtain ⟨before, rfl⟩ : ∃ before, decisions = before + 1 := ⟨decisions - 1, by omega⟩
  refine ⟨fun hempty => gamma_ne_nil hpopulated before (List.map_eq_nil_iff.mp hempty), ?_⟩
  intro sparse hsparse
  obtain ⟨alpha, halpha, rfl⟩ := List.mem_map.mp hsparse
  obtain ⟨plan, hplan, haction, hvalues⟩ := gamma_plan hpopulated _ alpha halpha
  exact ⟨plan, hplan, haction.trans (congrArg some (Pomdp.action_sparse alpha).symm),
    Pomdp.get_sparse hvalues⟩

/-- **Every vector that a policy holds is what some plan is worth**, state by state: at an epoch
of a finite span a plan of the decisions that are left, and over an endless span a plan of as many
decisions as there are backups. -/
theorem solve_attained (solver : EnvelopeIteration K) :
    (∀ policy, solver.solve pomdp = .ok policy → ∀ epoch < pomdp.horizon.epochs,
      ∃ gamma, policy.gamma epoch = .ok gamma ∧ gamma ≠ [] ∧
        ∀ alpha ∈ gamma, pomdp.Attained (pomdp.horizon.epochs - epoch) alpha) ∧
    (pomdp.horizon.epochs = 0 → ∀ backups policy,
      (solver.withBackups backups).solve pomdp = .ok policy →
      ∃ gamma, policy.gamma 0 = .ok gamma ∧ gamma ≠ [] ∧
        ∀ alpha ∈ gamma, pomdp.Attained (max backups 1) alpha) := by
  constructor
  · intro policy hsolve epoch hepoch
    have hpopulated := populated_of_solve hsolve
    obtain ⟨policy', hsolve', -, hgamma, -⟩ := solve_spec solver hpopulated
    obtain rfl : policy = policy' := Except.ok.inj (hsolve.symm.trans hsolve')
    exact ⟨_, hgamma epoch hepoch, attained_gamma hpopulated (Nat.sub_pos_of_lt hepoch)⟩
  · intro hendless backups policy hsolve
    have hpopulated := populated_of_solve hsolve
    obtain ⟨policy', hsolve', -, -, hgamma⟩ :=
      solve_spec (solver.withBackups backups) hpopulated
    obtain rfl : policy = policy' := Except.ok.inj (hsolve.symm.trans hsolve')
    exact ⟨_, hgamma hendless, attained_gamma hpopulated (Nat.lt_of_lt_of_le Nat.one_pos
      (Nat.le_max_right backups 1))⟩

/-- Two decisions about the cups under a margin that drops useful vectors, and an endless span
with three backups. -/
theorem solve_attained_cups :
    let solver : EnvelopeIteration ℚ :=
      { backups := 1
        envelope := { tolerance := 1, program := { maxPivots := 0, tolerance := 1/2 } } }
    (∃ policy alpha rest, solver.solve (cups 2) = .ok policy ∧
      policy.gamma 0 = .ok (alpha :: rest) ∧ (cups 2).Attained 2 alpha) ∧
    ∃ policy alpha rest, (solver.withBackups 3).solve (cups 0) = .ok policy ∧
      policy.gamma 0 = .ok (alpha :: rest) ∧ (cups 0).Attained 3 alpha := by
  intro solver
  have hfirst : ∀ {epochs decisions : Nat} {policy : VectorPolicy ℚ},
      (∃ gamma, policy.gamma 0 = .ok gamma ∧ gamma ≠ [] ∧
        ∀ alpha ∈ gamma, (cups epochs).Attained decisions alpha) →
      ∃ alpha rest, policy.gamma 0 = .ok (alpha :: rest) ∧
        (cups epochs).Attained decisions alpha := by
    intro epochs decisions policy h
    obtain ⟨gamma, hgamma, hne, hattained⟩ := h
    obtain ⟨alpha, rest, rfl⟩ := List.exists_cons_of_ne_nil hne
    exact ⟨alpha, rest, hgamma, hattained alpha List.mem_cons_self⟩
  constructor
  · obtain ⟨policy, hsolve, -⟩ := solve_spec solver (cups_populated 2)
    obtain ⟨alpha, rest, h⟩ := hfirst ((solve_attained solver).1 policy hsolve 0 Nat.two_pos)
    exact ⟨policy, alpha, rest, hsolve, h⟩
  · obtain ⟨policy, hsolve, -⟩ := solve_spec (solver.withBackups 3) (cups_populated 0)
    obtain ⟨alpha, rest, h⟩ := hfirst ((solve_attained solver).2 rfl 3 policy hsolve)
    exact ⟨policy, alpha, rest, hsolve, h⟩

end EnvelopeIteration

end MarkovPlanning
