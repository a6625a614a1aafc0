/-
Value iteration finds the best plans.

Two facts about the vectors after some steps make this true.  Each of them is what
some plan of so many decisions is worth, with the action the plan starts with
(`gamma_plan`).  And at any weights no plan of so many decisions is worth more than
the best of them (`exists_gamma`), provided that pruning loses nothing, which is what
a margin of at most zero and a linear program without tolerance are needed for.

Both are inductions on the number of decisions.  For the second one the weights have
to vary: what a plan does after an observation is weighed by the masses, which are
not a belief any more, and the step is the equation for looking ahead.
-/
import MarkovPlanning.Proofs.Pomdp.Stages
import Mathlib

namespace MarkovPlanning

variable {K : Type} [Field K] [LinearOrder K] {pomdp : Pomdp K}

namespace Pomdp

/-- A value that is the greatest expected reward of a plan of so many decisions, with the action
that one of the best plans starts with. -/
structure Optimal (pomdp : Pomdp K) (decisions : Nat) (belief : Belief K) (best : K × Action) :
    Prop where
  attained : ∃ plan, pomdp.Plan decisions plan ∧ plan.action? = some best.2 ∧
    pomdp.treeReward plan belief = best.1
  greatest : ∀ plan, pomdp.Plan decisions plan → pomdp.treeReward plan belief ≤ best.1

end Pomdp

namespace EnvelopeIteration

open DecisionNode (worth)

variable {solver : EnvelopeIteration K}

/-- **Every vector is what a plan is worth.** -/
theorem gamma_plan (hpopulated : pomdp.Populated) : ∀ (decisions : Nat),
    ∀ alpha ∈ solver.gamma pomdp.resolved decisions, ∃ plan, pomdp.Plan decisions plan ∧
      plan.action? = some alpha.action ∧ alpha.values = pomdp.tabulate (worth pomdp plan) := by
  intro decisions
  induction decisions with
  | zero => intro alpha halpha; exact absurd halpha List.not_mem_nil
  | succ decisions ih =>
      intro alpha halpha
      have hbackups := step_subset _ _ halpha
      cases decisions with
      | zero =>
          obtain ⟨haction, hvalues⟩ := Pomdp.mem_backups_nil.mp hbackups
          refine ⟨_, .last haction, rfl, hvalues.trans (Pomdp.tabulate_eq_iff.mpr ?_)⟩
          exact fun state _ => (Pomdp.worth_last state).symm
      | succ decisions =>
          obtain ⟨haction, after, hoffers, hvalues⟩ := (Pomdp.mem_backups_of_ne_nil
            (gamma_ne_nil hpopulated decisions) (gamma_tabulated _)).mp hbackups
          -- what is gone on with after an observation is a plan's worth
          have hplans : ∀ observation ∈ pomdp.observations, ∃ plan,
              pomdp.Plan (decisions + 1) plan ∧
                ∀ state ∈ pomdp.states, after observation state = worth pomdp plan state := by
            intro observation hobservation
            obtain ⟨beta, hbeta, hafter⟩ := hoffers observation hobservation
            obtain ⟨plan, hplan, -, hworth⟩ := ih beta hbeta
            exact ⟨plan, hplan, Pomdp.tabulate_eq_iff.mp (hafter.symm.trans hworth)⟩
          have : Nonempty DecisionNode := ⟨.node none []⟩
          choose! children hchildren hworth using hplans
          refine ⟨_, .next haction hchildren, rfl, hvalues.trans (Pomdp.tabulate_eq_iff.mpr ?_)⟩
          intro state _
          rw [Pomdp.worth_next]
          exact Pomdp.lookAhead_congr hworth state

variable [IsStrictOrderedRing K]

/-- Without a margin, pruning keeps a vector as good as any backup at any weights. -/
theorem exists_step (htol : solver.envelope.program.tolerance = 0)
    (hmargin : solver.envelope.tolerance ≤ 0) {prior : List (DenseAlpha K)}
    (htabulated : pomdp.Tabulated prior) {weights : State → K}
    (hweights : ∀ state, 0 ≤ weights state) {alpha : DenseAlpha K}
    (halpha : alpha ∈ (pomdp.resolved.backups prior).flatten) :
    ∃ other ∈ solver.step pomdp.resolved prior,
      Scalar.dot alpha.values (pomdp.tabulate weights)
        ≤ Scalar.dot other.values (pomdp.tabulate weights) := by
  refine Envelope.exists_survivor_of_nonneg htol hmargin (fun x hx => ?_)
    Pomdp.length_tabulate (fun p hp => ?_) halpha
  · obtain ⟨f, hf⟩ := Pomdp.backups_tabulated htabulated x hx
    rw [hf, Pomdp.length_tabulate]
  · obtain ⟨state, -, rfl⟩ := List.mem_map.mp hp
    exact hweights state

/-- A step keeps up with an action after which, whatever is observed, the set before keeps up with
what is had. -/
theorem exists_step_lookAhead (htol : solver.envelope.program.tolerance = 0)
    (hmargin : solver.envelope.tolerance ≤ 0) (hclamped : pomdp.Clamped)
    {prior : List (DenseAlpha K)} (hprior : prior ≠ []) (htabulated : pomdp.Tabulated prior)
    {weights : State → K} (hweights : ∀ state, 0 ≤ weights state) {action : Action}
    (haction : action ∈ pomdp.actions) {had : Observation → State → K}
    (hbest : ∀ observation ∈ pomdp.observations, ∃ f, pomdp.Offers prior f ∧
      pomdp.expect (pomdp.mass weights action observation) (had observation)
        ≤ pomdp.expect (pomdp.mass weights action observation) f) :
    ∃ alpha ∈ solver.step pomdp.resolved prior,
      pomdp.expect weights (pomdp.lookAhead action had)
        ≤ Scalar.dot alpha.values (pomdp.tabulate weights) := by
  choose! after hoffers hle using hbest
  have hmem : (⟨action, pomdp.tabulate (pomdp.lookAhead action after)⟩ : DenseAlpha K)
      ∈ (pomdp.resolved.backups prior).flatten :=
    (Pomdp.mem_backups_of_ne_nil hprior htabulated).mpr ⟨haction, after, hoffers, rfl⟩
  obtain ⟨other, hother, hle'⟩ := exists_step htol hmargin htabulated hweights hmem
  rw [Pomdp.dot_tabulate] at hle'
  exact ⟨other, hother, (Pomdp.expect_lookAhead_le hclamped hle).trans hle'⟩

/-- **No plan is worth more than the best vector**, at any weights. -/
theorem exists_gamma (htol : solver.envelope.program.tolerance = 0)
    (hmargin : solver.envelope.tolerance ≤ 0) (hclamped : pomdp.Clamped)
    (hpopulated : pomdp.Populated) {decisions : Nat} {plan : DecisionNode}
    (hplan : pomdp.Plan decisions plan) : ∀ (weights : State → K), (∀ state, 0 ≤ weights state) →
      ∃ alpha ∈ solver.gamma pomdp.resolved decisions,
        pomdp.expect weights (worth pomdp plan)
          ≤ Scalar.dot alpha.values (pomdp.tabulate weights) := by
  induction hplan with
  | @last action haction =>
      intro weights hweights
      have hmem : (⟨action, pomdp.tabulate fun state => pomdp.expectedReward state action⟩ :
          DenseAlpha K) ∈ (pomdp.resolved.backups []).flatten :=
        Pomdp.mem_backups_nil.mpr ⟨haction, rfl⟩
      obtain ⟨other, hother, hle⟩ :=
        exists_step htol hmargin (fun _ h => absurd h List.not_mem_nil) hweights hmem
      refine ⟨other, hother, le_trans (le_of_eq ?_) hle⟩
      rw [Pomdp.dot_tabulate]
      exact Pomdp.expect_congr fun state _ => Pomdp.worth_last state
  | @next action decisions children haction hchildren ih =>
      intro weights hweights
      -- after each observation some vector is as good as the subtree under the masses
      have hbest : ∀ observation ∈ pomdp.observations, ∃ f,
          pomdp.Offers (solver.gamma pomdp.resolved decisions) f ∧
            pomdp.expect (pomdp.mass weights action observation)
                (worth pomdp (children observation))
              ≤ pomdp.expect (pomdp.mass weights action observation) f := by
        intro observation hobservation
        obtain ⟨beta, hbeta, hle⟩ := ih observation hobservation
          (pomdp.mass weights action observation) (Pomdp.mass_nonneg hclamped hweights)
        obtain ⟨f, hf⟩ := gamma_tabulated decisions beta hbeta
        rw [hf, Pomdp.dot_tabulate] at hle
        exact ⟨f, ⟨beta, hbeta, hf⟩, hle⟩
      have hprior : solver.gamma pomdp.resolved decisions ≠ [] := by
        obtain ⟨observation, hobservation⟩ := Collection.exists_mem hpopulated.observations
        obtain ⟨f, ⟨beta, hbeta, -⟩, -⟩ := hbest observation hobservation
        exact List.ne_nil_of_mem hbeta
      obtain ⟨alpha, halpha, hle⟩ := exists_step_lookAhead htol hmargin hclamped hprior
        (gamma_tabulated _) hweights haction hbest
      refine ⟨alpha, halpha, le_trans (le_of_eq ?_) hle⟩
      exact Pomdp.expect_congr fun state _ => Pomdp.worth_next children state

/-- A policy with the vectors of some decisions is optimal for so many. -/
theorem value_optimal (htol : solver.envelope.program.tolerance = 0)
    (hmargin : solver.envelope.tolerance ≤ 0) (hclamped : pomdp.Clamped)
    (hpopulated : pomdp.Populated) {policy : VectorPolicy K} {epoch decisions : Nat}
    (h : policy.gamma epoch
      = .ok ((solver.gamma pomdp.resolved (decisions + 1)).map pomdp.resolved.sparse))
    {belief : Belief K} (hb : belief.Over pomdp.states) :
    ∃ best, policy.value epoch belief = .ok best ∧
      pomdp.Optimal (decisions + 1) belief best := by
  obtain ⟨best, hvalue, -, ⟨alpha, halpha, haction, hattained⟩, hgreatest⟩ :=
    value_gamma hpopulated h belief
  refine ⟨best, hvalue, ?_, fun plan hplan => ?_⟩
  · obtain ⟨plan, hplan, hroot, hvalues⟩ := gamma_plan hpopulated _ alpha halpha
    exact ⟨plan, hplan, haction ▸ hroot, hattained _ hvalues⟩
  · obtain ⟨beta, hbeta, hle⟩ := exists_gamma htol hmargin hclamped hpopulated hplan belief.get
      fun state => (hb.clamped state).1
    obtain ⟨f, hf⟩ := gamma_tabulated _ beta hbeta
    rw [hf, Pomdp.dot_tabulate] at hle
    exact le_trans hle (hgreatest f ⟨beta, hbeta, hf⟩)

/-- **Without margins the policy of a hidden process is optimal**: at every epoch of a finite span
for the decisions that are left, and over an endless span for the number of backups. -/
theorem solve_optimal (solver : EnvelopeIteration K)
    (htol : solver.envelope.program.tolerance = 0) (hmargin : solver.envelope.tolerance ≤ 0)
    (hclamped : pomdp.Clamped) (hpopulated : pomdp.Populated) :
    (0 < pomdp.horizon.epochs → ∃ policy, solver.solve pomdp = .ok policy ∧
      ∀ epoch < pomdp.horizon.epochs, ∀ belief : Belief K, belief.Over pomdp.states →
        ∃ best, policy.value epoch belief = .ok best ∧
          pomdp.Optimal (pomdp.horizon.epochs - epoch) belief best) ∧
    (pomdp.horizon.epochs = 0 → ∀ backups, ∃ policy,
      (solver.withBackups backups).solve pomdp = .ok policy ∧
      ∀ belief : Belief K, belief.Over pomdp.states →
        ∃ best, policy.value 0 belief = .ok best ∧
          pomdp.Optimal (max backups 1) belief best) := by
  constructor
  · intro _
    obtain ⟨policy, hsolve, -, hgamma, -⟩ := solve_spec solver hpopulated
    refine ⟨policy, hsolve, fun epoch hepoch belief hb => ?_⟩
    obtain ⟨left, hleft⟩ : ∃ left, pomdp.horizon.epochs - epoch = left + 1 :=
      ⟨pomdp.horizon.epochs - epoch - 1, by omega⟩
    have := hgamma epoch hepoch
    rw [hleft] at this ⊢
    exact value_optimal htol hmargin hclamped hpopulated this hb
  · intro hendless backups
    let endless : EnvelopeIteration K := solver.withBackups backups
    have htol' : endless.envelope.program.tolerance = 0 := htol
    obtain ⟨policy, hsolve, -, -, hgamma⟩ := solve_spec endless hpopulated
    refine ⟨policy, hsolve, fun belief hb => ?_⟩
    obtain ⟨before, hbefore⟩ : ∃ before, max backups 1 = before + 1 :=
      ⟨max backups 1 - 1, by omega⟩
    have := hgamma hendless
    rw [show endless.backups = max backups 1 from rfl, hbefore] at this
    rw [hbefore]
    exact value_optimal htol' hmargin hclamped hpopulated this hb

/-- Two decisions about the cups, and an endless span with three backups. -/
theorem solve_optimal_cups :
    let solver : EnvelopeIteration ℚ :=
      { backups := 1
        envelope := { tolerance := 0, program := { maxPivots := 50, tolerance := 0 } } }
    (∃ policy best, solver.solve (cups 2) = .ok policy ∧
      policy.value 0 (.uniform (cups 2).states) = .ok best ∧
      (cups 2).Optimal 2 (.uniform (cups 2).states) best) ∧
    ∃ policy best, (solver.withBackups 3).solve (cups 0) = .ok policy ∧
      policy.value 0 (.uniform (cups 0).states) = .ok best ∧
      (cups 0).Optimal 3 (.uniform (cups 0).states) best := by
  intro solver
  constructor
  · obtain ⟨policy, hsolve, hvalue⟩ :=
      (solve_optimal solver rfl (le_refl 0) (cups_clamped 2) (cups_populated 2)).1 Nat.two_pos
    obtain ⟨best, hbest⟩ := hvalue 0 Nat.two_pos _ (Belief.over_uniform _)
    exact ⟨policy, best, hsolve, hbest⟩
  · obtain ⟨policy, hsolve, hvalue⟩ :=
      (solve_optimal solver rfl (le_refl 0) (cups_clamped 0) (cups_populated 0)).2 rfl 3
    obtain ⟨best, hbest⟩ := hvalue _ (Belief.over_uniform _)
    exact ⟨policy, best, hsolve, hbest⟩

end EnvelopeIteration

end MarkovPlanning
