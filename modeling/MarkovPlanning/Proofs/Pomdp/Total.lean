/-
Planning for a hidden process does not fail.

Nothing here looks at numbers: the tables may hold infinities and what is no number at
all, and linear programs may be answered wrongly or given up.  A backup holds at least
one vector for every action, and pruning leaves something of it, so every set of a
policy holds a vector (`exists_solve`).  The search for the best vector of a set takes
up the first one whatever its value, so there is a decision at every belief
(`exists_get`), and the tree of a policy can be unrolled to its last decision.

What the tree holds is then an induction on the observations to come: the decision
after a history is the policy's at the belief that the history leads to (`Unrolled`).
-/
import MarkovPlanning.Proofs.Pomdp.Unroll

namespace MarkovPlanning

variable {α : Type} [Scalar α]

/-! ### Decisions -/

namespace VectorPolicy

/-- The first vector is taken up whatever its value. -/
theorem exists_best? {gamma : List (AlphaVector α)} (hgamma : gamma ≠ []) (belief : Belief α) :
    ∃ best, best? gamma belief = some best := by
  obtain ⟨before, last, rfl⟩ := (List.eq_nil_or_concat' gamma).resolve_left hgamma
  exact ⟨_, best?_concat before last belief⟩

/-- Where there are vectors there is a decision. -/
theorem exists_get {policy : VectorPolicy α} (hgammas : ∀ gamma ∈ policy.gammas, gamma ≠ [])
    {epoch : Nat} (hepoch : epoch < policy.span.slots) (belief : Belief α) :
    ∃ action, policy.get epoch belief = .ok action := by
  obtain ⟨best, hbest⟩ :=
    exists_best? (hgammas policy.gammas[epoch] (Vector.getElem_mem hepoch)) belief
  exact ⟨best.2, (value_eq_of_best? (dif_pos hepoch) hbest).2⟩

end VectorPolicy

/-! ### Policies -/

namespace EnvelopeIteration

variable {solver : EnvelopeIteration α} {model : DensePomdp α} {pomdp : Pomdp α}

theorem step_ne_nil (hactions : model.actions ≠ []) (prior : List (DenseAlpha α)) :
    solver.step model prior ≠ [] :=
  Envelope.survivors_ne_nil _ (DensePomdp.backups_ne_nil hactions prior)

theorem ne_nil_of_mem_stages (hactions : model.actions ≠ []) : ∀ (decisions : Nat),
    ∀ gamma ∈ solver.stages model decisions, gamma ≠ [] := by
  intro decisions
  induction decisions with
  | zero => intro gamma h; exact absurd h (Vector.not_mem_empty gamma)
  | succ decisions ih =>
      intro gamma h
      unfold stages at h
      rcases Vector.mem_push.mp h with h | rfl
      · exact ih gamma h
      · exact step_ne_nil hactions _

/-- **A process with states, actions and observations has a policy, and every set of the policy
holds a vector.** -/
theorem exists_solve (hpopulated : pomdp.Populated) (hbackups : 0 < solver.backups) :
    ∃ policy, solver.solve pomdp = .ok policy ∧ policy.span = pomdp.horizon.toSpan ∧
      ∀ gamma ∈ policy.gammas, gamma ≠ [] := by
  unfold solve Pomdp.dense
  rw [if_neg (mt Pomdp.isEmpty_iff_not_populated.mp (not_not_intro hpopulated))]
  have hactions := Pomdp.map_denseAction_ne_nil hpopulated
  by_cases hfinite : 0 < pomdp.horizon.epochs
  · refine ⟨_, dif_pos hfinite, rfl, fun gamma hgamma => ?_⟩
    simp only [Vector.mem_cast, Vector.mem_map, Vector.mem_reverse] at hgamma
    obtain ⟨dense, hdense, rfl⟩ := hgamma
    exact mt List.map_eq_nil_iff.mp (ne_nil_of_mem_stages hactions _ dense hdense)
  · refine ⟨_, dif_neg hfinite, rfl, fun gamma hgamma => ?_⟩
    rw [(Vector.mem_replicate.mp hgamma).2]
    obtain ⟨before, hbefore⟩ : ∃ before, solver.backups = before + 1 :=
      ⟨solver.backups - 1, by omega⟩
    rw [hbefore]
    exact mt List.map_eq_nil_iff.mp (step_ne_nil hactions _)

/-- Without states, actions or observations there is nothing to plan for. -/
theorem solve_error (hempty : ¬ pomdp.Populated) :
    solver.solve pomdp = .error
      (.emptyPomdp pomdp.states.size pomdp.actions.size pomdp.observations.size) := by
  unfold solve Pomdp.dense
  rw [if_pos (Pomdp.isEmpty_iff_not_populated.mpr hempty)]
  rfl

end EnvelopeIteration

/-! ### Trees -/

namespace Pomdp

variable {pomdp : Pomdp α} {policy : VectorPolicy α}

/-- The belief that a history of observations leads to if the actions are those of a policy, from
an epoch on.  An observation that cannot be made leaves the belief as it is. -/
def beliefAfter (pomdp : Pomdp α) (policy : VectorPolicy α) :
    (epoch : Nat) → Belief α → (history : List Observation) → Except PolicyFault (Belief α)
  | _, belief, [] => .ok belief
  | epoch, belief, observation :: history => do
    let action ← policy.get epoch belief
    beliefAfter pomdp policy (epoch + 1) (pomdp.updateOrKeep belief action observation) history

/-- A tree that makes the decisions of a policy from an epoch on, for `depth` more observations. -/
structure Unrolled (pomdp : Pomdp α) (policy : VectorPolicy α) (depth epoch : Nat)
    (belief : Belief α) (tree : DecisionNode) : Prop where
  size : tree.size = ∑ i ∈ Finset.range (depth + 1), pomdp.observations.size ^ i
  decides : ∀ history, (∀ observation ∈ history, observation ∈ pomdp.observations) →
    history.length ≤ depth → ∃ after action node,
      pomdp.beliefAfter policy epoch belief history = .ok after ∧
      policy.get (epoch + history.length) after = .ok action ∧
      tree.descend? history = some node ∧ node.action? = some action

/-- The last decision. -/
theorem unrolled_last {epoch : Nat} {belief : Belief α} {action : Action}
    (hget : policy.get epoch belief = .ok action) :
    pomdp.Unrolled policy 0 epoch belief (.node (some action) []) where
  size := rfl
  decides := by
    intro history _ hlength
    obtain rfl := List.length_eq_zero_iff.mp (Nat.le_zero.mp hlength)
    exact ⟨belief, action, _, rfl, hget, rfl, rfl⟩

/-- A decision that others follow. -/
theorem unrolled_next {depth epoch : Nat} {belief : Belief α} {action : Action}
    {children : Observation → DecisionNode} (hget : policy.get epoch belief = .ok action)
    (hchildren : ∀ observation ∈ pomdp.observations, pomdp.Unrolled policy depth (epoch + 1)
      (pomdp.updateOrKeep belief action observation) (children observation)) :
    pomdp.Unrolled policy (depth + 1) epoch belief (.node (some action)
      (pomdp.observations.toList.map fun observation => (observation, children observation)))
    where
  size := by
    rw [DecisionNode.size, DecisionNode.sizes_map fun observation hobservation =>
      (hchildren observation (Std.ExtTreeSet.mem_toList.mp hobservation)).size,
      Std.ExtTreeSet.length_toList, Finset.mul_sum, Finset.sum_range_succ' _ (depth + 1),
      pow_zero, add_comm]
    simp only [pow_succ']
  decides := by
    intro history hmem hlength
    cases history with
    | nil => exact ⟨belief, action, _, rfl, hget, rfl, rfl⟩
    | cons observation history =>
        have hobservation := hmem observation List.mem_cons_self
        obtain ⟨after, next, node, hafter, hnext, hnode, haction⟩ :=
          (hchildren observation hobservation).decides history
            (fun other hother => hmem other (List.mem_cons_of_mem _ hother))
            (Nat.le_of_succ_le_succ hlength)
        refine ⟨after, next, node, ?_, ?_, ?_, haction⟩
        · rw [beliefAfter, hget]
          exact hafter
        · rw [List.length_cons, ← hnext]
          congr 1
          omega
        · rw [DecisionNode.descend?_map _ (Std.ExtTreeSet.mem_toList.mpr hobservation)]
          exact hnode

/-- The tree of a policy makes the decisions of the policy. -/
theorem Unrolls.unrolled {depth epoch : Nat} {belief : Belief α} {tree : DecisionNode}
    (h : pomdp.Unrolls policy depth epoch belief tree) :
    pomdp.Unrolled policy depth epoch belief tree := by
  induction h with
  | last hget => exact unrolled_last hget
  | next hget _ ih => exact unrolled_next hget ih

/-- A policy with a decision at every epoch and belief has a tree. -/
theorem exists_unrolls (hget : ∀ epoch < policy.span.slots, ∀ belief,
      ∃ action, policy.get epoch belief = .ok action) :
    ∀ (depth epoch : Nat), epoch + depth < policy.span.slots → ∀ belief : Belief α,
      ∃ tree, pomdp.Unrolls policy depth epoch belief tree := by
  intro depth
  induction depth with
  | zero =>
      intro epoch hepoch belief
      obtain ⟨action, haction⟩ := hget epoch hepoch belief
      exact ⟨_, .last haction⟩
  | succ depth ih =>
      intro epoch hepoch belief
      obtain ⟨action, haction⟩ := hget epoch (by omega) belief
      have hsubtrees := fun observation =>
        ih (epoch + 1) (by omega) (pomdp.updateOrKeep belief action observation)
      choose children hunrolls using hsubtrees
      exact ⟨_, .next haction fun observation _ => hunrolls observation⟩

/-- **Over a finite span the tree of a policy makes its decisions**: there is a node for every
history that is short enough, with the decision at the belief that the history leads to. -/
theorem exists_unroll (hgammas : ∀ gamma ∈ policy.gammas, gamma ≠ [])
    (hfinite : 0 < policy.span.epochs) (belief : Belief α) :
    ∃ tree, pomdp.unroll policy belief = .ok tree ∧
      tree.size = ∑ i ∈ Finset.range policy.span.epochs, pomdp.observations.size ^ i ∧
      ∀ history, (∀ observation ∈ history, observation ∈ pomdp.observations) →
        history.length < policy.span.epochs → ∃ after action,
          pomdp.beliefAfter policy 0 belief history = .ok after ∧
          policy.get history.length after = .ok action ∧ tree.get history = .ok action := by
  obtain ⟨depth, hdepth⟩ : ∃ depth, policy.span.epochs = depth + 1 :=
    ⟨policy.span.epochs - 1, by omega⟩
  have hslots : 0 + depth < policy.span.slots := by
    simp only [Span.slots, hdepth]
    omega
  have hget : ∀ epoch < policy.span.slots, ∀ belief,
      ∃ action, policy.get epoch belief = .ok action :=
    fun epoch => VectorPolicy.exists_get hgammas
  obtain ⟨root, hunrolls⟩ : ∃ root, pomdp.Unrolls policy depth 0 belief root :=
    exists_unrolls hget depth 0 hslots belief
  have hunrolled := hunrolls.unrolled
  refine ⟨_, unroll_eq_ok hdepth hunrolls, ?_, fun history hmem hlength => ?_⟩
  · rw [hdepth]
    exact hunrolled.size
  · obtain ⟨after, action, node, hafter, hget, hnode, haction⟩ :=
      hunrolled.decides history hmem (by omega)
    rw [Nat.zero_add] at hget
    refine ⟨after, action, hafter, hget, ?_⟩
    unfold PolicyTree.get
    dsimp only
    rw [hnode]
    dsimp only
    rw [haction]

end Pomdp

namespace EnvelopeIteration

/-- **Solving fails only if there is nothing to plan for.**  Otherwise every epoch has a vector,
and over a finite span the policy can be unrolled from any belief. -/
theorem solve_unroll (solver : EnvelopeIteration α) (backups : Nat) (pomdp : Pomdp α) :
    ((∃ fault, (solver.withBackups backups).solve pomdp = .error fault) ↔
      pomdp.states = ∅ ∨ pomdp.actions = ∅ ∨ pomdp.observations = ∅) ∧
    ∀ policy, (solver.withBackups backups).solve pomdp = .ok policy →
      (∀ epoch < pomdp.horizon.slots, ∃ gamma, policy.gamma epoch = .ok gamma ∧ gamma ≠ []) ∧
      (0 < pomdp.horizon.epochs → ∀ belief, ∃ tree, pomdp.unroll policy belief = .ok tree ∧
        tree.size = ∑ i ∈ Finset.range pomdp.horizon.epochs, pomdp.observations.size ^ i ∧
        ∀ history, (∀ observation ∈ history, observation ∈ pomdp.observations) →
          history.length < pomdp.horizon.epochs → ∃ after action,
            pomdp.beliefAfter policy 0 belief history = .ok after ∧
            policy.get history.length after = .ok action ∧ tree.get history = .ok action) := by
  by_cases hpopulated : pomdp.Populated
  · have hbackups : 0 < (solver.withBackups backups).backups :=
      Nat.lt_of_lt_of_le Nat.one_pos (Nat.le_max_right backups 1)
    obtain ⟨policy, hsolve, hspan, hgammas⟩ := exists_solve hpopulated hbackups
    rw [← Pomdp.not_populated_iff, hsolve]
    refine ⟨⟨fun h => (nomatch h), fun h => absurd hpopulated h⟩, fun policy' h => ?_⟩
    obtain rfl := Except.ok.inj h
    rw [← hspan]
    refine ⟨fun epoch hepoch => ?_, Pomdp.exists_unroll hgammas⟩
    exact ⟨policy.gammas[epoch], dif_pos hepoch, hgammas _ (Vector.getElem_mem hepoch)⟩
  · rw [← Pomdp.not_populated_iff, solve_error hpopulated]
    exact ⟨⟨fun _ => hpopulated, fun _ => ⟨_, rfl⟩⟩, fun policy h => (nomatch h)⟩

/-! ### A process that can not be calculated with

A radio receives noise, which is worth more than any number, and music, the worth of which is no
number at all.
-/

def radio (epochs : Nat) : Pomdp Float :=
  let tuned : State := .named .state "tuned"
  let listen : Action := .named .action "listen"
  let noise : Observation := .named .observation "noise"
  let music : Observation := .named .observation "music"
  { states := .ofList [tuned, .named .state "astray"]
    actions := .ofList [.named .action "turn", listen]
    observations := .ofList [noise, music]
    transitions := TransitionTable.set {} none none (some tuned) 1
    observationChances := ObservationTable.set (ObservationTable.set {}
      none none (some noise) 0.5) none none (some music) 0.5
    rewards := RewardTable.insert (RewardTable.insert {}
      (.cons none (.cons (some listen) (.cons none (.cons (some noise) .nil)))) (1 / 0))
      (.cons none (.cons (some listen) (.cons none (.cons (some music) .nil)))) (0 / 0)
    horizon := .finite epochs }

/-- Three decisions at the radio, and none without it being anywhere. -/
theorem solve_unroll_radio :
    let solver : EnvelopeIteration Float := .standard
    (∃ fault, (solver.withBackups 1).solve { radio 3 with states := ∅ } = .error fault) ∧
    ∃ policy, (solver.withBackups 1).solve (radio 3) = .ok policy ∧
      (∃ gamma, policy.gamma 2 = .ok gamma ∧ gamma ≠ []) ∧
      ∃ tree, (radio 3).unroll policy (.uniform (radio 3).states) = .ok tree ∧
        tree.size = ∑ i ∈ Finset.range 3, (radio 3).observations.size ^ i := by
  intro solver
  refine ⟨(solve_unroll solver 1 _).1.mpr (.inl rfl), ?_⟩
  obtain ⟨hfails, hpolicy⟩ := solve_unroll solver 1 (radio 3)
  cases hsolve : (solver.withBackups 1).solve (radio 3) with
  | error fault =>
      have hempty := hfails.mp ⟨fault, hsolve⟩
      simp [radio, Collection.ofList] at hempty
  | ok policy =>
      obtain ⟨hgammas, htree⟩ := hpolicy policy hsolve
      obtain ⟨tree, hunroll, hsize, -⟩ := htree (Nat.succ_pos 2) (.uniform (radio 3).states)
      exact ⟨policy, rfl, hgammas 2 (by decide), tree, hunroll, hsize⟩

end EnvelopeIteration

end MarkovPlanning
