/-
Processes put together in another order.

A collection is laid out in one way, whatever order its members came in, and writes under
different patterns leave the same table in either order.  So a process does not show the order in
which it was described (`MdpDescription.Reordered.alike`, `PomdpDescription.Reordered.alike`), but
for the range of its rewards, into which they were joined as they came.  No planner looks at the
range, so all of them find the same, step by step and rounding included.
-/
import MarkovPlanning.Mdp.Description
import MarkovPlanning.Mdp.PolicyIteration
import MarkovPlanning.Mdp.ValueIteration
import MarkovPlanning.Pomdp.Description
import MarkovPlanning.Pomdp.ValueIteration
import MarkovPlanning.Proofs.Entity.Changes
import MarkovPlanning.Proofs.Table.History
import Mathlib

namespace MarkovPlanning

variable {kind : Kind} {kinds : List Kind} {α β : Type}

/-! ### Entities and tables -/

/-- **A collection is that of its members, in whatever order they were added.** -/
theorem Buckets.ofList_congr {entities entities' : List (Entity kind)}
    (h : ∀ entity, entity ∈ entities ↔ entity ∈ entities') :
    ofList entities = ofList entities' := by
  have hmembers : entities.toFinset = entities'.toFinset := by
    ext entity
    rw [List.mem_toFinset, List.mem_toFinset, h]
  exact (hmembers ▸ holds_ofList entities).unique (holds_ofList entities')

/-- The same writes in another order, no two of them under one pattern. -/
structure SameWrites (writes writes' : List (Pattern kinds × α)) : Prop where
  perm : writes.Perm writes'
  once : (writes.map Prod.fst).Nodup

/-- Something is done to every value before it is written. -/
theorem SameWrites.map {writes writes' : List (Pattern kinds × α)} (h : SameWrites writes writes')
    (f : α → β) :
    SameWrites (writes.map fun write => (write.1, f write.2))
      (writes'.map fun write => (write.1, f write.2)) where
  perm := h.perm.map _
  once := by
    rw [List.map_map]
    exact h.once

namespace Table

/-- Tables that hold the same are the same. -/
theorem ext_stored? {table table' : Table kinds α}
    (h : ∀ pattern, table.stored? pattern = table'.stored? pattern) : table = table' :=
  congrArg Table.mk (Std.ExtTreeMap.ext_getElem? fun pattern => h pattern)

theorem insert_comm (table : Table kinds α) {pattern other : Pattern kinds} (h : pattern ≠ other)
    (value value' : α) :
    (table.insert pattern value).insert other value'
      = (table.insert other value').insert pattern value := by
  refine ext_stored? fun found => ?_
  simp only [stored?_insert]
  split_ifs with hother hpattern
  · exact absurd (hpattern.trans hother.symm) h
  all_goals rfl

/-- **The order of writes under different patterns leaves no trace in a table.** -/
theorem ofList_congr {writes writes' : List (Pattern kinds × α)} (h : SameWrites writes writes') :
    ofList writes = ofList writes' := by
  refine h.perm.foldl_eq' (fun first hfirst second hsecond table => ?_) ({} : Table kinds α)
  by_cases hpattern : first.1 = second.1
  · rw [List.inj_on_of_nodup_map h.once hfirst hsecond hpattern]
  · exact table.insert_comm hpattern _ _

end Table

variable [Scalar α]

theorem ProbabilityTable.table_ofList (writes : List (Pattern kinds × α)) :
    (ofList writes).table
      = Table.ofList (writes.map fun write => (write.1, Scalar.clamp01 write.2)) := by
  rw [Table.ofList, List.foldl_map]
  exact (List.foldl_hom ProbabilityTable.table (fun _ _ => rfl)).symm

theorem ProbabilityTable.ofList_congr {writes writes' : List (Pattern kinds × α)}
    (h : SameWrites writes writes') : ofList writes = ofList writes' := by
  have htable : (ofList writes).table = (ofList writes').table := by
    rw [table_ofList, table_ofList, Table.ofList_congr (h.map Scalar.clamp01)]
  exact congrArg ProbabilityTable.mk htable

theorem RewardTable.table_ofList (writes : List (Pattern kinds × α)) :
    (ofList writes).table = Table.ofList writes :=
  (List.foldl_hom RewardTable.table (fun _ _ => rfl)).symm

/-- The rewards are the same; their range need not be. -/
theorem RewardTable.ofList_congr {writes writes' : List (Pattern kinds × α)}
    (h : SameWrites writes writes') : (ofList writes).table = (ofList writes').table := by
  rw [table_ofList, table_ofList, Table.ofList_congr h]

/-! ### Decision processes -/

/-- Decision processes that differ at most in the range of the rewards. -/
structure Mdp.Alike (mdp mdp' : Mdp α) : Prop where
  states : mdp.states = mdp'.states
  actions : mdp.actions = mdp'.actions
  transitions : mdp.transitions = mdp'.transitions
  rewards : mdp.rewards.table = mdp'.rewards.table
  horizon : mdp.horizon = mdp'.horizon

namespace Mdp.Alike

variable {mdp mdp' : Mdp α}

theorem valueIteration (h : mdp.Alike mdp') (solver : ValueIteration α) :
    solver.solve mdp = solver.solve mdp' := by
  obtain ⟨states, actions, transitions, ⟨table, bounds⟩, horizon⟩ := mdp
  obtain ⟨states', actions', transitions', ⟨table', bounds'⟩, horizon'⟩ := mdp'
  obtain ⟨rfl, rfl, rfl, rfl, rfl⟩ := h
  rfl

theorem policyIteration (h : mdp.Alike mdp') (solver : PolicyIteration α) :
    solver.solve mdp = solver.solve mdp' := by
  obtain ⟨states, actions, transitions, ⟨table, bounds⟩, horizon⟩ := mdp
  obtain ⟨states', actions', transitions', ⟨table', bounds'⟩, horizon'⟩ := mdp'
  obtain ⟨rfl, rfl, rfl, rfl, rfl⟩ := h
  rfl

end Mdp.Alike

/-- The same rewards written in another order. -/
inductive RewardWrites.Reordered : RewardWrites α → RewardWrites α → Prop
  | ofActions {writes writes' : List (Pattern [.state, .action] × α)} :
      SameWrites writes writes' → Reordered (.ofActions writes) (.ofActions writes')
  | ofTransitions {writes writes' : List (Pattern [.state, .action, .state] × α)} :
      SameWrites writes writes' → Reordered (.ofTransitions writes) (.ofTransitions writes')

theorem RewardWrites.Reordered.table_eq {rewards rewards' : RewardWrites α}
    (h : rewards.Reordered rewards') : rewards.table.table = rewards'.table.table := by
  cases h with
  | ofActions h =>
      show (RewardTable.ofList _).table.widen .state = (RewardTable.ofList _).table.widen .state
      rw [RewardTable.ofList_congr h]
  | ofTransitions h => exact RewardTable.ofList_congr h

/-- The same decision process described in another order. -/
structure MdpDescription.Reordered (description description' : MdpDescription α) : Prop where
  states : ∀ state, state ∈ description.states ↔ state ∈ description'.states
  actions : ∀ action, action ∈ description.actions ↔ action ∈ description'.actions
  transitions : SameWrites description.transitions description'.transitions
  rewards : description.rewards.Reordered description'.rewards
  horizon : description.horizon = description'.horizon

theorem MdpDescription.Reordered.alike {description description' : MdpDescription α}
    (h : description.Reordered description') : description.mdp.Alike description'.mdp where
  states := congrArg Buckets.collection (Buckets.ofList_congr h.states)
  actions := congrArg Buckets.collection (Buckets.ofList_congr h.actions)
  transitions := ProbabilityTable.ofList_congr h.transitions
  rewards := h.rewards.table_eq
  horizon := h.horizon

/-! ### Hidden processes -/

/-- Hidden processes that differ at most in the range of the rewards. -/
structure Pomdp.Alike (pomdp pomdp' : Pomdp α) : Prop where
  states : pomdp.states = pomdp'.states
  actions : pomdp.actions = pomdp'.actions
  observations : pomdp.observations = pomdp'.observations
  transitions : pomdp.transitions = pomdp'.transitions
  observationChances : pomdp.observationChances = pomdp'.observationChances
  rewards : pomdp.rewards.table = pomdp'.rewards.table
  horizon : pomdp.horizon = pomdp'.horizon

theorem Pomdp.Alike.envelopeIteration {pomdp pomdp' : Pomdp α} (h : pomdp.Alike pomdp')
    (solver : EnvelopeIteration α) : solver.solve pomdp = solver.solve pomdp' := by
  obtain ⟨states, actions, observations, transitions, chances, ⟨table, bounds⟩, horizon⟩ := pomdp
  obtain ⟨states', actions', observations', transitions', chances', ⟨table', bounds'⟩, horizon'⟩ :=
    pomdp'
  obtain ⟨rfl, rfl, rfl, rfl, rfl, rfl, rfl⟩ := h
  rfl

/-- The same hidden process described in another order. -/
structure PomdpDescription.Reordered (description description' : PomdpDescription α) : Prop where
  states : ∀ state, state ∈ description.states ↔ state ∈ description'.states
  actions : ∀ action, action ∈ description.actions ↔ action ∈ description'.actions
  observations : ∀ observation,
    observation ∈ description.observations ↔ observation ∈ description'.observations
  transitions : SameWrites description.transitions description'.transitions
  observationChances : SameWrites description.observationChances description'.observationChances
  rewards : SameWrites description.rewards description'.rewards
  horizon : description.horizon = description'.horizon

theorem PomdpDescription.Reordered.alike {description description' : PomdpDescription α}
    (h : description.Reordered description') : description.pomdp.Alike description'.pomdp where
  states := congrArg Buckets.collection (Buckets.ofList_congr h.states)
  actions := congrArg Buckets.collection (Buckets.ofList_congr h.actions)
  observations := congrArg Buckets.collection (Buckets.ofList_congr h.observations)
  transitions := ProbabilityTable.ofList_congr h.transitions
  observationChances := ProbabilityTable.ofList_congr h.observationChances
  rewards := RewardTable.ofList_congr h.rewards
  horizon := h.horizon

/-! ### Planners -/

/-- **Every planner finds the same, in whatever order a process was described.**  The policies,
values, counts and faults are the same in any arithmetic, rounding included. -/
theorem solve_reordered :
    (∀ description description' : MdpDescription α, description.Reordered description' →
      (∀ solver : ValueIteration α,
        solver.solve description.mdp = solver.solve description'.mdp) ∧
      ∀ solver : PolicyIteration α,
        solver.solve description.mdp = solver.solve description'.mdp) ∧
    ∀ description description' : PomdpDescription α, description.Reordered description' →
      ∀ solver : EnvelopeIteration α,
        solver.solve description.pomdp = solver.solve description'.pomdp :=
  ⟨fun _ _ h => ⟨h.alike.valueIteration, h.alike.policyIteration⟩,
    fun _ _ h => h.alike.envelopeIteration⟩

/-- Two states whose names share a hash, and two rules for one way between them. -/
def twins : MdpDescription Float where
  states := [.named .state "Aa", .named .state "BB"]
  actions := [.named .action "stay", .named .action "move"]
  transitions := [
    (.cons (some (.named .state "Aa")) (.cons none (.cons none .nil)), 0.25),
    (.cons none (.cons none (.cons (some (.named .state "BB")) .nil)), 0.75)]
  rewards := .ofActions [
    (.cons (some (.named .state "Aa")) (.cons none .nil), 0.1),
    (.cons none (.cons (some (.named .action "move")) .nil), 0.2)]
  horizon := .infinite 0.9

/-- The same states, of which it is only seen whether it is bright. -/
def hiddenTwins : PomdpDescription Float where
  states := twins.states
  actions := twins.actions
  observations := [.named .observation "bright", .named .observation "dark"]
  transitions := twins.transitions
  observationChances := [
    (.cons none (.cons none (.cons (some (.named .observation "bright")) .nil)), 0.5),
    (.cons none (.cons none (.cons (some (.named .observation "dark")) .nil)), 0.5)]
  rewards := [
    (.cons none (.cons none (.cons none (.cons none .nil))), 0.1),
    (.cons none (.cons (some (.named .action "move")) (.cons none (.cons none .nil))), 0.2)]
  horizon := .finite 3

/-- Everything the other way round. -/
theorem solve_reordered_twins :
    let twins' : MdpDescription Float := {
      twins with
      states := [.named .state "BB", .named .state "Aa", .named .state "BB"]
      transitions := twins.transitions.reverse }
    let hiddenTwins' : PomdpDescription Float := {
      hiddenTwins with
      states := twins'.states
      observationChances := hiddenTwins.observationChances.reverse
      rewards := hiddenTwins.rewards.reverse }
    ValueIteration.standard.solve twins.mdp = ValueIteration.standard.solve twins'.mdp ∧
      (PolicyIteration.standard .exact).solve twins.mdp
        = (PolicyIteration.standard .exact).solve twins'.mdp ∧
      EnvelopeIteration.standard.solve hiddenTwins.pomdp
        = EnvelopeIteration.standard.solve hiddenTwins'.pomdp := by
  intro twins' hiddenTwins'
  have hstates (state : State) : state ∈ twins.states ↔ state ∈ twins'.states := by
    simp only [twins, twins', List.mem_cons, List.not_mem_nil, or_false]
    tauto
  have hreverse {kinds : List Kind} {writes : List (Pattern kinds × Float)}
      (h : (writes.map Prod.fst).Nodup) : SameWrites writes writes.reverse :=
    ⟨(List.reverse_perm writes).symm, h⟩
  have hsame {kinds : List Kind} {writes : List (Pattern kinds × Float)}
      (h : (writes.map Prod.fst).Nodup) : SameWrites writes writes := ⟨.refl writes, h⟩
  have htwins : twins.Reordered twins' := {
    states := hstates
    actions := fun _ => Iff.rfl
    transitions := hreverse (by decide +kernel)
    rewards := .ofActions (hsame (by decide +kernel))
    horizon := rfl }
  have hhidden : hiddenTwins.Reordered hiddenTwins' := {
    states := hstates
    actions := fun _ => Iff.rfl
    observations := fun _ => Iff.rfl
    transitions := hsame (by decide +kernel)
    observationChances := hreverse (by decide +kernel)
    rewards := hreverse (by decide +kernel)
    horizon := rfl }
  exact ⟨(solve_reordered.1 _ _ htwins).1 _, (solve_reordered.1 _ _ htwins).2 _,
    solve_reordered.2 _ _ hhidden _⟩

end MarkovPlanning
