/-
A process and its numbered form.

A planner works on numbered states and actions, with the chances that are not zero listed
once.  `DenseMdp.Models` says what ties them to a process: every state and every action has
a number, states have only one, and a decision is worth the same by number as by the tables
of the process.  Resolving a process gives such a model (`dense_models`), because a chance that
is left out is zero.  Nothing that is proved about a planner has to look further than that.

What a planner hands out is keyed by the states again.  Values and choices are looked up
there as they were found (`valueOf_get`, `choiceOf_get`).
-/
import MarkovPlanning.Mdp.Stationary
import MarkovPlanning.Proofs.Fold
import MarkovPlanning.Proofs.Mdp.Worth
import Mathlib

namespace MarkovPlanning

/-! ### Numbered members -/

namespace Collection

variable {kind : Kind} {β : Type}

theorem get_toVector_mem (entities : Collection kind) (i : Fin entities.size) :
    entities.toVector.get i ∈ entities :=
  Std.ExtTreeSet.mem_toList.mp (List.getElem_mem _)

theorem exists_get_toVector {entities : Collection kind} {entity : Entity kind}
    (h : entity ∈ entities) : ∃ i, entities.toVector.get i = entity := by
  obtain ⟨i, hi, heq⟩ := List.getElem_of_mem (Std.ExtTreeSet.mem_toList.mpr h)
  exact ⟨⟨i, by rwa [Std.ExtTreeSet.length_toList] at hi⟩, heq⟩

theorem get_toVector_injective (entities : Collection kind) :
    Function.Injective entities.toVector.get := by
  intro i j h
  exact Fin.ext ((nodup_toList entities).getElem_inj_iff.mp h)

theorem mem_iff_exists_get {entities : Collection kind} {entity : Entity kind} :
    entity ∈ entities ↔ ∃ i, entities.toVector.get i = entity := by
  refine ⟨exists_get_toVector, ?_⟩
  rintro ⟨i, rfl⟩
  exact entities.get_toVector_mem i

/-- A sum over the numbers of the members is the sum over the members. -/
theorem sum_get_toVector [AddCommMonoid β] (entities : Collection kind) (f : Entity kind → β) :
    ∑ i, f (entities.toVector.get i) = ∑ entity ∈ entities.members, f entity := by
  refine Finset.sum_bij (fun i _ => entities.toVector.get i)
    (fun i _ => mem_members.mpr (entities.get_toVector_mem i))
    (fun i _ j _ h => entities.get_toVector_injective h) (fun entity hentity => ?_)
    (fun i _ => rfl)
  obtain ⟨i, hi⟩ := exists_get_toVector (mem_members.mp hentity)
  exact ⟨i, Finset.mem_univ i, hi⟩

end Collection

/-- What is written under different numbered keys is found there. -/
theorem EntityMap.getElem?_ofList_finRange {kind : Kind} {β : Type} {n : Nat}
    {keys : Fin n → Entity kind} (h : Function.Injective keys) (f : Fin n → β) (i : Fin n) :
    (Std.ExtTreeMap.ofList ((List.finRange n).map fun i => (keys i, f i)) :
      EntityMap kind β)[keys i]? = some (f i) := by
  refine Std.ExtTreeMap.getElem?_ofList_of_mem Std.ReflCmp.compare_self ?_
    (List.mem_map.mpr ⟨i, List.mem_finRange i, rfl⟩)
  rw [List.pairwise_map]
  refine (List.nodup_finRange n).imp fun hne heq => hne ?_
  exact h (Std.LawfulEqCmp.eq_of_compare heq)

/-- What is written under numbered keys is found under these keys only. -/
theorem EntityMap.mem_ofList_finRange {kind : Kind} {β : Type} {n : Nat}
    {keys : Fin n → Entity kind} {f : Fin n → β} {entity : Entity kind} :
    entity ∈ (Std.ExtTreeMap.ofList ((List.finRange n).map fun i => (keys i, f i)) :
      EntityMap kind β) ↔ ∃ i, keys i = entity := by
  rw [Std.ExtTreeMap.mem_ofList, List.contains_iff_mem, List.map_map, List.mem_map]
  simp

namespace DenseMdp

/-! ### What is handed out -/

section
variable {α : Type} [Scalar α] {n m : Nat}

/-- The values that are handed out, zero for a state that is not in the process. -/
def valueOf (model : DenseMdp α n m) (values : Vector α n) (state : State) : α :=
  (model.valueMap values).getD state 0

/-- The choice that is handed out. -/
def choiceOf (model : DenseMdp α n m) (choice : Vector (Fin m) n) (state : State) : Action :=
  (model.mapping choice).getD state default

theorem value_solution (model : DenseMdp α n m) (span : Span) (found : Stationary α n m)
    (state : State) : (found.solution model span).value state = model.valueOf found.values state :=
  rfl

/-- Values are looked up as they were found, as states have only one number. -/
theorem valueOf_get {model : DenseMdp α n m} (h : Function.Injective model.states.get)
    (values : Vector α n) (state : Fin n) :
    model.valueOf values (model.states.get state) = values.get state := by
  unfold valueOf
  rw [Std.ExtTreeMap.getD_eq_getD_getElem?, valueMap, EntityMap.getElem?_ofList_finRange h,
    Option.getD_some]

end

variable {K : Type} [Field K] [LinearOrder K] {n m : Nat} {model : DenseMdp K n m} {mdp : Mdp K}

/-- What ties numbered states and actions to a process. -/
structure Models (model : DenseMdp K n m) (mdp : Mdp K) : Prop where
  state_mem : ∀ state, model.states.get state ∈ mdp.states
  exists_state : ∀ state ∈ mdp.states, ∃ number, model.states.get number = state
  states_injective : Function.Injective model.states.get
  action_mem : ∀ action, model.actions.get action ∈ mdp.actions
  exists_action : ∀ action ∈ mdp.actions, ∃ number, model.actions.get number = action
  discount : model.discount = mdp.horizon.discount
  /-- A decision is worth the same by number. -/
  actionValue : ∀ (values : State → K) (numbered : Vector K n),
    (∀ state, numbered.get state = values (model.states.get state)) → ∀ state action,
      model.actionValue numbered state action
        = mdp.worth values (model.states.get state) (model.actions.get action)

namespace Models

variable (h : model.Models mdp)
include h

theorem valueOf_get (values : Vector K n) (state : Fin n) :
    model.valueOf values (model.states.get state) = values.get state :=
  DenseMdp.valueOf_get h.states_injective values state

theorem mapping_get (choice : Vector (Fin m) n) (state : Fin n) :
    (model.mapping choice)[model.states.get state]? = some (model.actions.get (choice.get state)) :=
  EntityMap.getElem?_ofList_finRange h.states_injective _ state

theorem choiceOf_get (choice : Vector (Fin m) n) (state : Fin n) :
    model.choiceOf choice (model.states.get state) = model.actions.get (choice.get state) := by
  unfold choiceOf
  rw [Std.ExtTreeMap.getD_eq_getD_getElem?, h.mapping_get, Option.getD_some]

/-- The policy of a stationary solution is the choice. -/
theorem get_solution (span : Span) (found : Stationary K n m) {state : State}
    (hstate : state ∈ mdp.states) :
    (found.solution model span).policy.get 0 state
      = .ok (model.choiceOf found.choice state) := by
  obtain ⟨number, rfl⟩ := h.exists_state state hstate
  unfold PolicyMap.get PolicyMap.mapping Stationary.solution
  rw [dif_pos span.slots_pos]
  simp only [bind, Except.bind, Vector.getElem_replicate, h.mapping_get, h.choiceOf_get]

/-- The values that are handed out make a decision worth what it is by number. -/
theorem actionValue_eq (values : Vector K n) (state : Fin n) (action : Fin m) :
    model.actionValue values state action
      = mdp.worth (model.valueOf values) (model.states.get state) (model.actions.get action) :=
  h.actionValue _ _ (fun state => (h.valueOf_get values state).symm) state action

/-- Values that are the same everywhere. -/
theorem actionValue_replicate (value : K) (state : Fin n) (action : Fin m) :
    model.actionValue (Vector.replicate n value) state action
      = mdp.worth (fun _ => value) (model.states.get state) (model.actions.get action) :=
  h.actionValue _ _ (fun _ => Vector.getElem_replicate _) state action

/-- What holds of all numbers holds of all states. -/
theorem forall_state {p : State → Prop} :
    (∀ state ∈ mdp.states, p state) ↔ ∀ number, p (model.states.get number) := by
  constructor
  · exact fun hall number => hall _ (h.state_mem number)
  · intro hall state hstate
    obtain ⟨number, rfl⟩ := h.exists_state state hstate
    exact hall number

end Models

/-! ### Backups -/

/-- What is known of the best action when some have been gone through. -/
private structure Leads (model : DenseMdp K n m) (values : Vector K n) (state : Fin n) (done : Nat)
    (best : Option (Backup K m)) : Prop where
  own : ∀ backup ∈ best, backup.value = model.actionValue values state backup.action
  greatest : ∀ action : Fin m, action.val < done →
    ∃ backup ∈ best, model.actionValue values state action ≤ backup.value

private theorem Leads.improve {values : Vector K n} {state : Fin n} {action : Fin m}
    {best : Option (Backup K m)} (h : model.Leads values state action best) :
    model.Leads values state (action + 1)
      (Backup.improve best (model.actionValue values state action) action) := by
  have hnew : model.Leads values state action best →
      (∀ backup ∈ best, backup.value ≤ model.actionValue values state action) →
      model.Leads values state (action + 1)
        (some ⟨model.actionValue values state action, action⟩) := by
    intro h hle
    refine ⟨fun backup hbackup => ?_, fun other hother => ⟨_, rfl, ?_⟩⟩
    · cases hbackup
      rfl
    · rcases Nat.lt_or_eq_of_le (Nat.le_of_lt_succ hother) with hlt | heq
      · obtain ⟨backup, hbackup, hother⟩ := h.greatest other hlt
        exact hother.trans (hle backup hbackup)
      · rw [Fin.ext heq]
  cases best with
  | none => exact hnew h fun _ hmem => nomatch hmem
  | some backup =>
      by_cases hlt : backup.value < model.actionValue values state action
      · rw [Backup.improve, if_pos hlt]
        exact hnew h fun other hother => by
          cases hother
          exact hlt.le
      · rw [Backup.improve, if_neg hlt]
        refine ⟨h.own, fun other hother => ?_⟩
        rcases Nat.lt_or_eq_of_le (Nat.le_of_lt_succ hother) with hbefore | heq
        · exact h.greatest other hbefore
        · exact ⟨backup, rfl, by rw [Fin.ext heq]; exact not_lt.mp hlt⟩

/-- **The value of a backup is that of its action, and no action has a greater one.** -/
theorem backup_spec (model : DenseMdp K n m) (values : Vector K n) (state : Fin n) :
    (model.backup values state).value
        = model.actionValue values state (model.backup values state).action ∧
      ∀ action, model.actionValue values state action ≤ (model.backup values state).value := by
  have hwalk : model.Leads values state m ((List.finRange m).foldl
      (fun best action => Backup.improve best (model.actionValue values state action) action)
      none) :=
    foldl_finRange (model.Leads values state)
      ⟨fun _ hmem => (nomatch hmem), fun _ hlt => absurd hlt (Nat.not_lt_zero _)⟩
      fun _ _ h => h.improve
  unfold backup
  generalize (List.finRange m).foldl
    (fun best action => Backup.improve best (model.actionValue values state action) action) none
    = best at hwalk ⊢
  obtain ⟨backup, hbackup, -⟩ := hwalk.greatest model.firstAction model.actions_pos
  cases hbackup
  refine ⟨hwalk.own backup rfl, fun action => ?_⟩
  obtain ⟨other, hother, hle⟩ := hwalk.greatest action action.isLt
  cases hother
  exact hle

end DenseMdp

/-! ### Resolving a process -/

theorem Collection.size_pos {kind : Kind} {entities : Collection kind} (h : entities ≠ ∅) :
    0 < entities.size := by
  obtain ⟨entity, hentity⟩ := exists_mem h
  obtain ⟨i, -⟩ := exists_get_toVector hentity
  exact i.pos

variable {K : Type} [Field K] [LinearOrder K]

/-- Transitions of chance zero may as well be listed. -/
private theorem foldl_transitions {n : Nat} {chance : Fin n → K} (h : ∀ next, 0 ≤ chance next)
    (reward : Fin n → K) (worth : Transition K n → K) :
    ((List.finRange n).filterMap fun next =>
        if 0 < chance next then some (⟨next, chance next, reward next⟩ : Transition K n)
        else none).foldl (fun value transition =>
          value + transition.probability * worth transition) 0
      = ∑ next, chance next * worth ⟨next, chance next, reward next⟩ := by
  rw [List.foldl_filterMap, List.foldl_ext _
    (fun value next => value + chance next * worth ⟨next, chance next, reward next⟩) 0
    fun value next _ => ?_]
  · rw [Scalar.foldl_add_eq, zero_add, ← List.sum_toFinset _ (List.nodup_finRange n),
      List.toFinset_finRange]
  · by_cases hpos : 0 < chance next
    · rw [if_pos hpos]
    · rw [if_neg hpos, le_antisymm (not_lt.mp hpos) (h next), zero_mul, add_zero]

/-- **A process with a state and an action resolves to a model of itself.** -/
theorem Mdp.dense_models [IsStrictOrderedRing K] {mdp : Mdp K} (hclamped : mdp.Clamped)
    (hstates : mdp.states ≠ ∅) (hactions : mdp.actions ≠ ∅) :
    ∃ model, mdp.dense = .ok model ∧ model.Models mdp := by
  refine ⟨_, dif_pos ⟨Collection.size_pos hstates, Collection.size_pos hactions⟩,
    mdp.states.get_toVector_mem, fun _ => Collection.exists_get_toVector,
    mdp.states.get_toVector_injective, mdp.actions.get_toVector_mem,
    fun _ => Collection.exists_get_toVector, rfl, fun values numbered hvalues state action => ?_⟩
  unfold DenseMdp.actionValue worth
  rw [Vector.get_map, Vector.get_map, foldl_transitions fun next => hclamped.chance_nonneg _ _ _,
    ← Collection.sum_get_toVector]
  refine Finset.sum_congr rfl fun next _ => ?_
  rw [hvalues next]

end MarkovPlanning
