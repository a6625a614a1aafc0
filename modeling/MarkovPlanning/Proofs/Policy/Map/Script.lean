/-
Policy maps come back from their files.

The file of a policy map says, epoch by epoch, the pairs of names that stand in its mappings.
Each of them puts the entry back into the mapping of its epoch (`fills`), which was empty before
the first, and the entries of a mapping make it up.  What is read is therefore the policy that was
written, with the cursor at the first epoch (`read_write_eq`), whichever epochs are empty and
whatever the names are, as long as they are tokens and the collections know them.
-/
import MarkovPlanning.Proofs.Entity.Sum
import MarkovPlanning.Proofs.Policy.Map.Reader
import Mathlib

namespace MarkovPlanning.PolicyMap

variable {policy : PolicyMap} {states : Collection .state} {actions : Collection .action}

/-! ### What can be written -/

/-- An entry that comes back from a file: the collections know its names, and the names can be
told from everything else on a line. -/
structure Writable (states : Collection .state) (actions : Collection .action) (state : State)
    (action : Action) : Prop where
  find_state : states.find state.name = .ok state
  find_action : actions.find action.name = .ok action
  state_token : IsToken state.name
  action_token : IsToken action.name
  /-- This name is kept for the lines that move on to an epoch. -/
  state_horizon : state.name ≠ horizonToken

instance (state : State) (action : Action) : Decidable (Writable states actions state action) :=
  decidable_of_iff
    (states.find state.name = .ok state ∧ actions.find action.name = .ok action ∧
      IsToken state.name ∧ IsToken action.name ∧ state.name ≠ horizonToken)
    ⟨fun ⟨h₁, h₂, h₃, h₄, h₅⟩ => ⟨h₁, h₂, h₃, h₄, h₅⟩,
      fun ⟨h₁, h₂, h₃, h₄, h₅⟩ => ⟨h₁, h₂, h₃, h₄, h₅⟩⟩

/-- The tokens of an entry. -/
def entryTokens (entry : State × Action) : List String := [entry.1.name, entry.2.name]

theorem Writable.areTokens {entry : State × Action}
    (h : Writable states actions entry.1 entry.2) : AreTokens (entryTokens entry) where
  isToken := by
    intro token htoken
    rcases List.mem_cons.mp htoken with rfl | htoken
    · exact h.state_token
    · obtain rfl := List.mem_singleton.mp htoken
      exact h.action_token
  nonempty := List.cons_ne_nil _ _
  head := fun hhead => h.state_horizon (Option.some.inj hhead)

/-! ### Reading it back -/

/-- **The reader fills the mappings of the epochs with entries.** -/
theorem fills (states : Collection .state) (actions : Collection .action) (span : Span) :
    Fills (n := span.slots) (Reading.take states actions) Reading.having
      (fun mapping entry => mapping.insert entry.1 entry.2) entryTokens
      (fun entry => Writable states actions entry.1 entry.2) :=
  (slotReader states actions span).fills fun h => .mk h.find_state h.find_action

/-- **What is read from the file of a policy is the policy, at its first epoch.** -/
theorem read_write_eq (hepochs : policy.span.epochs ≤ Decimal.greatestWhole)
    (h : ∀ mapping ∈ policy.epochs.toList, ∀ entry ∈ mapping.toList,
      Writable states actions entry.1 entry.2) :
    PolicyMap.read (.ofBytes policy.write.toUTF8.data.toList) states actions policy.span
      = .ok policy.reset := by
  have hheader : Says ["# state : action"] [] := .skip ⟨by decide, by decide⟩ rfl .nil
  have hread := (fills states actions policy.span).read_slots
    (fun mapping => mapping.toList) ∅ hepochs h
    (fun mapping hmapping entry hentry => (h mapping hmapping entry hentry).areTokens)
    (fun mapping _ => EntityMap.foldl_insert_toList mapping)
    hheader
  rw [PolicyMap.read, ← bind_assoc]
  exact congrArg (fun reading => reading.map fun reading => reading.policy) hread

/-- **A policy map comes back from its file.**  The file can be read, and what is read has as many
decisions and the same answer for every epoch and state, whether that is an action or that there
is none.  The span must have no more epochs than a file can count. -/
theorem read_write_get (hepochs : policy.span.epochs ≤ Decimal.greatestWhole)
    (h : ∀ mapping ∈ policy.epochs.toList, ∀ entry ∈ mapping.toList,
      Writable states actions entry.1 entry.2) :
    ∃ loaded,
      PolicyMap.read (.ofBytes policy.write.toUTF8.data.toList) states actions policy.span
        = .ok loaded ∧
      loaded.size = policy.size ∧
      ∀ epoch state, loaded.get epoch state = policy.get epoch state :=
  ⟨policy.reset, read_write_eq hepochs h, rfl, fun _ _ => rfl⟩

/-- A policy with nothing to do in the middle, and with blanks and a carriage return in its
names. -/
def cleaning : PolicyMap :=
  let wet : State := .named .state "wet floor"
  let dry : State := .named .state "dry\rfloor"
  let mop : Action := .named .action "mop up"
  let wait : Action := .named .action "wait"
  { span := { epochs := 3 }
    epochs := #v[.ofList [(wet, mop), (dry, wait)], ∅, .ofList [(dry, mop)]]
    cursor := 2 }

/-- The floor is dry at last, and nothing is to be done about a wet one then. -/
theorem read_write_get_cleaning :
    let states := Collection.ofNames .state ["wet floor", "dry\rfloor", "horizon"]
    let actions := Collection.ofNames .action ["mop up", "wait"]
    cleaning.span.epochs ≤ Decimal.greatestWhole ∧
      (∀ mapping ∈ cleaning.epochs.toList, ∀ entry ∈ mapping.toList,
        Writable states actions entry.1 entry.2) ∧
      ∃ loaded,
        PolicyMap.read (.ofBytes cleaning.write.toUTF8.data.toList) states actions cleaning.span
          = .ok loaded ∧
        loaded.size = 3 ∧
        loaded.get 2 (.named .state "dry\rfloor") = .ok (.named .action "mop up") ∧
        loaded.get 2 (.named .state "wet floor")
          = .error (.noAction (.named .state "wet floor") 2) := by
  intro states actions
  have hepochs : cleaning.span.epochs ≤ Decimal.greatestWhole := by decide
  have hwritable : ∀ mapping ∈ cleaning.epochs.toList, ∀ entry ∈ mapping.toList,
      Writable states actions entry.1 entry.2 := by decide +kernel
  obtain ⟨loaded, hread, hsize, hget⟩ := read_write_get hepochs hwritable
  refine ⟨hepochs, hwritable, loaded, hread, ?_, ?_, ?_⟩
  · rw [hsize]
    decide +kernel
  · rw [hget]
    decide +kernel
  · rw [hget]
    decide +kernel

end MarkovPlanning.PolicyMap
