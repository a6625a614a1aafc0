/-
What the file of a policy map says.

Its lines are `state : action`, with names that the collections know, and those that move on to
one of the epochs.  The reader puts the entries of an epoch into its mapping one after the other
(`slotReader`), so what it finds there for a state is the action that was told last.
-/
import MarkovPlanning.Policy.Map.Script
import MarkovPlanning.Proofs.Policy.Reader
import Mathlib

namespace MarkovPlanning.PolicyMap

variable {span : Span} {said : List (Said (State × Action))}

/-- The tokens of an entry. -/
inductive Entry (states : Collection .state) (actions : Collection .action) :
    List String → State × Action → Prop
  | mk {first second : String} {state : State} {action : Action} :
      states.find first = .ok state → actions.find second = .ok action →
      Entry states actions [first, second] (state, action)

/-- What the file of a policy map is made of. -/
def grammar (states : Collection .state) (actions : Collection .action) (span : Span) :
    Grammar (State × Action) where
  Epoch := (· ≤ span.slots)
  Item := Entry states actions

/-- The policy that a file tells of: in every mapping, the action of a state is the last one that
was told while its epoch was in force. -/
structure Meant (span : Span) (said : List (Said (State × Action))) (policy : PolicyMap) :
    Prop where
  span_eq : policy.span = span
  cursor_eq : policy.cursor = 0
  get_eq : ∀ epoch state, policy.get epoch state =
    if epoch < span.slots then
      match lastOf (Said.about said epoch) state with
      | some action => .ok action
      | none => .error (.noAction state epoch)
    else .error (.epochOutside epoch span.slots)

/-- The reader when it has read some mappings and is at an epoch. -/
def Reading.having {span : Span} (epochs : Vector (EntityMap .state Action) span.slots)
    (epoch : Nat) : Reading where
  policy := { span, epochs }
  epoch

theorem Reading.set_having {epochs : Vector (EntityMap .state Action) span.slots} {epoch : Nat}
    (h : epoch < span.slots) (state : State) (action : Action) :
    (Reading.having epochs epoch).policy.set epoch state action
      = .ok (Reading.having (epochs.set epoch (epochs[epoch].insert state action)) epoch).policy :=
  dif_pos h

/-- **The reader puts entries into the mappings of the epochs, and takes no other lines.** -/
theorem slotReader (states : Collection .state) (actions : Collection .action) (span : Span) :
    SlotReader (n := span.slots) (Reading.take states actions) Reading.having
      (fun mapping entry => mapping.insert entry.1 entry.2) (Entry states actions) where
  move := by
    intro epochs now number line hline hnumber
    rw [Reading.take, hline]
    simp only [Reading.having, line.epoch_eq_ok hnumber]
    rfl
  beyond := by
    intro epochs now number line hline hnumber
    rw [Reading.take, hline]
    exact blames_bind _ (line.epoch_eq_error hnumber)
  item := by
    rintro epochs now line _ _ hnow hline (⟨hstate, haction⟩)
    rw [Reading.take, hline]
    simp only [line.find_eq_ok hstate, line.find_eq_ok haction]
    change (do
      let policy ← (liftM ((Reading.having epochs now).policy.set now _ _) :
        Except Error PolicyMap)
      return ({ policy, epoch := now } : Reading)) = _
    rw [Reading.set_having hnow]
    rfl
  other := by
    intro epochs now line tokens hline hentry
    rw [Reading.take, hline]
    match tokens with
    | [first, second] =>
        by_cases hstate : ∃ state, states.find first = .ok state
        · obtain ⟨state, hstate⟩ := hstate
          have haction : ∀ action, actions.find second ≠ .ok action :=
            fun action haction => hentry _ (.mk hstate haction)
          exact blames_next (line.find_eq_ok hstate) (blames_bind _ (line.find_eq_error haction))
        · exact blames_bind _ (line.find_eq_error (not_exists.mp hstate))
    | [] | [_] | _ :: _ :: _ :: _ => exact line.refuse_eq_error _

/-- A mapping after its entries were told. -/
def Mapped (entries : List (State × Action)) (mapping : EntityMap .state Action) : Prop :=
  ∀ state : State, mapping[state]? = lastOf entries state

theorem Mapped.insert {entries : List (State × Action)} {mapping : EntityMap .state Action}
    (h : Mapped entries mapping) (entry : State × Action) :
    Mapped (entries ++ [entry]) (mapping.insert entry.1 entry.2) := by
  intro state
  rw [Std.ExtTreeMap.getElem?_insert, h state, lastOf_append]
  exact if_congr (Std.LawfulEqCmp.compare_eq_iff_eq.trans eq_comm) rfl rfl

/-- A policy is meant if its mappings hold the actions that were told last. -/
theorem meant_of_mapped (policy : PolicyMap) (hcursor : policy.cursor = 0)
    (h : ∀ (epoch : Nat) (hepoch : epoch < policy.span.slots),
      Mapped (Said.about said epoch) policy.epochs[epoch]) :
    Meant policy.span said policy := by
  refine ⟨rfl, hcursor, fun epoch state => ?_⟩
  by_cases hepoch : epoch < policy.span.slots
  · have hmapping : policy.mapping epoch = .ok policy.epochs[epoch] := dif_pos hepoch
    rw [PolicyMap.get, hmapping, if_pos hepoch, ← h epoch hepoch]
    rfl
  · have hmapping : policy.mapping epoch = .error (.epochOutside epoch policy.span.slots) :=
      dif_neg hepoch
    rw [PolicyMap.get, hmapping, if_neg hepoch]
    rfl

theorem meant_of_slotsMean {reading : Reading}
    (h : SlotsMean (n := span.slots) Reading.having Mapped said reading) :
    Meant span said reading.policy := by
  obtain ⟨epochs, rfl, -, hepochs⟩ := h
  exact meant_of_mapped (Reading.having epochs (Said.inForce said)).policy rfl hepochs

/-- **The file of a policy map is taken for what it means, or refused.** -/
theorem settled (states : Collection .state) (actions : Collection .action) (span : Span)
    (lines : List String) :
    Settled (grammar states actions span) (Meant span) lines
      (PolicyMap.read (lines.map some) states actions span) := by
  have hreader := (slotReader states actions span).reader Mapped fun h => h.insert _
  have hempty : Mapped [] ∅ := fun _ => Std.ExtTreeMap.getElem?_empty
  rw [PolicyMap.read, ← bind_assoc]
  exact (hreader.settled (slotsMean_replicate span.slots_pos hempty) lines).map meant_of_slotsMean

end MarkovPlanning.PolicyMap
