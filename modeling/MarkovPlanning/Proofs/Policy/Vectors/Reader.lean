/-
What the file of a vector policy says.

Its lines are an action, and after it states and their values, in pairs, and those that move on
to one of the epochs.  A line is a vector, in which a state has the value that the line gives it
last.  The reader adds the vectors of an epoch to its set one after the other (`slotReader`), so
they stand there in the order of the file, even if the file comes back to an epoch.
-/
import MarkovPlanning.Policy.Vectors.Script
import MarkovPlanning.Proofs.Policy.Reader
import Mathlib

namespace MarkovPlanning.VectorPolicy

variable {α : Type} {states : Collection .state} {actions : Collection .action} {span : Span}
  {said : List (Said (Action × List (State × α)))} {tokens : List String}
  {pairs : List (State × α)}

/-- The vector that a line tells of. -/
structure Tells (item : Action × List (State × α)) (alpha : AlphaVector α) : Prop where
  action_eq : alpha.action = item.1
  values_eq : ∀ state : State, alpha.values[state]? = lastOf item.2 state

/-- The policy that a file tells of: in every set, the vectors of the lines that were told while
its epoch was in force, in their order. -/
structure Meant (span : Span) (said : List (Said (Action × List (State × α))))
    (policy : VectorPolicy α) : Prop where
  span_eq : policy.span = span
  cursor_eq : policy.cursor = 0
  gamma_eq : ∀ epoch, epoch < span.slots →
    ∃ gamma, policy.gamma epoch = .ok gamma ∧ List.Forall₂ Tells (Said.about said epoch) gamma
  gamma_beyond : ∀ epoch, span.slots ≤ epoch →
    policy.gamma epoch = .error (.epochOutside epoch span.slots)

/-- The reader when it has read some vectors and is at an epoch. -/
def Reading.having {span : Span} (gammas : Vector (List (AlphaVector α)) span.slots)
    (epoch : Nat) : Reading α where
  policy := { span, gammas }
  epoch

theorem Reading.gamma_having {gammas : Vector (List (AlphaVector α)) span.slots} {epoch : Nat}
    (now : Nat) (h : epoch < span.slots) :
    (Reading.having gammas now).policy.gamma epoch = .ok gammas[epoch] :=
  dif_pos h

theorem Reading.set_having {gammas : Vector (List (AlphaVector α)) span.slots} {epoch : Nat}
    (h : epoch < span.slots) (gamma : List (AlphaVector α)) :
    (Reading.having gammas epoch).policy.set epoch gamma
      = .ok (Reading.having (gammas.set epoch gamma) epoch).policy :=
  dif_pos h

/-- A policy is meant if its sets hold the vectors that were told. -/
theorem meant_of_tells (policy : VectorPolicy α) (hcursor : policy.cursor = 0)
    (h : ∀ (epoch : Nat) (hepoch : epoch < policy.span.slots),
      List.Forall₂ Tells (Said.about said epoch) policy.gammas[epoch]) :
    Meant policy.span said policy where
  span_eq := rfl
  cursor_eq := hcursor
  gamma_eq epoch hepoch := ⟨policy.gammas[epoch], dif_pos hepoch, h epoch hepoch⟩
  gamma_beyond epoch hepoch := dif_neg (Nat.not_lt.mpr hepoch)

theorem meant_of_slotsMean {reading : Reading α}
    (h : SlotsMean (n := span.slots) Reading.having (List.Forall₂ Tells) said reading) :
    Meant span said reading.policy := by
  obtain ⟨gammas, rfl, -, hgammas⟩ := h
  exact meant_of_tells (Reading.having gammas (Said.inForce said)).policy rfl hgammas

/-- A vector is what its line tells. -/
theorem tells_ofList (action : Action) (pairs : List (State × α)) :
    Tells (action, pairs) (.ofList action pairs) := by
  unfold AlphaVector.ofList
  induction pairs using List.reverseRecOn with
  | nil => exact ⟨rfl, fun state => Std.ExtTreeMap.getElem?_empty⟩
  | append_singleton pairs pair ih =>
      rw [List.foldl_append]
      refine ⟨ih.action_eq, fun state => ?_⟩
      rw [lastOf_append, ← ih.values_eq]
      exact Std.ExtTreeMap.getElem?_insert.trans
        (if_congr (Std.LawfulEqCmp.compare_eq_iff_eq.trans eq_comm) rfl rfl)

variable [Numeral α]

/-! ### Vectors -/

/-- Tokens for states and their values. -/
inductive Pairs (states : Collection .state) : List String → List (State × α) → Prop
  | nil : Pairs states [] []
  | cons {first second : String} {tokens : List String} {state : State} {value : α}
      {pairs : List (State × α)} :
      states.find first = .ok state → Numeral.read? second = some value →
      Pairs states tokens pairs → Pairs states (first :: second :: tokens) ((state, value) :: pairs)

/-- The tokens of a vector. -/
inductive Entry (states : Collection .state) (actions : Collection .action) :
    List String → Action × List (State × α) → Prop
  | mk {first : String} {tokens : List String} {action : Action} {pairs : List (State × α)} :
      actions.find first = .ok action → Pairs states tokens pairs →
      Entry states actions (first :: tokens) (action, pairs)

/-- What the file of a vector policy is made of. -/
def grammar (states : Collection .state) (actions : Collection .action) (span : Span) :
    Grammar (Action × List (State × α)) where
  Epoch := (· ≤ span.slots)
  Item := Entry states actions

theorem Pairs.even (h : Pairs states tokens pairs) : tokens.length % 2 = 0 := by
  induction h with
  | nil => rfl
  | cons _ _ _ ih =>
      rw [List.length_cons, List.length_cons]
      omega

theorem Pairs.readPairs_eq (h : Pairs states tokens pairs) (line : Line) :
    readPairs line states tokens = .ok pairs := by
  induction h with
  | nil => rfl
  | cons hstate hvalue _ ih =>
      rw [readPairs, line.find_eq_ok hstate]
      simp only [hvalue, ih]
      rfl

theorem readPairs_eq_error (line : Line) : ∀ {tokens : List String},
    (∀ pairs : List (State × α), ¬Pairs states tokens pairs) →
    ∃ error, readPairs (α := α) line states tokens = .error error ∧ error.Blames line.number
  | [], h => absurd .nil (h [])
  | [_], _ => line.refuse_eq_error _
  | first :: second :: rest, h => by
      rw [readPairs]
      by_cases hstate : ∃ state, states.find first = .ok state
      · obtain ⟨state, hstate⟩ := hstate
        refine blames_next (line.find_eq_ok hstate) ?_
        cases hvalue : Numeral.read? (α := α) second with
        | none => exact line.refuse_eq_error _
        | some value =>
            have hrest : ∀ pairs : List (State × α), ¬Pairs states rest pairs :=
              fun pairs hpairs => h _ (.cons hstate hvalue hpairs)
            exact blames_bind _ (readPairs_eq_error line hrest)
      · exact blames_bind _ (line.find_eq_error (not_exists.mp hstate))

/-- **The vector of a line is read.** -/
theorem Entry.readVector_eq {item : Action × List (State × α)}
    (h : Entry states actions tokens item) (line : Line) :
    readVector line states actions tokens = .ok (.ofList item.1 item.2) := by
  cases h with
  | mk haction hpairs =>
      rw [readVector, if_pos hpairs.even, line.find_eq_ok haction]
      simp only [hpairs.readPairs_eq line]
      rfl

theorem readVector_eq_error (h : ∀ item, ¬Entry (α := α) states actions tokens item)
    (line : Line) :
    ∃ error, readVector (α := α) line states actions tokens = .error error ∧
      error.Blames line.number := by
  match tokens with
  | [] => exact line.refuse_eq_error _
  | first :: rest =>
      rw [readVector]
      by_cases heven : rest.length % 2 = 0
      · rw [if_pos heven]
        by_cases haction : ∃ action, actions.find first = .ok action
        · obtain ⟨action, haction⟩ := haction
          have hrest : ∀ pairs : List (State × α), ¬Pairs states rest pairs :=
            fun pairs hpairs => h _ (.mk haction hpairs)
          exact blames_next (line.find_eq_ok haction)
            (blames_bind _ (readPairs_eq_error line hrest))
        · exact blames_bind _ (line.find_eq_error (not_exists.mp haction))
      · rw [if_neg heven]
        exact line.refuse_eq_error _

/-! ### Policies -/

/-- **The reader adds vectors to the sets of the epochs, and takes no other lines.** -/
theorem slotReader (states : Collection .state) (actions : Collection .action) (span : Span) :
    SlotReader (n := span.slots) (Reading.take (α := α) states actions) Reading.having
      (fun gamma item => gamma ++ [AlphaVector.ofList item.1 item.2]) (Entry states actions) where
  move := by
    intro gammas now number line hline hnumber
    rw [Reading.take, hline]
    simp only [Reading.having, line.epoch_eq_ok hnumber]
    rfl
  beyond := by
    intro gammas now number line hline hnumber
    rw [Reading.take, hline]
    exact blames_bind _ (line.epoch_eq_error hnumber)
  item := by
    intro gammas now line tokens item hnow hline hitem
    rw [Reading.take, hline]
    simp only [hitem.readVector_eq line]
    change (do
      let gamma ← (liftM ((Reading.having gammas now).policy.gamma now) :
        Except Error (List (AlphaVector α)))
      let policy ← (liftM ((Reading.having gammas now).policy.set now
        (gamma ++ [AlphaVector.ofList item.1 item.2])) : Except Error (VectorPolicy α))
      return ({ policy, epoch := now } : Reading α)) = _
    rw [Reading.gamma_having now hnow]
    change (do
      let policy ← (liftM ((Reading.having gammas now).policy.set now
        (gammas[now] ++ [AlphaVector.ofList item.1 item.2])) : Except Error (VectorPolicy α))
      return ({ policy, epoch := now } : Reading α)) = _
    rw [Reading.set_having hnow]
    rfl
  other := by
    intro gammas now line tokens hline hentry
    rw [Reading.take, hline]
    exact blames_bind _ (readVector_eq_error hentry line)

/-- **The file of a vector policy is taken for what it means, or refused.** -/
theorem settled (states : Collection .state) (actions : Collection .action) (span : Span)
    (lines : List String) :
    Settled (grammar (α := α) states actions span) (Meant span) lines
      (VectorPolicy.read (lines.map some) states actions span) := by
  have hreader := (slotReader states actions span).reader (List.Forall₂ (Tells (α := α)))
    fun h => List.rel_append h (.cons (tells_ofList _ _) .nil)
  rw [VectorPolicy.read, ← bind_assoc]
  exact (hreader.settled (slotsMean_replicate span.slots_pos .nil) lines).map meant_of_slotsMean

end MarkovPlanning.VectorPolicy
