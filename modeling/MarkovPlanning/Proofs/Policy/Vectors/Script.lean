/-
Vector policies come back from their files.

The line of a vector gives its action and then, in pairs, its states and their coefficients, in
the order of the states.  The pairs are told by their tokens, and the vector with these
coefficients is the one that was written.  The vectors of an epoch are added one after the other
to a set that was empty, so they come back in their order.  What is read is the policy that was
written, with the cursor at the first epoch (`read_write_eq`).

Besides names that are tokens and known to the collections, this takes coefficients that are
legible: numerals that are tokens and are read as what they were written for.  Every double is
legible, so a policy over doubles comes back as it was (`read_write_gamma`).
-/
import MarkovPlanning.Proofs.Decimal.Numeral
import MarkovPlanning.Proofs.Entity.Sum
import MarkovPlanning.Proofs.Policy.Vectors.Reader
import Mathlib

namespace MarkovPlanning.VectorPolicy

variable {α : Type} [Numeral α] {policy : VectorPolicy α} {alpha : AlphaVector α}
  {states : Collection .state} {actions : Collection .action}

/-! ### What can be written -/

/-- A value that comes back from its numeral. -/
structure Legible (value : α) : Prop where
  token : IsToken (Numeral.write value)
  read : Numeral.read? (Numeral.write value) = some value

/-- A vector whose names come back from a file: the collections know them, and they can be told
from everything else on a line. -/
structure Writable (states : Collection .state) (actions : Collection .action)
    (alpha : AlphaVector α) : Prop where
  find_action : actions.find alpha.action.name = .ok alpha.action
  action_token : IsToken alpha.action.name
  /-- This name is kept for the lines that move on to an epoch. -/
  action_horizon : alpha.action.name ≠ horizonToken
  find_state : ∀ entry ∈ alpha.toList, states.find entry.1.name = .ok entry.1
  state_token : ∀ entry ∈ alpha.toList, IsToken entry.1.name

instance : Decidable (Writable states actions alpha) :=
  decidable_of_iff
    (actions.find alpha.action.name = .ok alpha.action ∧ IsToken alpha.action.name ∧
      alpha.action.name ≠ horizonToken ∧
      (∀ entry ∈ alpha.values.toList, states.find entry.1.name = .ok entry.1) ∧
      ∀ entry ∈ alpha.values.toList, IsToken entry.1.name)
    ⟨fun ⟨h₁, h₂, h₃, h₄, h₅⟩ => ⟨h₁, h₂, h₃, h₄, h₅⟩,
      fun ⟨h₁, h₂, h₃, h₄, h₅⟩ => ⟨h₁, h₂, h₃, h₄, h₅⟩⟩

/-- The tokens of states and their coefficients. -/
def pairTokens (pairs : List (State × α)) : List String :=
  pairs.flatMap fun pair => [pair.1.name, Numeral.write pair.2]

/-- The tokens of a vector. -/
def vectorTokens (alpha : AlphaVector α) : List String :=
  alpha.action.name :: pairTokens alpha.toList

/-- A vector that comes back from its line. -/
structure Told (states : Collection .state) (actions : Collection .action)
    (alpha : AlphaVector α) : Prop where
  writable : Writable states actions alpha
  legible : ∀ entry ∈ alpha.toList, Legible entry.2

theorem Told.areTokens (h : Told states actions alpha) : AreTokens (vectorTokens alpha) where
  isToken := by
    intro token htoken
    rcases List.mem_cons.mp htoken with rfl | htoken
    · exact h.writable.action_token
    · obtain ⟨entry, hentry, htoken⟩ := List.mem_flatMap.mp htoken
      rcases List.mem_cons.mp htoken with rfl | htoken
      · exact h.writable.state_token entry hentry
      · obtain rfl := List.mem_singleton.mp htoken
        exact (h.legible entry hentry).token
  nonempty := List.cons_ne_nil _ _
  head := fun hhead => h.writable.action_horizon (Option.some.inj hhead)

/-! ### Reading it back -/

/-- Pairs of states and coefficients are told by their tokens. -/
theorem pairs_pairTokens {pairs : List (State × α)}
    (hfind : ∀ pair ∈ pairs, states.find pair.1.name = .ok pair.1)
    (hvalues : ∀ pair ∈ pairs, Legible pair.2) :
    Pairs states (pairTokens pairs) pairs := by
  induction pairs with
  | nil => exact .nil
  | cons pair pairs ih =>
      have hpairs := ih (fun later hlater => hfind later (List.mem_cons_of_mem _ hlater))
        fun later hlater => hvalues later (List.mem_cons_of_mem _ hlater)
      exact .cons (hfind pair List.mem_cons_self) (hvalues pair List.mem_cons_self).read hpairs

/-- **A vector is told by its tokens.** -/
theorem Told.entry (h : Told states actions alpha) :
    Entry states actions (vectorTokens alpha) (alpha.action, alpha.toList) :=
  .mk h.writable.find_action (pairs_pairTokens h.writable.find_state h.legible)

omit [Numeral α] in
/-- Setting the coefficients of a vector one after the other gives the vector. -/
theorem ofList_toList (alpha : AlphaVector α) :
    AlphaVector.ofList alpha.action alpha.toList = alpha := by
  have hfold (pairs : List (State × α)) (start : AlphaVector α) :
      pairs.foldl (fun alpha value => alpha.set value.1 value.2) start
        = { start with values :=
              pairs.foldl (fun values pair => values.insert pair.1 pair.2) start.values } := by
    induction pairs generalizing start with
    | nil => rfl
    | cons pair pairs ih => rw [List.foldl_cons, ih, List.foldl_cons, AlphaVector.set]
  rw [AlphaVector.ofList, hfold, AlphaVector.toList, EntityMap.foldl_insert_toList]

/-- **The reader fills the sets of the epochs with vectors.** -/
theorem fills (states : Collection .state) (actions : Collection .action) (span : Span) :
    Fills (n := span.slots) (Reading.take (α := α) states actions) Reading.having
      (fun gamma alpha => gamma ++ [alpha]) vectorTokens (Told states actions) where
  move hepoch hline := (slotReader states actions span).move hline hepoch
  item := by
    intro gammas epoch line alpha hepoch halpha hline
    rw [(slotReader states actions span).item hepoch hline halpha.entry, ofList_toList]

/-- **What is read from the file of a policy is the policy, at its first epoch.** -/
theorem read_write_eq (hepochs : policy.span.epochs ≤ Decimal.greatestWhole)
    (h : ∀ gamma ∈ policy.gammas.toList, ∀ alpha ∈ gamma, Told states actions alpha) :
    VectorPolicy.read (.ofBytes policy.write.toUTF8.data.toList) states actions policy.span
      = .ok policy.reset := by
  have hheader : Says ["# action : state : value : ..."] [] :=
    .skip ⟨by decide, by decide⟩ rfl .nil
  have hread := (fills states actions policy.span).read_slots id [] hepochs h
    (fun gamma hgamma alpha halpha => (h gamma hgamma alpha halpha).areTokens)
    (fun gamma _ => by
      rw [List.foldl_append_eq_append, ← List.flatMap_def, List.flatMap_singleton']
      rfl)
    hheader
  rw [VectorPolicy.read, ← bind_assoc]
  exact congrArg (fun reading => reading.map fun reading => reading.policy) hread

/-! ### Doubles -/

theorem legible (x : Float) : Legible x where
  token := Decimal.isToken_write x
  read := Decimal.read?_write x

/-- **A vector policy comes back from its file.**  The file can be read, and what is read has, for
every epoch, the same vectors in the same order: the same actions, and the same coefficients, bit
for bit, for the same states.  The span must have no more epochs than a file can count. -/
theorem read_write_gamma {policy : VectorPolicy Float}
    (hepochs : policy.span.epochs ≤ Decimal.greatestWhole)
    (h : ∀ gamma ∈ policy.gammas.toList, ∀ alpha ∈ gamma, Writable states actions alpha) :
    ∃ loaded,
      VectorPolicy.read (.ofBytes policy.write.toUTF8.data.toList) states actions policy.span
        = .ok loaded ∧
      ∀ epoch, loaded.gamma epoch = policy.gamma epoch :=
  ⟨policy.reset,
    read_write_eq hepochs fun gamma hgamma alpha halpha =>
      ⟨h gamma hgamma alpha halpha, fun entry _ => legible entry.2⟩,
    fun _ => rfl⟩

/-- A vector with the values that are easily lost on the way. -/
def extremes : AlphaVector Float :=
  .ofList (.named .action "mop up")
    [(.named .state "wet floor", 1 / 0), (.named .state "dry\rfloor", -0),
      (.named .state "no floor", 0 / 0), (.named .state "any floor", 0.1)]

/-- A policy with no vectors in the middle, and with an action alone. -/
def mopping : VectorPolicy Float where
  span := { epochs := 3 }
  gammas := #v[[extremes, { action := .named .action "wait" }], [], [extremes]]
  cursor := 1

/-- The vectors come back in their order, the action alone among them. -/
theorem read_write_gamma_mopping :
    let states := Collection.ofNames .state ["wet floor", "dry\rfloor", "no floor", "any floor"]
    let actions := Collection.ofNames .action ["mop up", "wait", "horizon"]
    mopping.span.epochs ≤ Decimal.greatestWhole ∧
      (∀ gamma ∈ mopping.gammas.toList, ∀ alpha ∈ gamma, Writable states actions alpha) ∧
      ∃ loaded,
        VectorPolicy.read (.ofBytes mopping.write.toUTF8.data.toList) states actions mopping.span
          = .ok loaded ∧
        loaded.gamma 0 = .ok [extremes, { action := .named .action "wait" }] ∧
        loaded.gamma 1 = .ok [] ∧
        loaded.gamma 3 = .error (.epochOutside 3 3) := by
  intro states actions
  have hepochs : mopping.span.epochs ≤ Decimal.greatestWhole := by decide
  have hwritable : ∀ gamma ∈ mopping.gammas.toList, ∀ alpha ∈ gamma,
      Writable states actions alpha := by decide +kernel
  obtain ⟨loaded, hread, hgamma⟩ := read_write_gamma hepochs hwritable
  refine ⟨hepochs, hwritable, loaded, hread, ?_, ?_, ?_⟩
  · rw [hgamma]
    rfl
  · rw [hgamma]
    rfl
  · rw [hgamma]
    rfl

end MarkovPlanning.VectorPolicy
