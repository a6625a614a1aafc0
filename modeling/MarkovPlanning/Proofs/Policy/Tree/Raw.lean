/-
Policy trees with any names.

A line of a tree may have any number of tokens, so there must be no colons in the names.  The
first action stands on a line by itself, which is not seen if the action is blank, and a line of
one observation and its action may say the horizon.  If it does not, and no other observation or
action is found under the names (`Unmistakable`), the line can say the decision and nothing else.

A tree may be loaded over more observations than it was made for.  It then has a place for more
histories, but gives the actions that were saved and no others (`get_eq_ok_of_read`), and over
the same observations it is the tree that was saved (`eq_reset_of_read`).
-/
import MarkovPlanning.Proofs.Policy.Raw
import MarkovPlanning.Proofs.Policy.Tree.Script
import Mathlib

namespace MarkovPlanning.PolicyTree

open DecisionNode

variable {observations members : Collection .observation} {actions : Collection .action}
  {horizon : Nat} {tree loaded : PolicyTree}

/-- A decision that cannot be mistaken for anything else: its names neither end its line nor start
a comment, there are no colons in them, and nothing else is found under them.  The first action is
not blank, and one after an observation is not read as the horizon. -/
structure Unmistakable (observations : Collection .observation) (actions : Collection .action)
    (horizon : Nat) (decision : List Observation × Action) : Prop where
  unmarked : ∀ name ∈ decisionTokens decision, Unmarked name
  colon : ∀ name ∈ decisionTokens decision, ':' ∉ name.toList
  find_observation : ∀ observation ∈ decision.1, ∀ other,
    observations.find (bareName observation.name) = .ok other → other = observation
  find_action : ∀ other, actions.find (bareName decision.2.name) = .ok other →
    other = decision.2
  alone : decision.1 = [] → bareName decision.2.name ≠ ""
  again : ∀ observation, decision.1 = [observation] → bareName observation.name = horizonToken →
    ¬Decimal.Counts (bareName decision.2.name) horizon

/-- The decisions of a tree that comes back from a file cannot be mistaken. -/
theorem Writable.unmistakable (h : Writable observations actions tree)
    (hshaped : Shaped observations horizon tree) {history : List Observation} {action : Action}
    (hget : tree.get history = .ok action) :
    Unmistakable observations actions horizon (history, action) := by
  have htokens : AreTokens (decisionTokens (history, action)) := h.areTokens hshaped hget
  have htoken := htokens.isToken
  have hmem := (hshaped.within_of_get hget).2
  exact {
    unmarked := fun name hname => (htoken name hname).unmarked
    colon := fun name hname => (htoken name hname).colon
    find_observation := fun observation hobservation _ => Collection.eq_of_find_bareName
      (h.observation_token observation (hmem observation hobservation))
      (h.find_observation observation (hmem observation hobservation))
    find_action := fun _ =>
      Collection.eq_of_find_bareName (h.action_token hget) (h.find_action hget)
    alone := fun _ hblank =>
      (h.action_token hget).nonempty ((h.action_token hget).bareName_eq.symm.trans hblank)
    again := by
      rintro observation rfl hname
      have hobservation := hmem observation List.mem_cons_self
      rw [(h.observation_token observation hobservation).bareName_eq] at hname
      exact absurd hname (h.observation_horizon observation hobservation) }

/-- If nothing else is found under the names of a history, it is what they tell. -/
theorem eq_of_forall₂_find {history found : List Observation}
    (h : List.Forall₂ (fun name observation => observations.find name = .ok observation)
      (history.map fun observation => bareName observation.name) found)
    (hfind : ∀ observation ∈ history, ∀ other,
      observations.find (bareName observation.name) = .ok other → other = observation) :
    found = history := by
  induction history generalizing found with
  | nil =>
      cases h
      rfl
  | cons observation history ih =>
      cases h with
      | cons hfirst hrest =>
          rw [hfind observation List.mem_cons_self _ hfirst,
            ih hrest fun later hlater => hfind later (List.mem_cons_of_mem _ hlater)]

/-- **The line of a decision can say nothing but the decision.** -/
theorem Unmistakable.only {decision : List Observation × Action}
    (h : Unmistakable observations actions horizon decision) :
    Only (grammar observations actions horizon) (writeTokens (decisionTokens decision))
      (.item decision) := by
  obtain ⟨history, action⟩ := decision
  have hmark : ∀ name ∈ decisionTokens (history, action), '#' ∉ name.toList :=
    fun name hname => (h.unmarked name hname).comment
  have hne : decisionTokens (history, action) ≠ [] := by simp [decisionTokens]
  have htokens : (decisionTokens (history, action)).map bareName
      = (history.map fun observation => bareName observation.name) ++ [bareName action.name] := by
    simp [decisionTokens]
  refine ⟨fun hnone => ?_, fun record said hrecord hadmits => ?_⟩
  · obtain ⟨name, hname, hblank⟩ := hnone.blank_of_none hne hmark
    rw [hname, List.map_singleton, hblank] at htokens
    obtain ⟨hhistory, haction⟩ := List.append_eq_singleton_iff.mp htokens.symm |>.resolve_right
      (by simp)
    exact h.alone (List.map_eq_nil_iff.mp hhistory) (by simpa using haction)
  · rcases hrecord.of_writeTokens hne hmark h.colon with
      rfl | ⟨token, number, rfl, hnumber, -, heq⟩
    · cases hadmits with
      | item hitem =>
          generalize hlist : (decisionTokens (history, action)).map bareName = list at hitem
          cases hitem with
          | mk _ hfound haction =>
              obtain ⟨rfl, hlast⟩ := List.append_inj' (hlist.symm.trans htokens) rfl
              obtain rfl := List.singleton_inj.mp hlast
              rw [eq_of_forall₂_find hfound h.find_observation, h.find_action _ haction]
    · cases hadmits with
      | epoch hepoch =>
          obtain rfl : number = horizon := hepoch
          have hboth : (history.map fun observation => bareName observation.name)
              ++ [bareName action.name] = [horizonToken] ++ [token] := htokens.symm.trans heq
          obtain ⟨hhistory, hlast⟩ := List.append_inj' hboth rfl
          obtain ⟨observation, rfl, hfirst⟩ := List.map_eq_singleton_iff.mp hhistory
          obtain rfl := List.singleton_inj.mp hlast
          exact absurd hnumber (h.again observation rfl hfirst)

/-- What is loaded from the file of a tree without mistakable decisions. -/
theorem grown_of_read (h : Shaped members horizon tree)
    (hdecisions : ∀ {history action}, tree.get history = .ok action →
      Unmistakable observations actions horizon (history, action))
    (hread : PolicyTree.read (.ofBytes tree.write.toUTF8.data.toList) actions observations horizon
      = .ok loaded) : Grown observations horizon tree.written loaded := by
  obtain rfl := h.horizon_eq
  have hget : ∀ decision ∈ tree.root.decisions [],
      Unmistakable observations actions tree.horizon decision := fun decision hdecision =>
    hdecisions (h.get_eq_ok.mpr (h.mem_decisions.mp hdecision))
  have hsettled := settled_grown observations actions h.pos (Text.textLines tree.write)
  rw [Source.ofBytes, Text.byteLines_toUTF8] at hread
  rw [hread] at hsettled
  refine hsettled.means_of_only (Record.ofLine_eq_ok_iff.mp rfl)
    (List.forall_mem_cons.mpr ⟨by decide, List.forall_mem_cons.mpr
      ⟨(Record.oneLine_horizonLine tree.horizon).feed, ?_⟩⟩)
    (.cons (only_horizonLine _ tree.horizon) ?_)
  · intro line hline
    obtain ⟨decision, hdecision, rfl⟩ := List.mem_map.mp hline
    exact notMem_writeTokens (by decide) (by decide) fun name hname =>
      ((hget decision hdecision).unmarked name hname).feed
  · rw [List.forall₂_map_left_iff, List.forall₂_map_right_iff, List.forall₂_same]
    exact fun decision hdecision => (hget decision hdecision).only

/-- **What is loaded gives the actions that were saved.** -/
theorem get_eq_ok_of_read (h : Built members horizon tree)
    (hdecisions : ∀ {history action}, tree.get history = .ok action →
      Unmistakable observations actions horizon (history, action))
    (hread : PolicyTree.read (.ofBytes tree.write.toUTF8.data.toList) actions observations horizon
      = .ok loaded) (history : List Observation) (action : Action) :
    loaded.get history = .ok action ↔ tree.get history = .ok action := by
  have hgrown := grown_of_read h.shaped hdecisions hread
  rw [hgrown.shaped.get_eq_ok, h.shaped.get_eq_ok, hgrown.decision_eq, h.shaped.lastOf_written]

/-- **What is loaded over the same observations is the tree that was saved.** -/
theorem eq_reset_of_read (h : Built observations horizon tree)
    (hdecisions : ∀ {history action}, tree.get history = .ok action →
      Unmistakable observations actions horizon (history, action))
    (hread : PolicyTree.read (.ofBytes tree.write.toUTF8.data.toList) actions observations horizon
      = .ok loaded) : loaded = tree.reset :=
  (grown_of_read h.shaped hdecisions hread).eq_reset h.shaped

end MarkovPlanning.PolicyTree
