/-
Policy trees come back from their files.

The file of a policy tree lists the histories that have an action, each with the action after
it.  They are the decisions of the tree and no history is listed with two actions
(`DecisionNode.Full.mem_decisions`), so the last action that the file tells for a history is the
one in the tree.  A tree has one shape for its observations and its horizon, whichever of its
nodes are set, so what is read is the tree that was written, at its root (`read_write_eq`).
-/
import MarkovPlanning.Proofs.Policy.Tree.Reader
import Mathlib

namespace MarkovPlanning.PolicyTree

open DecisionNode

variable {observations : Collection .observation} {actions : Collection .action} {horizon : Nat}
  {tree tree' : PolicyTree}

/-- A tree whose names come back from a file: the collections know them, and they can be told from
everything else on a line. -/
structure Writable (observations : Collection .observation) (actions : Collection .action)
    (tree : PolicyTree) : Prop where
  find_observation : ∀ observation ∈ observations,
    observations.find observation.name = .ok observation
  observation_token : ∀ observation ∈ observations, IsToken observation.name
  /-- This name is kept for the line that says the horizon. -/
  observation_horizon : ∀ observation ∈ observations, observation.name ≠ horizonToken
  find_action : ∀ {history action}, tree.get history = .ok action →
    actions.find action.name = .ok action
  action_token : ∀ {history action}, tree.get history = .ok action → IsToken action.name
  /-- The action of the root comes first on its line. -/
  root_horizon : ∀ {action}, tree.get [] = .ok action → action.name ≠ horizonToken

/-- Trees with one shape are the same at their roots if they give the same actions. -/
theorem Shaped.reset_eq (h : Shaped observations horizon tree)
    (h' : Shaped observations horizon tree')
    (heq : ∀ history, tree.root.decision? history = tree'.root.decision? history) :
    tree.reset = tree'.reset := by
  have hroot : tree.root = tree'.root := h.full.ext h'.full heq
  have hhorizon : tree.horizon = tree'.horizon := h.horizon_eq.trans h'.horizon_eq.symm
  rw [reset, reset, hroot, hhorizon]

/-- The decisions that are listed for a tree. -/
theorem Shaped.mem_decisions (h : Shaped observations horizon tree) {history : List Observation}
    {action : Action} :
    (history, action) ∈ tree.root.decisions [] ↔ tree.root.decision? history = some action := by
  rw [h.full.mem_decisions]
  simp

/-- What is said by the file of a tree. -/
def written (tree : PolicyTree) : List (Said (List Observation × Action)) :=
  .epoch tree.horizon :: (tree.root.decisions []).map .item

theorem Shaped.lastOf_written (h : Shaped observations horizon tree)
    (history : List Observation) :
    lastOf (Said.items tree.written) history = tree.root.decision? history := by
  have hitems : Said.items tree.written = tree.root.decisions [] := by
    simp [Said.items, written, List.filterMap_map]
  rw [hitems]
  exact lastOf_eq_of_mem_iff (fun _ _ => h.mem_decisions) history

/-- A tree is what its file says. -/
theorem Grown.eq_reset {loaded : PolicyTree} (h : Grown observations horizon tree.written loaded)
    (hshaped : Shaped observations horizon tree) : loaded = tree.reset := by
  have hreset : loaded = loaded.reset := by rw [reset, ← h.cursor_eq]
  rw [hreset, h.shaped.reset_eq hshaped fun history =>
    (h.decision_eq history).trans (hshaped.lastOf_written history)]

/-- The tokens of a decision. -/
def decisionTokens (decision : List Observation × Action) : List String :=
  decision.1.map Entity.name ++ [decision.2.name]

/-- A history with an action has a place in the tree. -/
theorem Shaped.within_of_get (h : Shaped observations horizon tree) {history : List Observation}
    {action : Action} (hget : tree.get history = .ok action) :
    history.length < horizon ∧ ∀ observation ∈ history, observation ∈ observations := by
  rw [h.get_eq_ok, decision?, Option.bind_eq_some_iff] at hget
  obtain ⟨node, hnode, -⟩ := hget
  exact h.within_iff.mp (h.full.isSome_descend?.mp (by rw [hnode]; rfl))

namespace Writable

variable {decision : List Observation × Action}

theorem areTokens (h : Writable observations actions tree)
    (hshaped : Shaped observations horizon tree) (hget : tree.get decision.1 = .ok decision.2) :
    AreTokens (decisionTokens decision) where
  isToken := by
    intro token htoken
    rcases List.mem_append.mp htoken with htoken | htoken
    · obtain ⟨observation, hmem, rfl⟩ := List.mem_map.mp htoken
      exact h.observation_token observation ((hshaped.within_of_get hget).2 observation hmem)
    · obtain rfl := List.mem_singleton.mp htoken
      exact h.action_token hget
  nonempty := by simp [decisionTokens]
  head := by
    obtain ⟨history, action⟩ := decision
    cases history with
    | nil => exact fun hhead => h.root_horizon hget (Option.some.inj hhead)
    | cons observation history =>
        have hmem := (hshaped.within_of_get hget).2 observation List.mem_cons_self
        exact fun hhead => h.observation_horizon observation hmem (Option.some.inj hhead)

/-- **A decision is told by its tokens.** -/
theorem entry (h : Writable observations actions tree) (hshaped : Shaped observations horizon tree)
    (hget : tree.get decision.1 = .ok decision.2) :
    Entry observations actions horizon (decisionTokens decision) decision := by
  obtain ⟨hlength, hmem⟩ := hshaped.within_of_get hget
  refine .mk (by rwa [List.length_map]) ?_ (h.find_action hget)
  rw [List.forall₂_map_left_iff, List.forall₂_same]
  intro observation hobservation
  exact h.find_observation observation (hmem observation hobservation)

/-- **What the file of a tree says is its horizon, and then its decisions.** -/
theorem parses (h : Writable observations actions tree) (hshaped : Shaped observations horizon tree)
    (hhorizon : horizon ≤ Decimal.greatestWhole) :
    Parses (grammar observations actions horizon) (Text.textLines tree.write) tree.written := by
  obtain rfl := hshaped.horizon_eq
  have hget : ∀ decision ∈ tree.root.decisions [], tree.get decision.1 = .ok decision.2 :=
    fun decision hdecision => hshaped.get_eq_ok.mpr (hshaped.mem_decisions.mp hdecision)
  have hheader : Says ["# observation : ... : action"] [] := .skip ⟨by decide, by decide⟩ rfl .nil
  have hagain : Says [Record.horizonLine tree.horizon] [.horizon tree.horizon] :=
    .take (Record.oneLine_horizonLine _) (Record.ofLine_horizonLine hshaped.pos hhorizon) .nil
  have hsays := (hheader.append hagain).append (.map fun decision hdecision =>
    h.areTokens hshaped (hget decision hdecision))
  have hadmits : List.Forall₂ (grammar observations actions tree.horizon).Admits
      ((tree.root.decisions []).map fun decision => .tokens (decisionTokens decision))
      ((tree.root.decisions []).map .item) := by
    rw [List.forall₂_map_left_iff, List.forall₂_map_right_iff, List.forall₂_same]
    exact fun decision hdecision => .item (h.entry hshaped (hget decision hdecision))
  have hlines : Text.textLines tree.write = _ := textLines_unlines hsays.oneLine
  rw [hlines]
  exact hsays.parses (.cons (.epoch rfl) hadmits)

end Writable

/-- **What is read from the file of a tree is the tree, at its root.** -/
theorem read_write_eq (h : Built observations horizon tree)
    (hhorizon : horizon ≤ Decimal.greatestWhole) (hwritable : Writable observations actions tree) :
    PolicyTree.read (.ofBytes tree.write.toUTF8.data.toList) actions observations horizon
      = .ok tree.reset := by
  obtain ⟨loaded, hread, hgrown⟩ := (settled_grown observations actions h.shaped.pos _).accepts
    (hwritable.parses h.shaped hhorizon)
  rw [Source.ofBytes, Text.byteLines_toUTF8, hread, hgrown.eq_reset h.shaped]

/-- **A policy tree comes back from its file.**  The file can be read, and what is read has the
same answer for every history, whether that is an action, that there is none or that the tree has
no place for the history.  The horizon must not be greater than what a file can say. -/
theorem read_write_answers (h : Built observations horizon tree)
    (hhorizon : horizon ≤ Decimal.greatestWhole) (hwritable : Writable observations actions tree) :
    ∃ loaded,
      PolicyTree.read (.ofBytes tree.write.toUTF8.data.toList) actions observations horizon
        = .ok loaded ∧
      ∀ history, loaded.get history = tree.get history :=
  ⟨tree.reset, read_write_eq h hhorizon hwritable, fun _ => rfl⟩

/-- What can be seen of a floor, with blanks and a carriage return in the names. -/
def looks : Collection .observation := .ofNames .observation ["wet floor", "dry\rfloor"]

/-- What can be done about a floor. -/
def chores : Collection .action := .ofNames .action ["mop up", "wait", "horizon"]

/-- A tree with one decision. -/
def single (observations : Collection .observation) (depth : Nat) (history : List Observation)
    (action : Action) : PolicyTree where
  horizon := depth + 1
  root := ((DecisionNode.blank observations.toList depth).set? action history).getD
    (.blank observations.toList depth)

theorem built_single {depth : Nat} {history : List Observation}
    (h : Within observations.toList depth history) (action : Action) :
    Built observations (depth + 1) (single observations depth history action) := by
  obtain ⟨changed, hset, -⟩ := (full_blank observations.toList depth).set
    (Collection.nodup_toList observations) h action
  have hone : PolicyTree.set { horizon := depth + 1, root := .blank observations.toList depth }
      history action = .ok (single observations depth history action) := by
    rw [PolicyTree.set, hset, single, hset]
    rfl
  exact .set (.blank rfl) hone

/-- A tree with nothing to do at first, and only for a floor that turned out to be wet. -/
def mopping : PolicyTree :=
  single looks 1 [.named .observation "wet floor"] (.named .action "mop up")

theorem built_mopping : Built looks 2 mopping :=
  built_single ⟨by decide, by decide +kernel⟩ _

theorem writable_mopping : Writable looks chores mopping := by
  have hlooks : ∀ observation ∈ looks.toList, looks.find observation.name = .ok observation ∧
      IsToken observation.name ∧ observation.name ≠ horizonToken := by decide +kernel
  have hdecisions : ∀ decision ∈ mopping.root.decisions [],
      chores.find decision.2.name = .ok decision.2 ∧ IsToken decision.2.name ∧
        decision.2.name ≠ horizonToken := by decide +kernel
  have hshaped := built_mopping.shaped
  have hmem : ∀ {history action}, mopping.get history = .ok action →
      (history, action) ∈ mopping.root.decisions [] := fun hget =>
    hshaped.mem_decisions.mpr (hshaped.get_eq_ok.mp hget)
  have hlist : ∀ observation ∈ looks, observation ∈ looks.toList := fun observation =>
    Std.ExtTreeSet.mem_toList.mpr
  exact {
    find_observation := fun observation h => (hlooks observation (hlist observation h)).1
    observation_token := fun observation h => (hlooks observation (hlist observation h)).2.1
    observation_horizon := fun observation h => (hlooks observation (hlist observation h)).2.2
    find_action := fun h => (hdecisions _ (hmem h)).1
    action_token := fun h => (hdecisions _ (hmem h)).2.1
    root_horizon := fun h => (hdecisions _ (hmem h)).2.2 }

/-- The tree comes back with the nodes that were not set. -/
theorem read_write_answers_mopping :
    Built looks 2 mopping ∧ 2 ≤ Decimal.greatestWhole ∧ Writable looks chores mopping ∧
      ∃ loaded,
        PolicyTree.read (.ofBytes mopping.write.toUTF8.data.toList) chores looks 2 = .ok loaded ∧
        loaded.get [.named .observation "wet floor"] = .ok (.named .action "mop up") ∧
        loaded.get [] = .error (.unsetHistory []) ∧
        loaded.get [.named .observation "horizon"]
          = .error (.outsideTree [.named .observation "horizon"]) := by
  have hhorizon : 2 ≤ Decimal.greatestWhole := by decide
  obtain ⟨loaded, hread, hget⟩ := read_write_answers built_mopping hhorizon writable_mopping
  refine ⟨built_mopping, hhorizon, writable_mopping, loaded, hread, ?_, ?_, ?_⟩
  · rw [hget]
    decide +kernel
  · rw [hget]
    decide +kernel
  · rw [hget]
    decide +kernel

end MarkovPlanning.PolicyTree
