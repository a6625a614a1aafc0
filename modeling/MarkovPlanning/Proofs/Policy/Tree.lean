/-
Nodes with a branch for every observation.

A tree that is unrolled from a policy has such nodes only, so how many nodes it has
and where a history leads in it can be read off the subtrees.

Such a node is no more than a map from histories to actions.  It has a place for the
histories of observations it branches on that are no longer than it is deep
(`Full.isSome_descend?`), setting the action of one of them changes what is found there
and nowhere else (`Full.set`), its actions can be listed with their histories
(`Full.mem_decisions`), and two nodes of one shape are equal if they give the same actions
(`Full.ext`).
-/
import MarkovPlanning.Policy.Tree
import Mathlib

namespace MarkovPlanning.DecisionNode

variable {children : Observation → DecisionNode}

/-- Subtrees of one size count as often as there are branches. -/
theorem sizes_map {n : Nat} : ∀ {observations : List Observation},
    (∀ observation ∈ observations, (children observation).size = n) →
      sizes (observations.map fun observation => (observation, children observation))
        = observations.length * n := by
  intro observations
  induction observations with
  | nil => intro _; exact (Nat.zero_mul n).symm
  | cons first rest ih =>
      intro h
      rw [List.map_cons, sizes, h first List.mem_cons_self,
        ih fun observation hmem => h observation (List.mem_cons_of_mem _ hmem),
        List.length_cons, Nat.succ_mul, Nat.add_comm]

/-- The branch of an observation is found. -/
theorem branch?_map (action : Option Action) {observation : Observation} :
    ∀ {observations : List Observation}, observation ∈ observations →
      (node action (observations.map fun observation =>
        (observation, children observation))).branch? observation
          = some (children observation) := by
  intro observations
  induction observations with
  | nil => intro h; exact absurd h List.not_mem_nil
  | cons first rest ih =>
      intro h
      unfold branch? branches at ih ⊢
      rw [List.map_cons, List.find?_cons]
      by_cases hfirst : first = observation
      · rw [hfirst, beq_self_eq_true]
        rfl
      · rw [beq_eq_false_iff_ne.mpr hfirst]
        exact ih ((List.mem_cons.mp h).resolve_left (Ne.symm hfirst))

/-- A history goes on in the branch of its first observation. -/
theorem descend?_map (action : Option Action) {observations : List Observation}
    {observation : Observation} (h : observation ∈ observations) (history : List Observation) :
    (node action (observations.map fun observation =>
      (observation, children observation))).descend? (observation :: history)
        = (children observation).descend? history := by
  rw [descend?, branch?_map action h]

/-- An observation without a branch leads nowhere. -/
theorem descend?_map_of_notMem (action : Option Action) {observations : List Observation}
    {observation : Observation} (h : observation ∉ observations) (history : List Observation) :
    (node action (observations.map fun observation =>
      (observation, children observation))).descend? (observation :: history) = none := by
  have hnone : (node action (observations.map fun observation =>
      (observation, children observation))).branch? observation = none := by
    rw [branch?, branches, Option.map_eq_none_iff, List.find?_eq_none]
    intro branch hbranch
    obtain ⟨label, hlabel, rfl⟩ := List.mem_map.mp hbranch
    simp only [beq_iff_eq]
    rintro rfl
    exact h hlabel
  rw [descend?, hnone]

/-! ### Full nodes -/

/-- Nodes with a branch for every observation, down to a depth. -/
inductive Full (observations : List Observation) : Nat → DecisionNode → Prop
  | last (action : Option Action) : Full observations 0 (node action [])
  | next (action : Option Action) {depth : Nat} {children : Observation → DecisionNode} :
      (∀ observation ∈ observations, Full observations depth (children observation)) →
      Full observations (depth + 1)
        (node action (observations.map fun observation => (observation, children observation)))

/-- Histories that a node has a place for. -/
structure Within (observations : List Observation) (depth : Nat) (history : List Observation) :
    Prop where
  length_le : history.length ≤ depth
  mem : ∀ observation ∈ history, observation ∈ observations

/-- The action after a history. -/
def decision? (tree : DecisionNode) (history : List Observation) : Option Action :=
  (tree.descend? history).bind action?

variable {observations : List Observation} {depth : Nat} {tree tree' : DecisionNode}
  {history : List Observation}

theorem within_nil : Within observations depth [] where
  length_le := Nat.zero_le _
  mem := by simp

theorem within_cons {observation : Observation} :
    Within observations (depth + 1) (observation :: history)
      ↔ observation ∈ observations ∧ Within observations depth history := by
  constructor
  · rintro ⟨hlength, hmem⟩
    exact ⟨hmem _ List.mem_cons_self, Nat.le_of_succ_le_succ hlength,
      fun later hlater => hmem later (List.mem_cons_of_mem _ hlater)⟩
  · rintro ⟨hfirst, hlength, hmem⟩
    exact ⟨Nat.succ_le_succ hlength, List.forall_mem_cons.mpr ⟨hfirst, hmem⟩⟩

theorem not_within_zero {observation : Observation} :
    ¬Within observations 0 (observation :: history) :=
  fun h => absurd h.length_le (by simp)

theorem full_blank (observations : List Observation) (depth : Nat) :
    Full observations depth (blank observations depth) := by
  induction depth with
  | zero => exact .last none
  | succ depth ih => exact .next none fun _ _ => ih

theorem decision?_blank (observations : List Observation) (depth : Nat)
    (history : List Observation) : (blank observations depth).decision? history = none := by
  induction depth generalizing history with
  | zero => cases history <;> rfl
  | succ depth ih =>
      cases history with
      | nil => rfl
      | cons observation history =>
          rw [blank, decision?]
          by_cases h : observation ∈ observations
          · rw [descend?_map none h]
            exact ih history
          · rw [descend?_map_of_notMem none h]
            rfl

namespace Full

/-- **A node has a place for the histories within its reach.** -/
theorem isSome_descend? (h : Full observations depth tree) :
    (tree.descend? history).isSome ↔ Within observations depth history := by
  induction h generalizing history with
  | last action =>
      cases history with
      | nil => exact iff_of_true rfl within_nil
      | cons observation history =>
          have hnone : (node action []).descend? (observation :: history) = none := rfl
          exact iff_of_false (by simp [hnone]) not_within_zero
  | @next action depth children _ ih =>
      cases history with
      | nil => exact iff_of_true rfl within_nil
      | cons observation history =>
          rw [within_cons]
          by_cases hmem : observation ∈ observations
          · rw [descend?_map action hmem, ih observation hmem, and_iff_right hmem]
          · rw [descend?_map_of_notMem action hmem]
            exact iff_of_false (by simp) fun h => hmem h.1

/-- Trees of one shape are equal if they give the same actions. -/
theorem ext (h : Full observations depth tree) (h' : Full observations depth tree')
    (heq : ∀ history, tree.decision? history = tree'.decision? history) : tree = tree' := by
  induction h generalizing tree' with
  | last action =>
      cases h' with
      | last action' => exact congrArg (node · []) (heq [])
  | @next action depth children _ ih =>
      cases h' with
      | @next action' _ children' hchildren' =>
          have haction : action = action' := heq []
          have hbranches : ∀ observation ∈ observations,
              children observation = children' observation := by
            intro observation hmem
            refine ih observation hmem (hchildren' observation hmem) fun history => ?_
            have := heq (observation :: history)
            rwa [decision?, decision?, descend?_map _ hmem, descend?_map _ hmem] at this
          rw [haction]
          refine congrArg (node action') (List.map_congr_left fun observation hmem => ?_)
          rw [hbranches observation hmem]

end Full

/-! ### Setting actions -/

/-- The branch of an observation is the one that changes. -/
theorem updateBranch_map (hnodup : observations.Nodup) {observation : Observation}
    (h : observation ∈ observations) (change : DecisionNode → Option DecisionNode) :
    updateBranch observation change (observations.map fun label => (label, children label))
      = (change (children observation)).map fun child =>
          observations.map fun label =>
            (label, Function.update children observation child label) := by
  induction observations with
  | nil => exact absurd h List.not_mem_nil
  | cons first rest ih =>
      obtain ⟨hfirst, hrest⟩ := List.nodup_cons.mp hnodup
      rw [List.map_cons, updateBranch]
      by_cases heq : first = observation
      · subst heq
        rw [if_pos rfl]
        congr 1
        funext child
        rw [List.map_cons, Function.update_self]
        refine congrArg _ (List.map_congr_left fun label hlabel => ?_)
        have hne : label ≠ first := fun heq => hfirst (heq ▸ hlabel)
        rw [Function.update_of_ne hne]
      · rw [if_neg heq, ih hrest ((List.mem_cons.mp h).resolve_left (Ne.symm heq)), Option.map_map]
        congr 1
        funext child
        rw [List.map_cons, Function.update_of_ne heq]
        rfl

theorem updateBranch_map_of_notMem {observation : Observation} (h : observation ∉ observations)
    (change : DecisionNode → Option DecisionNode) :
    updateBranch observation change (observations.map fun label => (label, children label))
      = none := by
  induction observations with
  | nil => rfl
  | cons first rest ih =>
      obtain ⟨hfirst, hrest⟩ := not_or.mp (List.mem_cons.not.mp h)
      rw [List.map_cons, updateBranch, if_neg (Ne.symm hfirst), ih hrest, Option.map_none]

namespace Full

/-- **Setting the action of a history changes what is found there and nowhere else.** -/
theorem set (h : Full observations depth tree) (hnodup : observations.Nodup)
    (hwithin : Within observations depth history) (action : Action) :
    ∃ changed, tree.set? action history = some changed ∧ Full observations depth changed ∧
      ∀ other, changed.decision? other
        = if other = history then some action else tree.decision? other := by
  induction h generalizing history with
  | last old =>
      obtain rfl : history = [] := List.length_eq_zero_iff.mp (Nat.le_zero.mp hwithin.length_le)
      refine ⟨_, rfl, .last _, fun other => ?_⟩
      cases other with
      | nil => rfl
      | cons observation other => simp [decision?, descend?, branch?, branches]
  | @next old depth children hchildren ih =>
      cases history with
      | nil =>
          refine ⟨_, rfl, .next _ hchildren, fun other => ?_⟩
          cases other with
          | nil => rfl
          | cons observation other => simp [decision?, descend?, branch?, branches]
      | cons observation history =>
          obtain ⟨hmem, hwithin⟩ := within_cons.mp hwithin
          obtain ⟨child, hset, hchild, hdecision⟩ := ih observation hmem hwithin
          refine ⟨node old (observations.map fun label =>
            (label, Function.update children observation child label)), ?_, .next _ ?_, ?_⟩
          · rw [set?, updateBranch_map hnodup hmem, hset]
            rfl
          · intro label hlabel
            by_cases heq : label = observation
            · rw [heq, Function.update_self]
              exact hchild
            · rw [Function.update_of_ne heq]
              exact hchildren label hlabel
          · intro other
            cases other with
            | nil => rfl
            | cons label other =>
                rw [decision?, decision?]
                by_cases hlabel : label ∈ observations
                · rw [descend?_map old hlabel, descend?_map old hlabel]
                  by_cases heq : label = observation
                  · subst heq
                    rw [Function.update_self]
                    simpa [decision?] using hdecision other
                  · rw [Function.update_of_ne heq, if_neg fun h => heq (List.cons.inj h).1]
                · have hne : label :: other ≠ observation :: history := by
                    rintro ⟨⟩
                    exact hlabel hmem
                  rw [descend?_map_of_notMem old hlabel, descend?_map_of_notMem old hlabel,
                    if_neg hne]

/-- There is nothing to set after a history that a node has no place for. -/
theorem set_eq_none (h : Full observations depth tree) (hnodup : observations.Nodup)
    (hwithin : ¬Within observations depth history) (action : Action) :
    tree.set? action history = none := by
  induction h generalizing history with
  | last old =>
      cases history with
      | nil => exact absurd within_nil hwithin
      | cons observation history => rfl
  | next old _ ih =>
      cases history with
      | nil => exact absurd within_nil hwithin
      | cons observation history =>
          rw [within_cons, not_and] at hwithin
          rw [set?, Option.map_eq_none_iff]
          by_cases hmem : observation ∈ observations
          · rw [updateBranch_map hnodup hmem, ih observation hmem (hwithin hmem), Option.map_none]
          · exact updateBranch_map_of_notMem hmem _

end Full

/-! ### Listing actions -/

theorem mem_branchDecisions {before : List Observation} {entry : List Observation × Action} :
    ∀ {branches : List (Observation × DecisionNode)},
      entry ∈ branchDecisions before branches
        ↔ ∃ branch ∈ branches, entry ∈ branch.2.decisions (before ++ [branch.1]) := by
  intro branches
  induction branches with
  | nil => simp [branchDecisions]
  | cons branch rest ih => simp [branchDecisions, ih]

/-- The action of a node comes before those of its branches. -/
theorem mem_decisions_node {before : List Observation} {old : Option Action}
    {branches : List (Observation × DecisionNode)} {action : Action} :
    (history, action) ∈ (node old branches).decisions before
      ↔ history = before ∧ old = some action ∨
        ∃ branch ∈ branches, (history, action) ∈ branch.2.decisions (before ++ [branch.1]) := by
  rw [decisions, List.mem_append, mem_branchDecisions]
  refine or_congr ?_ Iff.rfl
  cases old <;> simp [eq_comm]

/-- **The listed actions are the ones that are found.** -/
theorem Full.mem_decisions (h : Full observations depth tree) {before : List Observation}
    {action : Action} :
    (history, action) ∈ tree.decisions before
      ↔ ∃ after, history = before ++ after ∧ tree.decision? after = some action := by
  induction h generalizing before with
  | last old =>
      rw [mem_decisions_node]
      constructor
      · rintro (⟨rfl, hold⟩ | ⟨_, hbranch, _⟩)
        · exact ⟨[], (List.append_nil _).symm, hold⟩
        · exact absurd hbranch List.not_mem_nil
      · rintro ⟨after, rfl, hdecision⟩
        cases after with
        | nil => exact .inl ⟨List.append_nil _, hdecision⟩
        | cons observation after => cases hdecision
  | @next old depth children _ ih =>
      rw [mem_decisions_node]
      constructor
      · rintro (⟨rfl, hold⟩ | ⟨_, hbranch, hmem⟩)
        · exact ⟨[], (List.append_nil _).symm, hold⟩
        · obtain ⟨observation, hobservation, rfl⟩ := List.mem_map.mp hbranch
          obtain ⟨after, rfl, hdecision⟩ := (ih observation hobservation).mp hmem
          refine ⟨observation :: after, by simp, ?_⟩
          rw [decision?, descend?_map old hobservation]
          exact hdecision
      · rintro ⟨after, rfl, hdecision⟩
        cases after with
        | nil => exact .inl ⟨List.append_nil _, hdecision⟩
        | cons observation after =>
            rw [decision?] at hdecision
            by_cases hobservation : observation ∈ observations
            · rw [descend?_map old hobservation] at hdecision
              refine .inr ⟨_, List.mem_map.mpr ⟨observation, hobservation, rfl⟩, ?_⟩
              exact (ih observation hobservation).mpr ⟨after, by simp, hdecision⟩
            · rw [descend?_map_of_notMem old hobservation] at hdecision
              cases hdecision

end MarkovPlanning.DecisionNode
