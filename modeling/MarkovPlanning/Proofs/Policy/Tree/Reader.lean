/-
What the file of a policy tree says.

Its lines are a history of observations and the action after it, with names that the collections
know and fewer observations than the horizon, and those that say the horizon again.  Such a
history has a place in the tree, so its action can be set there, and nothing else can go wrong
(`reader`).  What the tree answers for a history is the action that was told last.
-/
import MarkovPlanning.Policy.Tree.Script
import MarkovPlanning.Proofs.Policy.Reader
import MarkovPlanning.Proofs.Policy.Tree.Shape
import Mathlib

namespace MarkovPlanning

namespace Collection

variable {kind : Kind} {entities : Collection kind} {name : String} {entity : Entity kind}

/-- What is found is a member. -/
theorem mem_of_find (h : entities.find name = .ok entity) : entity ∈ entities := by
  rw [find] at h
  cases hfind : entities.toList.find? (·.name == name) with
  | none => rw [hfind] at h; cases h
  | some other =>
      rw [hfind] at h
      cases h
      exact Std.ExtTreeSet.mem_toList.mp (List.mem_of_find?_eq_some hfind)

theorem mem_of_forall₂_find {names : List String} {found : List (Entity kind)}
    (h : List.Forall₂ (fun name entity => entities.find name = .ok entity) names found) :
    ∀ entity ∈ found, entity ∈ entities := by
  induction h with
  | nil => simp
  | cons hfind _ ih => exact List.forall_mem_cons.mpr ⟨mem_of_find hfind, ih⟩

end Collection

namespace Line

variable {kind : Kind} {entities : Collection kind} {names : List String}
  {found : List (Entity kind)}

theorem mapM_find_eq_ok (line : Line)
    (h : List.Forall₂ (fun name entity => entities.find name = .ok entity) names found) :
    names.mapM (line.find entities) = .ok found := by
  induction h with
  | nil => rfl
  | cons hfind _ ih =>
      rw [List.mapM_cons, line.find_eq_ok hfind, ih]
      rfl

/-- If not all names are known, their line is blamed. -/
theorem mapM_find_eq_error (line : Line)
    (h : ∀ found, ¬List.Forall₂ (fun name entity => entities.find name = .ok entity) names found) :
    ∃ error, names.mapM (line.find entities) = .error error ∧ error.Blames line.number := by
  induction names with
  | nil => exact absurd .nil (h [])
  | cons name names ih =>
      rw [List.mapM_cons]
      by_cases hfind : ∃ entity, entities.find name = .ok entity
      · obtain ⟨entity, hfind⟩ := hfind
        exact blames_next (line.find_eq_ok hfind)
          (blames_bind _ (ih fun found hfound => h _ (.cons hfind hfound)))
      · exact blames_bind _ (line.find_eq_error (not_exists.mp hfind))

end Line

namespace PolicyTree

open DecisionNode

variable {observations : Collection .observation} {actions : Collection .action} {horizon : Nat}
  {said : List (Said (List Observation × Action))} {tree : PolicyTree}

/-- The tokens of a decision. -/
inductive Entry (observations : Collection .observation) (actions : Collection .action)
    (horizon : Nat) : List String → List Observation × Action → Prop
  | mk {names : List String} {last : String} {history : List Observation} {action : Action} :
      names.length < horizon →
      List.Forall₂ (fun name observation => observations.find name = .ok observation)
        names history →
      actions.find last = .ok action →
      Entry observations actions horizon (names ++ [last]) (history, action)

/-- What the file of a policy tree is made of. -/
def grammar (observations : Collection .observation) (actions : Collection .action)
    (horizon : Nat) : Grammar (List Observation × Action) where
  Epoch := (· = horizon)
  Item := Entry observations actions horizon

/-- The tree that a file tells of: the action after a history is the last one that was told, and
a history has a place if it is shorter than the horizon. -/
structure Meant (observations : Collection .observation) (horizon : Nat)
    (said : List (Said (List Observation × Action))) (tree : PolicyTree) : Prop where
  horizon_eq : tree.horizon = horizon
  cursor_eq : tree.cursor = some []
  get_eq : ∀ history, tree.get history =
    match lastOf (Said.items said) history with
    | some action => .ok action
    | none =>
      if history.length < horizon ∧ ∀ observation ∈ history, observation ∈ observations then
        .error (.unsetHistory history)
      else .error (.outsideTree history)

/-- The state of the reader after what was said. -/
structure Grown (observations : Collection .observation) (horizon : Nat)
    (said : List (Said (List Observation × Action))) (tree : PolicyTree) : Prop where
  shaped : Shaped observations horizon tree
  cursor_eq : tree.cursor = some []
  decision_eq : ∀ history, tree.root.decision? history = lastOf (Said.items said) history

/-- **What is read answers what was told last.** -/
theorem Grown.meant (h : Grown observations horizon said tree) :
    Meant observations horizon said tree where
  horizon_eq := h.shaped.horizon_eq
  cursor_eq := h.cursor_eq
  get_eq history := by
    have hget := h.shaped.get_eq history
    rw [h.decision_eq] at hget
    exact hget

theorem Entry.within {tokens : List String} {history : List Observation} {action : Action}
    (h : Entry observations actions horizon tokens (history, action)) :
    history.length < horizon ∧ ∀ observation ∈ history, observation ∈ observations := by
  obtain ⟨hlength, hfound, -⟩ := h
  exact ⟨hfound.length_eq ▸ hlength, Collection.mem_of_forall₂_find hfound⟩

/-- **The reader sets the actions that are told, and takes no other lines.** -/
theorem reader (observations : Collection .observation) (actions : Collection .action)
    (horizon : Nat) :
    Reader (take observations actions) (grammar observations actions horizon)
      (Grown observations horizon) where
  accept := by
    intro said tree x line hgrown hadmits
    generalize hrecord : line.record = record at hadmits
    rw [take, hrecord]
    cases hadmits with
    | @epoch number hnumber =>
        refine ⟨tree, if_pos (hnumber.trans hgrown.shaped.horizon_eq.symm), hgrown.shaped,
          hgrown.cursor_eq, fun history => ?_⟩
        rw [hgrown.decision_eq, Said.items_append]
        exact congrArg (lastOf · history) (List.append_nil _).symm
    | @item tokens x hitem =>
        obtain ⟨history, action⟩ := x
        obtain ⟨changed, hset, hshaped, hdecision⟩ :=
          hgrown.shaped.set (hgrown.shaped.within_iff.mpr hitem.within) action
        refine ⟨changed, ?_, hshaped, ?_, fun other => ?_⟩
        · obtain ⟨hlength, hfound, haction⟩ := hitem
          have hdepth := hgrown.shaped.horizon_eq.symm ▸ Nat.not_le.mpr hlength
          simp only [List.dropLast_concat, List.getLastD_concat]
          rw [if_neg hdepth, line.mapM_find_eq_ok hfound, line.find_eq_ok haction]
          change (liftM (tree.set history action) : Except Error PolicyTree) = _
          rw [hset]
          rfl
        · rw [cursor_eq_of_set hset, hgrown.cursor_eq]
        · rw [hdecision, hgrown.decision_eq, Said.items_append]
          exact (lastOf_append _ history other action).symm
  refuse := by
    intro said tree line hgrown hne hadmits
    rw [take]
    cases hrecord : line.record with
    | horizon number =>
        rw [hrecord] at hadmits
        have hnumber : number ≠ tree.horizon := fun heq =>
          hadmits _ (.epoch (heq.trans hgrown.shaped.horizon_eq))
        dsimp only
        rw [if_neg hnumber]
        exact line.refuse_eq_error _
    | tokens tokens =>
        rw [hrecord] at hadmits hne
        have htokens : tokens ≠ [] := fun hnil => hne (by rw [hnil])
        obtain ⟨names, last, rfl⟩ : ∃ names last, tokens = names ++ [last] :=
          ⟨_, _, (List.dropLast_append_getLast htokens).symm⟩
        have hentry : ∀ item, ¬Entry observations actions horizon (names ++ [last]) item :=
          fun item hitem => hadmits _ (.item hitem)
        simp only [List.dropLast_concat, List.getLastD_concat]
        rw [hgrown.shaped.horizon_eq]
        by_cases hlength : horizon ≤ names.length
        · rw [if_pos hlength]
          exact line.refuse_eq_error _
        rw [if_neg hlength]
        by_cases hfound : ∃ history, List.Forall₂ (fun name observation =>
            observations.find name = .ok observation) names history
        · obtain ⟨history, hfound⟩ := hfound
          have haction : ∀ action, actions.find last ≠ .ok action := fun action haction =>
            hentry _ (.mk (Nat.not_le.mp hlength) hfound haction)
          exact blames_next (line.mapM_find_eq_ok hfound)
            (blames_bind _ (line.find_eq_error haction))
        · exact blames_bind _ (line.mapM_find_eq_error (not_exists.mp hfound))

/-- **The file of a policy tree is taken for what it means, or refused.** -/
theorem settled_grown (observations : Collection .observation) (actions : Collection .action)
    {horizon : Nat} (hpos : 0 < horizon) (lines : List String) :
    Settled (grammar observations actions horizon) (Grown observations horizon) lines
      (PolicyTree.read (lines.map some) actions observations horizon) := by
  obtain ⟨depth, rfl⟩ := Nat.exists_eq_succ_of_ne_zero hpos.ne'
  have hblank : Grown observations (depth + 1) []
      { horizon := depth + 1, root := .blank observations.toList depth } :=
    ⟨⟨rfl, hpos, full_blank _ _⟩, rfl, decision?_blank _ _⟩
  exact (reader observations actions (depth + 1)).settled hblank lines

end PolicyTree

end MarkovPlanning
