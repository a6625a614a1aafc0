/-
The shape of a policy tree.

Every tree is made blank, and nothing that is done to it later changes its shape: its root has
a branch for every observation, as deep as its horizon allows (`Built.shaped`).  So an action
can be set after the histories shorter than the horizon and after no others, and what a tree
answers for a history is the action that was set there last, if any was (`Shaped.set`,
`Shaped.get_eq`).
-/
import MarkovPlanning.Proofs.Entity.Sum
import MarkovPlanning.Proofs.Policy.Tree
import Mathlib

namespace MarkovPlanning.PolicyTree

open DecisionNode

/-- The trees that can be made for some observations: the blank one, and what becomes of it when
actions are set and it is followed. -/
inductive Built (observations : Collection .observation) (horizon : Nat) : PolicyTree → Prop
  | blank {tree : PolicyTree} : PolicyTree.blank observations horizon = .ok tree →
      Built observations horizon tree
  | set {tree tree' : PolicyTree} {history : List Observation} {action : Action} :
      Built observations horizon tree → tree.set history action = .ok tree' →
      Built observations horizon tree'
  | next {tree tree' : PolicyTree} {observation : Observation} {action : Action} :
      Built observations horizon tree → tree.next observation = .ok (action, tree') →
      Built observations horizon tree'
  | reset {tree : PolicyTree} : Built observations horizon tree →
      Built observations horizon tree.reset

variable {observations : Collection .observation} {horizon : Nat} {tree tree' : PolicyTree}
  {history : List Observation}

/-- Following a tree only moves its cursor. -/
theorem next_eq_ok {observation : Observation} {action : Action}
    (h : tree.next observation = .ok (action, tree')) :
    tree'.horizon = tree.horizon ∧ tree'.root = tree.root := by
  unfold next at h
  cases hplace : tree.place with
  | error fault => rw [hplace] at h; cases h
  | ok place =>
      cases hcurrent : tree.current with
      | error fault => rw [hplace, hcurrent] at h; cases h
      | ok current =>
          rw [hplace, hcurrent] at h
          simp only [bind, Except.bind, pure, Except.pure] at h
          split at h
          · cases h; exact ⟨rfl, rfl⟩
          · split at h
            · cases h; exact ⟨rfl, rfl⟩
            · cases h

/-- Setting an action does not move the cursor. -/
theorem cursor_eq_of_set {action : Action} (h : tree.set history action = .ok tree') :
    tree'.cursor = tree.cursor := by
  unfold set at h
  split at h
  · cases h
    rfl
  · cases h

/-- The histories within the reach of a horizon are shorter than it. -/
theorem within_pred_iff (hpos : 0 < horizon) :
    Within observations.toList (horizon - 1) history
      ↔ history.length < horizon ∧ ∀ observation ∈ history, observation ∈ observations := by
  constructor
  · rintro ⟨hlength, hmem⟩
    exact ⟨by omega, fun observation hobservation =>
      Std.ExtTreeSet.mem_toList.mp (hmem observation hobservation)⟩
  · rintro ⟨hlength, hmem⟩
    exact ⟨by omega, fun observation hobservation =>
      Std.ExtTreeSet.mem_toList.mpr (hmem observation hobservation)⟩

/-- A tree has its horizon and the shape that goes with it. -/
structure Shaped (observations : Collection .observation) (horizon : Nat) (tree : PolicyTree) :
    Prop where
  horizon_eq : tree.horizon = horizon
  pos : 0 < horizon
  full : Full observations.toList (horizon - 1) tree.root

namespace Shaped

/-- The histories that a tree has a place for are shorter than its horizon. -/
theorem within_iff (h : Shaped observations horizon tree) :
    Within observations.toList (horizon - 1) history
      ↔ history.length < horizon ∧ ∀ observation ∈ history, observation ∈ observations :=
  within_pred_iff h.pos

/-- **An action can be set after a history that the tree has a place for, and is then found
there.** -/
theorem set (h : Shaped observations horizon tree)
    (hwithin : Within observations.toList (horizon - 1) history) (action : Action) :
    ∃ changed, tree.set history action = .ok changed ∧ Shaped observations horizon changed ∧
      ∀ other, changed.root.decision? other
        = if other = history then some action else tree.root.decision? other := by
  obtain ⟨root, hset, hfull, hdecision⟩ :=
    h.full.set (Collection.nodup_toList observations) hwithin action
  refine ⟨{ tree with root }, ?_, ⟨h.horizon_eq, h.pos, hfull⟩, hdecision⟩
  rw [PolicyTree.set, hset]

theorem set_eq_error (h : Shaped observations horizon tree)
    (hwithin : ¬Within observations.toList (horizon - 1) history) (action : Action) :
    tree.set history action = .error (.outsideTree history) := by
  rw [PolicyTree.set, h.full.set_eq_none (Collection.nodup_toList observations) hwithin]

/-- **What a tree answers for a history.** -/
theorem get_eq (h : Shaped observations horizon tree) (history : List Observation) :
    tree.get history =
      match tree.root.decision? history with
      | some action => .ok action
      | none =>
        if history.length < horizon ∧ ∀ observation ∈ history, observation ∈ observations then
          .error (.unsetHistory history)
        else .error (.outsideTree history) := by
  have hsome : (tree.root.descend? history).isSome ↔
      history.length < horizon ∧ ∀ observation ∈ history, observation ∈ observations :=
    h.full.isSome_descend?.trans h.within_iff
  rw [get, decision?]
  cases hdescend : tree.root.descend? history with
  | none =>
      rw [hdescend] at hsome
      exact (if_neg (hsome.not.mp (by simp))).symm
  | some node =>
      rw [hdescend] at hsome
      dsimp only [Option.bind_some]
      cases node.action? with
      | none => exact (if_pos (hsome.mp rfl)).symm
      | some action => rfl

theorem get_eq_ok (h : Shaped observations horizon tree) {action : Action} :
    tree.get history = .ok action ↔ tree.root.decision? history = some action := by
  rw [h.get_eq]
  cases tree.root.decision? history with
  | none =>
      refine iff_of_false ?_ nofun
      dsimp only
      split <;> exact nofun
  | some other => simp

end Shaped

/-- The blank tree has the shape of its horizon, and gives no action. -/
theorem shaped_blank (observations : Collection .observation) (hpos : 0 < horizon) :
    ∃ tree, PolicyTree.blank observations horizon = .ok tree ∧ Shaped observations horizon tree ∧
      ∀ history, tree.root.decision? history = none := by
  obtain ⟨depth, rfl⟩ := Nat.exists_eq_succ_of_ne_zero hpos.ne'
  exact ⟨_, rfl, ⟨rfl, hpos, full_blank _ _⟩, decision?_blank _ _⟩

/-- **Trees keep their shape.** -/
theorem Built.shaped (h : Built observations horizon tree) :
    Shaped observations horizon tree := by
  induction h with
  | @blank tree h =>
      have hpos : 0 < horizon := by
        rw [Nat.pos_iff_ne_zero]
        rintro rfl
        cases h
      obtain ⟨blank, hblank, hshaped, -⟩ := shaped_blank observations hpos
      rwa [h.symm.trans hblank |> Except.ok.inj]
  | @set tree tree' history action _ h ih =>
      by_cases hwithin : Within observations.toList (horizon - 1) history
      · obtain ⟨changed, hset, hshaped, -⟩ := ih.set hwithin action
        rwa [h.symm.trans hset |> Except.ok.inj]
      · rw [ih.set_eq_error hwithin] at h
        cases h
  | next _ h ih =>
      obtain ⟨hhorizon, hroot⟩ := next_eq_ok h
      exact ⟨hhorizon.trans ih.horizon_eq, ih.pos, hroot ▸ ih.full⟩
  | reset _ ih => exact ⟨ih.horizon_eq, ih.pos, ih.full⟩

end MarkovPlanning.PolicyTree
