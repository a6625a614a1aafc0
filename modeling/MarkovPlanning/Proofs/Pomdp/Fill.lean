/-
A blank tree becomes the tree of a policy.

`Unrolls` says which tree is the one of a policy: a node has the decision at its belief, and the
trees of the updated beliefs for branches.  `Pomdp.fill` makes it another way, by setting one
decision after the other in a tree that has all its nodes from the beginning.

Setting a decision can only fail where a tree has no place for the history.  So `fill_spec` keeps
the shape of the tree along, with what has been set: after a history the decisions are those of
`Unrolls`, and the decisions after other histories are left alone (`Filled`).  The branches of a
node are filled one by one, and no one of them touches another (`FilledBranches.cons`).  In the
end the filled tree and the one of `Unrolls` have one shape and the same decisions, so they are
equal (`unroll_eq_ok`).
-/
import MarkovPlanning.Pomdp.Unroll
import MarkovPlanning.Proofs.Policy.Tree.Shape
import Mathlib

namespace MarkovPlanning.Pomdp

open DecisionNode PolicyTree

variable {α : Type} [Scalar α] {pomdp : Pomdp α} {policy : VectorPolicy α}

/-- The tree of the decisions of a policy from an epoch and a belief on, for `depth` more
observations. -/
inductive Unrolls (pomdp : Pomdp α) (policy : VectorPolicy α) :
    (depth epoch : Nat) → Belief α → DecisionNode → Prop
  | last {epoch : Nat} {belief : Belief α} {action : Action}
      (hget : policy.get epoch belief = .ok action) :
      Unrolls pomdp policy 0 epoch belief (.node (some action) [])
  | next {depth epoch : Nat} {belief : Belief α} {action : Action}
      {children : Observation → DecisionNode} (hget : policy.get epoch belief = .ok action)
      (hchildren : ∀ observation ∈ pomdp.observations,
        Unrolls pomdp policy depth (epoch + 1) (pomdp.updateOrKeep belief action observation)
          (children observation)) :
      Unrolls pomdp policy (depth + 1) epoch belief (.node (some action)
        (pomdp.observations.toList.map fun observation => (observation, children observation)))

theorem Unrolls.full {depth epoch : Nat} {belief : Belief α} {node : DecisionNode}
    (h : Unrolls pomdp policy depth epoch belief node) :
    Full pomdp.observations.toList depth node := by
  induction h with
  | last _ => exact .last _
  | next _ _ ih =>
      exact .next _ fun observation hmem => ih observation (Std.ExtTreeSet.mem_toList.mp hmem)

/-! ### One decision after the other -/

variable {observations : Collection .observation} {horizon : Nat} {tree filled : PolicyTree}
  {history : List Observation}

/-- What has been done to a tree: the decisions after a history are those of a node, and the ones
after all other histories are as they were. -/
structure Filled (observations : Collection .observation) (horizon : Nat)
    (history : List Observation) (node : DecisionNode) (tree filled : PolicyTree) : Prop where
  shaped : Shaped observations horizon filled
  cursor : filled.cursor = tree.cursor
  decides : ∀ later, filled.root.decision? (history ++ later) = node.decision? later
  keeps : ∀ other, ¬ history <+: other →
    filled.root.decision? other = tree.root.decision? other

/-- The first decision after a history can be set, and is then the only one. -/
theorem filled_set (hshaped : Shaped observations horizon tree)
    (hwithin : Within observations.toList (horizon - 1) history)
    (hblank : ∀ later, tree.root.decision? (history ++ later) = none) (action : Action) :
    ∃ filled, tree.set history action = .ok filled ∧
      Filled observations horizon history (.node (some action) []) tree filled := by
  obtain ⟨filled, hset, hfilled, hdecision⟩ := hshaped.set hwithin action
  refine ⟨filled, hset, hfilled, cursor_eq_of_set hset, fun later => ?_, fun other hother => ?_⟩
  · rw [hdecision, hblank]
    cases later with
    | nil =>
        rw [List.append_nil, if_pos rfl]
        rfl
    | cons observation later =>
        rw [if_neg (by simp)]
        rfl
  · rw [hdecision, if_neg]
    rintro rfl
    exact hother List.prefix_rfl

/-- What follows one observation does not follow another. -/
theorem not_prefix_of_ne {observation other : Observation} (h : observation ≠ other)
    (later : List Observation) : ¬ history ++ [observation] <+: history ++ other :: later := by
  rw [List.prefix_append_right_inj, List.cons_prefix_cons]
  exact fun hprefix => h hprefix.1

/-- The same for some branches after a history, each of which has the decisions of its own node. -/
structure FilledBranches (observations : Collection .observation) (horizon : Nat)
    (history : List Observation) (children : Observation → DecisionNode)
    (labels : List Observation) (tree filled : PolicyTree) : Prop where
  shaped : Shaped observations horizon filled
  cursor : filled.cursor = tree.cursor
  decides : ∀ observation ∈ labels, ∀ later,
    filled.root.decision? (history ++ observation :: later)
      = (children observation).decision? later
  keeps : ∀ other, (∀ observation ∈ labels, ¬ history ++ [observation] <+: other) →
    filled.root.decision? other = tree.root.decision? other

variable {children : Observation → DecisionNode} {labels : List Observation}

theorem FilledBranches.nil (hshaped : Shaped observations horizon tree) :
    FilledBranches observations horizon history children [] tree tree where
  shaped := hshaped
  cursor := rfl
  decides _ h := absurd h List.not_mem_nil
  keeps _ _ := rfl

/-- The branches that are filled later leave the first one alone. -/
theorem FilledBranches.cons {first : Observation} {next : PolicyTree} (hfirst : first ∉ labels)
    (h : Filled observations horizon (history ++ [first]) (children first) tree next)
    (hrest : FilledBranches observations horizon history children labels next filled) :
    FilledBranches observations horizon history children (first :: labels) tree filled where
  shaped := hrest.shaped
  cursor := hrest.cursor.trans h.cursor
  decides := by
    refine List.forall_mem_cons.mpr ⟨fun later => ?_, hrest.decides⟩
    have hother : ∀ observation ∈ labels,
        ¬ history ++ [observation] <+: history ++ first :: later := by
      intro observation hmem
      have hne : observation ≠ first := by
        rintro rfl
        exact hfirst hmem
      exact not_prefix_of_ne hne later
    rw [hrest.keeps _ hother, ← h.decides, List.append_assoc]
    rfl
  keeps := by
    intro other hother
    rw [hrest.keeps _ fun observation hmem => hother observation (List.mem_cons_of_mem _ hmem),
      h.keeps _ (hother first List.mem_cons_self)]

/-- **Filling the branches of a node one by one fills each of them**, whatever fills one. -/
theorem foldlM_filled {fillOne : PolicyTree → Observation → Except PolicyFault PolicyTree} :
    ∀ {labels : List Observation}, labels.Nodup →
      (∀ observation ∈ labels, ∀ tree, Shaped observations horizon tree →
        (∀ later, tree.root.decision? (history ++ [observation] ++ later) = none) →
        ∃ filled, fillOne tree observation = .ok filled ∧ Filled observations horizon
          (history ++ [observation]) (children observation) tree filled) →
      ∀ {tree : PolicyTree}, Shaped observations horizon tree →
      (∀ observation ∈ labels, ∀ later,
        tree.root.decision? (history ++ observation :: later) = none) →
      ∃ filled, labels.foldlM fillOne tree = .ok filled ∧
        FilledBranches observations horizon history children labels tree filled := by
  intro labels
  induction labels with
  | nil => exact fun _ _ tree hshaped _ => ⟨tree, rfl, .nil hshaped⟩
  | cons first rest ih =>
      intro hnodup hone tree hshaped hblank
      obtain ⟨hfirst, hrest⟩ := List.nodup_cons.mp hnodup
      obtain ⟨next, hnext, hfilled⟩ := hone first List.mem_cons_self tree hshaped fun later => by
        rw [List.append_assoc]
        exact hblank first List.mem_cons_self later
      -- the other branches are still blank
      have hblank' : ∀ observation ∈ rest, ∀ later,
          next.root.decision? (history ++ observation :: later) = none := by
        intro observation hmem later
        have hne : first ≠ observation := by
          rintro rfl
          exact hfirst hmem
        rw [hfilled.keeps _ (not_prefix_of_ne hne later)]
        exact hblank observation (List.mem_cons_of_mem _ hmem) later
      obtain ⟨filled, hfold, hbranches⟩ := ih hrest
        (fun observation hmem => hone observation (List.mem_cons_of_mem _ hmem))
        hfilled.shaped hblank'
      refine ⟨filled, ?_, .cons hfirst hfilled hbranches⟩
      rw [List.foldlM_cons, hnext]
      exact hfold

/-- Where a node has a decision and its branches have theirs, all of it has. -/
theorem filled_next {action : Action} {start : PolicyTree}
    (hset : Filled observations horizon history (.node (some action) []) start tree)
    (h : FilledBranches observations horizon history children observations.toList tree filled) :
    Filled observations horizon history (.node (some action)
      (observations.toList.map fun observation => (observation, children observation)))
      start filled := by
  refine ⟨h.shaped, h.cursor.trans hset.cursor, fun later => ?_, fun other hother => ?_⟩
  · cases later with
    | nil =>
        rw [h.keeps, hset.decides]
        · rfl
        · intro observation _ hprefix
          have := hprefix.length_le
          simp at this
    | cons observation later =>
        by_cases hmem : observation ∈ observations.toList
        · rw [h.decides observation hmem, decision?, decision?, descend?_map _ hmem]
        · rw [h.keeps, hset.decides, decision?, decision?, descend?_map_of_notMem _ hmem]
          · rfl
          · intro label hlabel
            have hne : label ≠ observation := by
              rintro rfl
              exact hmem hlabel
            exact not_prefix_of_ne hne later
  · rw [h.keeps, hset.keeps other hother]
    exact fun observation _ hprefix => hother ((List.prefix_append _ _).trans hprefix)

/-- **Filling a tree that is blank after a history gives it the decisions of the policy there**, and
no decision is set where there is no place for it. -/
theorem fill_spec {depth epoch : Nat} {belief : Belief α} {node : DecisionNode}
    (h : Unrolls pomdp policy depth epoch belief node) :
    ∀ {history : List Observation} {tree : PolicyTree}, history.length = epoch →
      (∀ observation ∈ history, observation ∈ pomdp.observations.toList) →
      epoch + depth < horizon → Shaped pomdp.observations horizon tree →
      (∀ later, tree.root.decision? (history ++ later) = none) →
      ∃ filled, pomdp.fill policy depth history belief tree = .ok filled ∧
        Filled pomdp.observations horizon history node tree filled := by
  induction h with
  | last hget =>
      rintro history tree rfl hmem hlt hshaped hblank
      obtain ⟨filled, hset, hfilled⟩ :=
        filled_set hshaped ⟨by omega, hmem⟩ hblank _
      refine ⟨filled, ?_, hfilled⟩
      rw [fill, hget]
      exact hset
  | @next depth epoch belief action children hget _ ih =>
      rintro history tree rfl hmem hlt hshaped hblank
      obtain ⟨first, hset, hfirst⟩ := filled_set hshaped ⟨by omega, hmem⟩ hblank action
      obtain ⟨filled, hfold, hbranches⟩ := foldlM_filled
        (Collection.nodup_toList pomdp.observations)
        (fun observation hobservation tree hshaped hblank =>
          ih observation (Std.ExtTreeSet.mem_toList.mp hobservation) (by simp)
            (List.forall_mem_append.mpr ⟨hmem, by simpa using hobservation⟩) (by omega)
            hshaped hblank)
        hfirst.shaped fun observation _ later => by
          rw [hfirst.decides]
          rfl
      refine ⟨filled, ?_, filled_next hfirst hbranches⟩
      rw [fill, hget]
      simp only [bind, Except.bind, hset]
      exact hfold

/-- **The tree that is unrolled is the tree of the decisions.** -/
theorem unroll_eq_ok {depth : Nat} {belief : Belief α} {root : DecisionNode}
    (hspan : policy.span.epochs = depth + 1) (h : Unrolls pomdp policy depth 0 belief root) :
    pomdp.unroll policy belief = .ok { horizon := depth + 1, root } := by
  have hshaped : Shaped pomdp.observations (depth + 1)
      { horizon := depth + 1, root := .blank pomdp.observations.toList depth } :=
    ⟨rfl, Nat.succ_pos depth, full_blank _ _⟩
  obtain ⟨⟨horizon, root', cursor⟩, hfill, hfilled⟩ := fill_spec h rfl
    (fun _ h => absurd h List.not_mem_nil) (by omega) hshaped (decision?_blank _ _)
  obtain rfl : horizon = depth + 1 := hfilled.shaped.horizon_eq
  obtain rfl : cursor = some [] := hfilled.cursor
  obtain rfl : root' = root := hfilled.shaped.full.ext h.full hfilled.decides
  have hfinite : policy.span.isFinite = true := by
    rw [Span.isFinite, hspan]
    exact decide_eq_true (Nat.succ_pos depth)
  unfold unroll
  rw [hfinite, hspan]
  exact congrArg (Except.mapError Error.policy) hfill

end MarkovPlanning.Pomdp
