/-
The array and the tree.

Below the root the nodes of an arena hang together as a tree (`PolicyArena.root`), and a walk over
indices is a descent in it (`Stands.descend?_unfold`).  That tree is the one that a `PolicyTree`
of the same history holds: after the same calls both give the same answers, and so what is proved
of policy trees holds of their layout (`run_agrees`).
-/
import MarkovPlanning.Proofs.Policy.Arena.Run
import Mathlib

namespace MarkovPlanning

open DecisionNode (Full Within)

namespace PolicyArena

open Histories

variable {observations : List Observation} {nodes : Array ArenaNode} {depth index : Nat}
  {history : List Observation}

theorem action?_unfold : (unfold nodes depth index).action? = actionAt? nodes index := by
  cases depth <;> rfl

/-- A history that is not one of the longest goes on with each observation. -/
theorem exists_longer {total : Nat} (hindex : (upTo observations total)[index]? = some history)
    (hlength : history.length < total) {observation : Observation}
    (hmem : observation ∈ observations) :
    ∃ child : Nat, (upTo observations total)[child]? = some (history ++ [observation]) := by
  have hwithin := mem_upTo.mp (List.mem_of_getElem? hindex)
  refine List.mem_iff_getElem?.mp (mem_upTo.mpr ⟨by simpa using hlength, ?_⟩)
  exact List.forall_mem_append.mpr ⟨hwithin.mem, List.forall_mem_singleton.mpr hmem⟩

section
variable {total : Nat} (h : Stands observations nodes (upTo observations total))
  (hindex : (upTo observations total)[index]? = some history)
include h hindex

/-- A node on the last level has none. -/
theorem Stands.edgesAt_eq_nil (hlength : history.length = total) : edgesAt nodes index = [] := by
  refine (h.edgesAt_eq_nil_iff hindex).mpr fun observation hmem => ?_
  have hle := (mem_upTo.mp hmem).length_le
  rw [List.length_append, List.length_singleton] at hle
  omega

/-- Any other node has its edges in the order of the observations. -/
theorem Stands.edgesAt_eq_map (hnodup : observations.Nodup) (hlength : history.length < total) :
    edgesAt nodes index = observations.map fun observation =>
      (observation, (child? nodes index observation).getD 0) := by
  have hlabels : (edgesAt nodes index).map Prod.fst = observations := by
    refine (h.labels index).eq_of_length_le (hnodup.subperm fun observation hmem => ?_).length_le
    obtain ⟨child, hchild⟩ := exists_longer hindex hlength hmem
    exact List.mem_map_of_mem ((h.mem_edges_iff hindex).mpr hchild)
  conv_rhs => rw [← hlabels, List.map_map]
  refine (List.map_id _).symm.trans (List.map_congr_left fun edge hedge => ?_)
  have hchild := (h.child?_eq_some_iff hindex).mpr ((h.mem_edges_iff hindex).mp hedge)
  simp [hchild]

/-! ### One node -/

variable (hdepth : history.length + depth = total)
include hdepth

theorem Stands.isEmpty_branches_unfold :
    (unfold nodes depth index).branches.isEmpty = (edgesAt nodes index).isEmpty := by
  cases depth with
  | zero =>
      rw [h.edgesAt_eq_nil hindex hdepth]
      rfl
  | succ depth =>
      rw [unfold, DecisionNode.branches, List.isEmpty_map]

theorem Stands.branch?_unfold (observation : Observation) :
    (unfold nodes depth index).branch? observation
      = (child? nodes index observation).map (unfold nodes (depth - 1)) := by
  cases depth with
  | zero =>
      rw [child?, h.edgesAt_eq_nil hindex hdepth]
      rfl
  | succ depth =>
      rw [unfold, DecisionNode.branch?, DecisionNode.branches, List.find?_map, child?,
        Option.map_map, Option.map_map]
      rfl

end

/-! ### All nodes -/

section
variable {total : Nat} (h : Stands observations nodes (upTo observations total))
include h

/-- **A walk over indices is a descent in the tree.** -/
theorem Stands.descend?_unfold (hindex : (upTo observations total)[index]? = some history)
    (hdepth : history.length + depth = total) (later : List Observation) :
    (unfold nodes depth index).descend? later
      = (walk? nodes index later).map (unfold nodes (depth - later.length)) := by
  induction later generalizing depth index history with
  | nil => rfl
  | cons observation later ih =>
      rw [DecisionNode.descend?, walk?, h.branch?_unfold hindex hdepth]
      cases hchild : child? nodes index observation with
      | none => rfl
      | some child =>
          have hchild' := (h.child?_eq_some_iff hindex).mp hchild
          have hle := (mem_upTo.mp (List.mem_of_getElem? hchild')).length_le
          rw [List.length_append, List.length_singleton] at hle
          refine (ih hchild' ?_).trans ?_
          · rw [List.length_append, List.length_singleton]
            omega
          · rw [List.length_cons, Nat.sub_sub, Nat.add_comm 1]

/-- The tree has a branch for every observation, down to its depth. -/
theorem Stands.full_unfold (hnodup : observations.Nodup)
    (hindex : (upTo observations total)[index]? = some history)
    (hdepth : history.length + depth = total) :
    Full observations depth (unfold nodes depth index) := by
  induction depth generalizing index history with
  | zero => exact .last _
  | succ depth ih =>
      have hlength : history.length < total := by omega
      rw [unfold, h.edgesAt_eq_map hindex hnodup hlength, List.map_map]
      have hchildren : ∀ observation ∈ observations, Full observations depth
          (unfold nodes depth ((child? nodes index observation).getD 0)) := by
        intro observation hmem
        obtain ⟨child, hchild⟩ := exists_longer hindex hlength hmem
        rw [(h.child?_eq_some_iff hindex).mpr hchild, Option.getD_some]
        refine ih hchild ?_
        rw [List.length_append, List.length_singleton]
        omega
      exact .next _ hchildren

end

namespace Shaped

variable {observations : Collection .observation} {horizon : Nat} {arena : PolicyArena}
  (h : Shaped observations horizon arena)
include h

theorem full_root : Full observations.toList (horizon - 1) arena.root := by
  rw [root, h.horizon_eq]
  exact h.stands.full_unfold (Collection.nodup_toList observations) h.stands.root
    (Nat.zero_add _)

theorem descend?_root (history : List Observation) :
    arena.root.descend? history
      = (walk? arena.nodes 0 history).map
          (unfold arena.nodes (horizon - 1 - history.length)) := by
  rw [root, h.horizon_eq]
  exact h.stands.descend?_unfold h.stands.root (Nat.zero_add _) history

theorem decision?_root (history : List Observation) :
    arena.root.decision? history = (walk? arena.nodes 0 history).bind (actionAt? arena.nodes) := by
  rw [DecisionNode.decision?, h.descend?_root]
  cases walk? arena.nodes 0 history with
  | none => rfl
  | some index => exact action?_unfold

end Shaped

end PolicyArena

/-! ### The same calls -/

/-- The answer to a call, with the action if it gives one, and the tree after it. -/
def PolicyTree.perform (tree : PolicyTree) :
    PolicyArena.Call → Except PolicyFault (Option Action) × PolicyTree
  | .set history action =>
    match tree.set history action with
    | .ok after => (.ok none, after)
    | .error fault => (.error fault, tree)
  | .next observation =>
    match tree.next observation with
    | .ok (action, after) => (.ok (some action), after)
    | .error fault => (.error fault, tree)
  | .reset => (.ok none, tree.reset)

namespace PolicyArena

/-- An arena and a tree that hold the same and are at the same place. -/
structure Agrees (observations : Collection .observation) (horizon : Nat) (arena : PolicyArena)
    (tree : PolicyTree) : Prop where
  shaped : arena.Shaped observations horizon
  horizon_eq : tree.horizon = horizon
  root_eq : tree.root = arena.root
  cursor : Option.Rel (fun index history => walk? arena.nodes 0 history = some index)
    arena.cursor tree.cursor

namespace Agrees

variable {observations : Collection .observation} {horizon : Nat} {arena : PolicyArena}
  {tree : PolicyTree} (h : Agrees observations horizon arena tree)
include h

theorem descend? (history : List Observation) :
    tree.root.descend? history
      = (walk? arena.nodes 0 history).map
          (unfold arena.nodes (horizon - 1 - history.length)) := by
  rw [h.root_eq, h.shaped.descend?_root]

/-- Both give the same action for a history. -/
theorem get_eq (history : List Observation) : arena.get history = tree.get history := by
  rw [get, locate, PolicyTree.get, h.descend?]
  cases walk? arena.nodes 0 history with
  | none => rfl
  | some index =>
      simp only [Option.map_some, action?_unfold]
      rfl

/-- Both have the same action under the cursor. -/
theorem current_eq : arena.current = tree.current := by
  have hcursor := h.cursor
  unfold current PolicyTree.current PolicyTree.place
  cases harena : arena.cursor <;> cases htree : tree.cursor <;> rw [harena, htree] at hcursor
  · rfl
  · cases hcursor
  · cases hcursor
  · rename_i index history
    cases hcursor with
    | some hwalk =>
        cases haction : actionAt? arena.nodes index <;>
          simp [h.descend?, hwalk, bind, Except.bind, action?_unfold, haction]

/-- An action that is set in the nodes is set in their tree. -/
theorem modify {history : List Observation} {index : Nat} {action : Action}
    (hindex : (Histories.upTo observations.toList (horizon - 1))[index]? = some history)
    {changed : DecisionNode} (hfull : Full observations.toList (horizon - 1) changed)
    (hdecision : ∀ other, changed.decision? other
      = if other = history then some action else tree.root.decision? other) :
    Agrees observations horizon
      { arena with
        nodes := arena.nodes.modify index fun node => { node with action := some action } }
      { tree with root := changed } := by
  have hshaped := h.shaped.modify index action
  have hsize : index < arena.nodes.size := by
    rw [h.shaped.stands.size_eq]
    exact (List.getElem?_eq_some_iff.mp hindex).1
  refine ⟨hshaped, h.horizon_eq, hfull.ext hshaped.full_root fun other => ?_, ?_⟩
  · rw [hdecision, hshaped.decision?_root, walk?_modify, h.root_eq, h.shaped.decision?_root]
    cases hwalk : walk? arena.nodes 0 other with
    | none =>
        have hne : other ≠ history := by
          rintro rfl
          rw [h.shaped.stands.walk?_root_eq_some_iff.mpr hindex] at hwalk
          cases hwalk
        rw [if_neg hne]
        rfl
    | some place =>
        have hplace := h.shaped.stands.walk?_root_eq_some_iff.mp hwalk
        have hiff : place = index ↔ other = history := by
          constructor
          · rintro rfl
            exact Option.some.inj (hplace.symm.trans hindex)
          · rintro rfl
            exact h.shaped.stands.index_eq hplace hindex
        rw [Option.bind_some, Option.bind_some, actionAt?_modify hsize]
        simp only [hiff]
  · have hcursor := h.cursor
    simpa only [walk?_modify] using hcursor

/-- Both set the action of a history, or both refuse to. -/
theorem set (history : List Observation) (action : Action) :
    (arena.perform (.set history action)).1 = (tree.perform (.set history action)).1 ∧
      Agrees observations horizon (arena.perform (.set history action)).2
        (tree.perform (.set history action)).2 := by
  have hnodup := Collection.nodup_toList observations
  have hfull : Full observations.toList (horizon - 1) tree.root := h.root_eq ▸ h.shaped.full_root
  have hwithin : Within observations.toList (horizon - 1) history ↔
      ∃ index, walk? arena.nodes 0 history = some index := by
    rw [← hfull.isSome_descend?, h.descend?, Option.isSome_map, Option.isSome_iff_exists]
  cases hwalk : walk? arena.nodes 0 history with
  | none =>
      have hoff : ¬Within observations.toList (horizon - 1) history := by
        rw [hwithin, hwalk]
        exact fun ⟨_, hnone⟩ => nomatch hnone
      have hset : tree.set history action = .error (.outsideTree history) := by
        rw [PolicyTree.set, hfull.set_eq_none hnodup hoff]
      simp only [perform, PolicyArena.set, locate, hwalk, PolicyTree.perform, hset]
      exact ⟨rfl, h⟩
  | some index =>
      obtain ⟨changed, hchanged, hfull', hdecision⟩ :=
        hfull.set hnodup (hwithin.mpr ⟨index, hwalk⟩) action
      have hset : tree.set history action = .ok { tree with root := changed } := by
        rw [PolicyTree.set, hchanged]
      have hindex := h.shaped.stands.walk?_root_eq_some_iff.mp hwalk
      simp only [perform, PolicyArena.set, locate, hwalk, PolicyTree.perform, hset]
      exact ⟨rfl, h.modify hindex hfull' hdecision⟩

omit h in
/-- What a step from a node does. -/
theorem perform_next_eq {index : Nat} (hcursor : arena.cursor = some index)
    (observation : Observation) :
    arena.perform (.next observation) =
      match arena.current with
      | .error fault => (.error fault, arena)
      | .ok action =>
        if (edgesAt arena.nodes index).isEmpty then
          (.ok (some action), { arena with cursor := none })
        else
          match child? arena.nodes index observation with
          | some child => (.ok (some action), { arena with cursor := some child })
          | none => (.error (.noBranch observation), arena) := by
  rw [perform, PolicyArena.next, hcursor]
  cases arena.current with
  | error fault => rfl
  | ok action =>
      dsimp only
      split
      · rfl
      · cases child? arena.nodes index observation <;> rfl

/-- What a step of the tree does, in terms of the nodes. -/
theorem tree_perform_next_eq {index : Nat} {history : List Observation}
    (hcursor : tree.cursor = some history) (hwalk : walk? arena.nodes 0 history = some index)
    (observation : Observation) :
    tree.perform (.next observation) =
      match arena.current with
      | .error fault => (.error fault, tree)
      | .ok action =>
        if (edgesAt arena.nodes index).isEmpty then
          (.ok (some action), { tree with cursor := none })
        else
          match child? arena.nodes index observation with
          | some _ => (.ok (some action), { tree with cursor := some (history ++ [observation]) })
          | none => (.error (.noBranch observation), tree) := by
  have hindex := h.shaped.stands.walk?_root_eq_some_iff.mp hwalk
  have hdepth : history.length + (horizon - 1 - history.length) = horizon - 1 := by
    have hlength := (Histories.mem_upTo.mp (List.mem_of_getElem? hindex)).length_le
    omega
  have hplace : tree.place
      = .ok (history, unfold arena.nodes (horizon - 1 - history.length) index) := by
    rw [PolicyTree.place, hcursor]
    dsimp only
    rw [h.descend?, hwalk]
    rfl
  rw [PolicyTree.perform, PolicyTree.next, hplace, h.current_eq]
  simp only [bind, Except.bind, h.shaped.stands.isEmpty_branches_unfold hindex hdepth,
    h.shaped.stands.branch?_unfold hindex hdepth, Option.isSome_map]
  cases tree.current with
  | error fault => rfl
  | ok action =>
      cases (edgesAt arena.nodes index).isEmpty <;>
        cases child? arena.nodes index observation <;> rfl

/-- Both move on, or neither does. -/
theorem next (observation : Observation) :
    (arena.perform (.next observation)).1 = (tree.perform (.next observation)).1 ∧
      Agrees observations horizon (arena.perform (.next observation)).2
        (tree.perform (.next observation)).2 := by
  have hcursor := h.cursor
  cases harena : arena.cursor <;> cases htree : tree.cursor <;> rw [harena, htree] at hcursor
  · have hnext : tree.next observation = .error .exhausted := by
      simp [PolicyTree.next, PolicyTree.place, htree, bind, Except.bind]
    simp only [perform, next_of_exhausted harena, PolicyTree.perform, hnext]
    exact ⟨rfl, h⟩
  · cases hcursor
  · cases hcursor
  · rename_i index history
    obtain ⟨hwalk⟩ := hcursor
    rw [perform_next_eq harena, h.tree_perform_next_eq htree hwalk]
    cases arena.current with
    | error fault => exact ⟨rfl, h⟩
    | ok action =>
        dsimp only
        split
        · exact ⟨rfl, h.shaped.move none, h.horizon_eq, h.root_eq, .none⟩
        · cases hchild : child? arena.nodes index observation with
          | none => exact ⟨rfl, h⟩
          | some child =>
              refine ⟨rfl, h.shaped.move (some child), h.horizon_eq, h.root_eq, .some ?_⟩
              -- the child is where the longer history leads
              have hindex := h.shaped.stands.walk?_root_eq_some_iff.mp hwalk
              exact h.shaped.stands.walk?_root_eq_some_iff.mpr
                ((h.shaped.stands.child?_eq_some_iff hindex).mp hchild)

theorem reset : Agrees observations horizon arena.reset tree.reset where
  shaped := h.shaped.move (some 0)
  horizon_eq := h.horizon_eq
  root_eq := h.root_eq
  cursor := .some rfl

end Agrees

/-- The blank arena and the blank tree hold the same: nothing. -/
theorem agrees_blank {observations : Collection .observation} {horizon : Nat}
    {arena : PolicyArena} {tree : PolicyTree} (harena : blank observations horizon = .ok arena)
    (htree : PolicyTree.blank observations horizon = .ok tree) :
    Agrees observations horizon arena tree := by
  obtain ⟨hshaped, hcursor, hundecided⟩ := shaped_of_blank harena
  have htreeShaped := (PolicyTree.Built.blank htree).shaped
  have hdecision : ∀ history, tree.root.decision? history = none := by
    obtain ⟨blank, hblank, -, hnone⟩ := PolicyTree.shaped_blank observations hshaped.pos
    rwa [← htree.symm.trans hblank |> Except.ok.inj] at hnone
  have htreeCursor : tree.cursor = some [] := by
    cases horizon <;> cases htree
    rfl
  refine ⟨hshaped, htreeShaped.horizon_eq,
    htreeShaped.full.ext hshaped.full_root fun history => ?_, ?_⟩
  · rw [hdecision, hshaped.decision?_root]
    cases walk? arena.nodes 0 history with
    | none => rfl
    | some index => exact (hundecided index).symm
  · rw [hcursor, htreeCursor]
    exact .some rfl

/-- **After the same calls the array and the tree give the same answers.** -/
theorem run_agrees {observations : Collection .observation} {horizon : Nat}
    {arena : PolicyArena} {tree : PolicyTree} (harena : blank observations horizon = .ok arena)
    (htree : PolicyTree.blank observations horizon = .ok tree) (calls : List Call) :
    let tree' := calls.foldl (fun tree call => (tree.perform call).2) tree
    Agrees observations horizon (arena.run calls) tree' ∧
      (∀ call, ((arena.run calls).perform call).1 = (tree'.perform call).1) ∧
      (∀ history, (arena.run calls).get history = tree'.get history) ∧
      (arena.run calls).current = tree'.current := by
  intro tree'
  have hagrees : Agrees observations horizon (arena.run calls) tree' := by
    induction calls using List.reverseRecOn with
    | nil => exact agrees_blank harena htree
    | append_singleton calls last ih =>
        rw [run_concat]
        show Agrees _ _ _ (List.foldl _ _ _)
        rw [List.foldl_concat]
        cases last with
        | set history action => exact (ih.set history action).2
        | next observation => exact (ih.next observation).2
        | reset => exact ih.reset
  refine ⟨hagrees, fun call => ?_, hagrees.get_eq, hagrees.current_eq⟩
  cases call with
  | set history action => exact (hagrees.set history action).1
  | next observation => exact (hagrees.next observation).1
  | reset => rfl

end PolicyArena

end MarkovPlanning
