/-
Nodes that stand for histories.

The array of a policy tree holds one node for each history shorter than the horizon, and the
histories stand in the order of their lengths (`Histories.upTo`).  While the array grows, each
node stands for the history at its position: an edge leads from a history to the one with its
observation after it, and there is an edge wherever both are there (`Stands`).  One more node
keeps this up (`Stands.sprout`), so a level does (`Growing.level`), and so a blank tree has it for
all histories within its reach (`shaped_of_blank`).

That is all a walk has to know.  It ends at the node of the history that was walked
(`Stands.walk?_eq_some_iff`), so no two histories share a node, and setting an action changes no
edge.
-/
import MarkovPlanning.Policy.Arena
import MarkovPlanning.Proofs.Policy.Tree.Shape
import Mathlib

namespace MarkovPlanning

open DecisionNode (Within within_nil)

/-! ### Histories -/

namespace Histories

variable {observations : List Observation} {history : List Observation}

/-- The histories with one observation more. -/
def extend (observations : List Observation) (history : List Observation) :
    List (List Observation) :=
  observations.map fun observation => history ++ [observation]

/-- The histories of a length. -/
def ofLength (observations : List Observation) : (length : Nat) → List (List Observation)
  | 0 => [[]]
  | length + 1 => (ofLength observations length).flatMap (extend observations)

/-- The histories up to a length, the shorter ones first. -/
def upTo (observations : List Observation) : (length : Nat) → List (List Observation)
  | 0 => [[]]
  | length + 1 => upTo observations length ++ ofLength observations (length + 1)

theorem mem_extend {other : List Observation} :
    other ∈ extend observations history ↔
      ∃ observation ∈ observations, history ++ [observation] = other :=
  List.mem_map

theorem mem_ofLength : ∀ {length : Nat} {history : List Observation},
    history ∈ ofLength observations length ↔
      history.length = length ∧ ∀ observation ∈ history, observation ∈ observations := by
  intro length
  induction length with
  | zero =>
      intro history
      rw [ofLength, List.mem_singleton, List.length_eq_zero_iff]
      exact ⟨fun h => ⟨h, by simp [h]⟩, And.left⟩
  | succ length ih =>
      intro history
      rw [ofLength, List.mem_flatMap]
      simp only [mem_extend, ih]
      constructor
      · rintro ⟨before, ⟨hlength, hmem⟩, observation, hobservation, rfl⟩
        refine ⟨by simp [hlength], fun other hother => ?_⟩
        rcases List.mem_append.mp hother with hother | hother
        · exact hmem other hother
        · rwa [List.mem_singleton.mp hother]
      · rintro ⟨hlength, hmem⟩
        obtain ⟨before, observation, rfl⟩ : ∃ before observation,
            history = before ++ [observation] := by
          rcases List.eq_nil_or_concat history with rfl | ⟨before, observation, rfl⟩
          · cases hlength
          · exact ⟨before, observation, List.concat_eq_append⟩
        refine ⟨before, ⟨by simpa using hlength, fun other hother =>
          hmem other (List.mem_append_left _ hother)⟩, observation, hmem observation (by simp), rfl⟩

theorem mem_upTo : ∀ {length : Nat},
    history ∈ upTo observations length ↔ Within observations length history := by
  intro length
  induction length with
  | zero =>
      rw [upTo, List.mem_singleton]
      refine ⟨fun h => h ▸ within_nil, fun h => ?_⟩
      exact List.length_eq_zero_iff.mp (Nat.le_zero.mp h.length_le)
  | succ length ih =>
      rw [upTo, List.mem_append, ih, mem_ofLength]
      constructor
      · rintro (h | ⟨hlength, hmem⟩)
        · exact ⟨Nat.le_succ_of_le h.length_le, h.mem⟩
        · exact ⟨hlength.le, hmem⟩
      · intro h
        rcases Nat.le_succ_iff.mp h.length_le with hle | heq
        · exact .inl ⟨hle, h.mem⟩
        · exact .inr ⟨heq, h.mem⟩

theorem nodup_ofLength (hnodup : observations.Nodup) :
    ∀ (length : Nat), (ofLength observations length).Nodup := by
  intro length
  induction length with
  | zero => exact List.nodup_singleton _
  | succ length ih =>
      refine List.nodup_flatMap.mpr ⟨fun history _ => hnodup.map fun a b h => ?_, ?_⟩
      · exact List.singleton_inj.mp (List.append_cancel_left h)
      · refine ih.imp fun {a b} hne other ha hb => hne ?_
        obtain ⟨observation, -, rfl⟩ := mem_extend.mp ha
        obtain ⟨observation', -, h⟩ := mem_extend.mp hb
        exact (List.append_inj' h rfl).1.symm

theorem nodup_upTo (hnodup : observations.Nodup) :
    ∀ (length : Nat), (upTo observations length).Nodup := by
  intro length
  induction length with
  | zero => exact List.nodup_singleton _
  | succ length ih =>
      refine ih.append (nodup_ofLength hnodup _) fun history hshort hlong => ?_
      have hle := (mem_upTo.mp hshort).length_le
      have heq := (mem_ofLength.mp hlong).1
      omega

theorem length_ofLength : ∀ (length : Nat),
    (ofLength observations length).length = observations.length ^ length := by
  intro length
  induction length with
  | zero => rfl
  | succ length ih =>
      rw [ofLength, List.length_flatMap]
      simp [extend, ih, pow_succ]

theorem length_upTo : ∀ (length : Nat), (upTo observations length).length
    = ∑ level ∈ Finset.range (length + 1), observations.length ^ level := by
  intro length
  induction length with
  | zero => rfl
  | succ length ih =>
      rw [upTo, List.length_append, ih, length_ofLength, Finset.sum_range_succ _ (length + 1)]

end Histories

namespace PolicyArena

open Histories

variable {observations : List Observation} {nodes : Array ArenaNode}
  {histories : List (List Observation)} {history : List Observation} {index : Nat}

/-- Nodes that stand for histories, the one with an index for the history at that position. -/
structure Stands (observations : List Observation) (nodes : Array ArenaNode)
    (histories : List (List Observation)) : Prop where
  size_eq : nodes.size = histories.length
  root : histories[0]? = some []
  nodup : histories.Nodup
  closed : ∀ history observation, history ++ [observation] ∈ histories → history ∈ histories
  /-- An edge leads to the history with one observation more. -/
  mem_edges : ∀ index observation child, (observation, child) ∈ edgesAt nodes index ↔
    ∃ history, histories[index]? = some history ∧
      histories[child]? = some (history ++ [observation])
  /-- The edges of a node are made in the order of the observations. -/
  labels : ∀ index, (edgesAt nodes index).map Prod.fst <+: observations

/-! ### Walking -/

namespace Stands

variable (h : Stands observations nodes histories)
include h

/-- No two nodes stand for one history. -/
theorem index_eq {index' : Nat} (hindex : histories[index]? = some history)
    (hindex' : histories[index']? = some history) : index = index' :=
  (List.getElem?_inj (List.getElem?_eq_some_iff.mp hindex).1 h.nodup).mp
    (hindex.trans hindex'.symm)

theorem mem_of_append {later : List Observation} (hmem : history ++ later ∈ histories) :
    history ∈ histories := by
  induction later using List.reverseRecOn with
  | nil => rwa [List.append_nil] at hmem
  | append_singleton later observation ih =>
      rw [← List.append_assoc] at hmem
      exact ih (h.closed _ _ hmem)

/-- The edges of a node lead to the histories that are longer by one observation. -/
theorem mem_edges_iff (hindex : histories[index]? = some history) {observation : Observation}
    {child : Nat} :
    (observation, child) ∈ edgesAt nodes index ↔
      histories[child]? = some (history ++ [observation]) := by
  rw [h.mem_edges]
  constructor
  · rintro ⟨history', hindex', hchild⟩
    obtain rfl : history = history' := Option.some.inj (hindex.symm.trans hindex')
    exact hchild
  · exact fun hchild => ⟨history, hindex, hchild⟩

theorem child?_eq_some_iff (hindex : histories[index]? = some history)
    {observation : Observation} {child : Nat} :
    child? nodes index observation = some child ↔
      histories[child]? = some (history ++ [observation]) := by
  rw [child?, Option.map_eq_some_iff]
  constructor
  · rintro ⟨⟨label, child⟩, hfind, rfl⟩
    obtain rfl : label = observation := by simpa using List.find?_some hfind
    exact (h.mem_edges_iff hindex).mp (List.mem_of_find?_eq_some hfind)
  · intro hchild
    obtain ⟨⟨label, child'⟩, hfind⟩ : ∃ edge,
        (edgesAt nodes index).find? (·.1 == observation) = some edge :=
      Option.isSome_iff_exists.mp (List.find?_isSome.mpr
        ⟨_, (h.mem_edges_iff hindex).mpr hchild, beq_self_eq_true _⟩)
    obtain rfl : label = observation := by simpa using List.find?_some hfind
    -- the edge that is found leads to the node of the longer history, and there is only one
    exact ⟨_, hfind, h.index_eq
      ((h.mem_edges_iff hindex).mp (List.mem_of_find?_eq_some hfind)) hchild⟩

/-- **A walk ends at the node of what was walked.** -/
theorem walk?_eq_some_iff {later : List Observation} {child : Nat}
    (hindex : histories[index]? = some history) :
    walk? nodes index later = some child ↔ histories[child]? = some (history ++ later) := by
  induction later generalizing index history with
  | nil =>
      rw [walk?, List.append_nil, Option.some_inj]
      exact ⟨fun heq => heq ▸ hindex, fun hchild => h.index_eq hindex hchild⟩
  | cons observation later ih =>
      rw [walk?, List.append_cons]
      constructor
      · intro hwalk
        split at hwalk
        · rename_i next hnext
          exact (ih ((h.child?_eq_some_iff hindex).mp hnext)).mp hwalk
        · cases hwalk
      · intro hchild
        obtain ⟨next, hnext⟩ := List.mem_iff_getElem?.mp
          (h.mem_of_append (List.mem_of_getElem? hchild))
        rw [(h.child?_eq_some_iff hindex).mpr hnext]
        exact (ih hnext).mpr hchild

theorem walk?_root_eq_some_iff :
    walk? nodes 0 history = some index ↔ histories[index]? = some history := by
  rw [h.walk?_eq_some_iff h.root, List.nil_append]

/-- A node without edges stands for a history that does not go on. -/
theorem edgesAt_eq_nil_iff (hindex : histories[index]? = some history) :
    edgesAt nodes index = [] ↔ ∀ observation, history ++ [observation] ∉ histories := by
  rw [List.eq_nil_iff_forall_not_mem]
  constructor
  · intro hno observation hmem
    obtain ⟨child, hchild⟩ := List.mem_iff_getElem?.mp hmem
    exact hno (observation, child) ((h.mem_edges_iff hindex).mpr hchild)
  · rintro hno ⟨observation, child⟩ hedge
    exact hno observation (List.mem_of_getElem? ((h.mem_edges_iff hindex).mp hedge))

end Stands

/-! ### Growing -/

namespace Growth

variable {growth : Growth} {parent : Nat}

theorem edgesAt_sprout (hparent : parent < growth.nodes.size) (observation : Observation)
    (index : Nat) :
    edgesAt (growth.sprout parent observation).nodes index =
      if index = parent then edgesAt growth.nodes index ++ [(observation, growth.nodes.size)]
      else edgesAt growth.nodes index := by
  unfold sprout edgesAt
  dsimp only
  rw [Array.getElem?_modify, Array.getElem?_push]
  by_cases hindex : index = parent
  · subst hindex
    rw [if_pos rfl, if_neg hparent.ne, if_pos rfl, Array.getElem?_eq_getElem hparent]
    rfl
  · rw [if_neg (Ne.symm hindex), if_neg hindex]
    by_cases hnew : index = growth.nodes.size
    · rw [if_pos hnew, hnew, Array.getElem?_eq_none (le_refl _)]
      rfl
    · rw [if_neg hnew]

theorem actionAt?_sprout (observation : Observation) (index : Nat) :
    actionAt? (growth.sprout parent observation).nodes index = actionAt? growth.nodes index := by
  unfold sprout actionAt?
  dsimp only
  have hpush : ((growth.nodes.push {})[index]?).bind ArenaNode.action
      = (growth.nodes[index]?).bind ArenaNode.action := by
    rw [Array.getElem?_push]
    by_cases hnew : index = growth.nodes.size
    · rw [if_pos hnew, hnew, Array.getElem?_eq_none (le_refl _)]
      rfl
    · rw [if_neg hnew]
  rw [Array.getElem?_modify, ← hpush]
  split
  · cases (growth.nodes.push {})[index]? <;> rfl
  · rfl

end Growth

/-- The histories that are there, or a new one after them. -/
theorem getElem?_concat_eq_some_iff {new : List Observation} :
    (histories ++ [new])[index]? = some history ↔
      histories[index]? = some history ∨ index = histories.length ∧ new = history := by
  rw [← List.concat_eq_append]
  by_cases hlt : index < histories.length
  · rw [List.concat_eq_append, List.getElem?_append_left hlt]
    exact ⟨Or.inl, fun h => h.resolve_right fun h => hlt.ne h.1⟩
  · rw [List.concat_eq_append, List.getElem?_append_right (not_lt.mp hlt),
      List.getElem?_eq_none (not_lt.mp hlt), List.getElem?_singleton]
    by_cases heq : index = histories.length
    · simp [heq]
    · have : index - histories.length ≠ 0 := by omega
      simp [heq, this]

/-- **One more node keeps the others in place.** -/
theorem Stands.sprout {growth : Growth} (h : Stands observations growth.nodes histories)
    {parent : Nat} (hparent : histories[parent]? = some history) {observation : Observation}
    (hnew : history ++ [observation] ∉ histories)
    (hlabels : (edgesAt growth.nodes parent).map Prod.fst ++ [observation] <+: observations) :
    Stands observations (growth.sprout parent observation).nodes
      (histories ++ [history ++ [observation]]) := by
  have hlt : parent < growth.nodes.size := by
    rw [h.size_eq]
    exact (List.getElem?_eq_some_iff.mp hparent).1
  refine ⟨?_, ?_, ?_, ?_, ?_, ?_⟩
  · simp [Growth.sprout, h.size_eq]
  · exact getElem?_concat_eq_some_iff.mpr (.inl h.root)
  · exact h.nodup.append (List.nodup_singleton _)
      (List.disjoint_singleton.mpr hnew)
  · intro before last hmem
    rcases List.mem_append.mp hmem with hmem | hmem
    · exact List.mem_append_left _ (h.closed _ _ hmem)
    · obtain ⟨rfl, -⟩ := List.append_inj' (List.mem_singleton.mp hmem) rfl
      exact List.mem_append_left _ (List.mem_of_getElem? hparent)
  · intro index label child
    rw [Growth.edgesAt_sprout hlt]
    simp only [getElem?_concat_eq_some_iff]
    constructor
    · intro hmem
      have hmem : (label, child) ∈ edgesAt growth.nodes index ∨
          index = parent ∧ label = observation ∧ child = growth.nodes.size := by
        split at hmem
        · rename_i heq
          simpa [heq] using hmem
        · exact .inl hmem
      rcases hmem with hmem | ⟨rfl, rfl, rfl⟩
      · obtain ⟨before, hbefore, hchild⟩ := (h.mem_edges _ _ _).mp hmem
        exact ⟨before, .inl hbefore, .inl hchild⟩
      · exact ⟨history, .inl hparent, .inr ⟨h.size_eq, rfl⟩⟩
    · rintro ⟨before, hbefore | ⟨-, rfl⟩, hchild | ⟨hchild, hlast⟩⟩
      · have hmem := (h.mem_edges _ _ _).mpr ⟨before, hbefore, hchild⟩
        split
        · exact List.mem_append_left _ hmem
        · exact hmem
      · obtain ⟨rfl, hlabel⟩ := List.append_inj' hlast rfl
        obtain rfl := List.singleton_inj.mp hlabel
        rw [if_pos (h.index_eq hbefore hparent), hchild, h.size_eq]
        simp
      -- the new history does not go on, or it would have been there before
      · exact absurd (h.closed _ _ (List.mem_of_getElem? hchild)) hnew
      · exact absurd hlast (by simp)
  · intro index
    rw [Growth.edgesAt_sprout hlt]
    split
    · rename_i heq
      rw [heq, List.map_append]
      exact hlabels
    · exact h.labels index

/-- Nodes that stand for histories, decide nothing, and end with those of the last level. -/
structure Growing (observations : List Observation) (growth : Growth)
    (histories last : List (List Observation)) : Prop where
  stands : Stands observations growth.nodes histories
  undecided : ∀ index, actionAt? growth.nodes index = none
  frontier : List.Forall₂ (fun (index : Nat) history => histories[index]? = some history)
    growth.frontier.toList last

namespace Growing

theorem root : Growing observations Growth.root [[]] [[]] where
  stands :=
    { size_eq := rfl
      root := rfl
      nodup := List.nodup_singleton _
      closed := by simp
      mem_edges := by
        intro index observation child
        have hedges : edgesAt Growth.root.nodes index = [] := by
          cases index <;> rfl
        rw [hedges]
        refine iff_of_false List.not_mem_nil ?_
        rintro ⟨history, -, hchild⟩
        have hmem := List.mem_of_getElem? hchild
        simp at hmem
      labels := by
        intro index
        have hedges : edgesAt Growth.root.nodes index = [] := by
          cases index <;> rfl
        rw [hedges]
        exact List.nil_prefix }
  undecided := by
    intro index
    cases index <;> rfl
  frontier := .cons rfl .nil

variable {growth : Growth} {last : List (List Observation)}

/-- A node of the level before is given its edges, one for each observation that is left. -/
theorem sprouts {parent : Nat} : ∀ {rest : List Observation} {growth : Growth}
    {histories last : List (List Observation)}, Growing observations growth histories last →
      histories[parent]? = some history →
      (edgesAt growth.nodes parent).map Prod.fst ++ rest = observations →
      (histories ++ extend rest history).Nodup →
        Growing observations (rest.foldl (Growth.sprout parent) growth)
          (histories ++ extend rest history) (last ++ extend rest history) := by
  intro rest
  induction rest with
  | nil =>
      intro growth histories last h _ _ _
      simpa [extend] using h
  | cons observation rest ih =>
      intro growth histories last h hparent hlabels hnodup
      have hlt : parent < growth.nodes.size := by
        rw [h.stands.size_eq]
        exact (List.getElem?_eq_some_iff.mp hparent).1
      have hsplit : histories ++ extend (observation :: rest) history
          = (histories ++ [history ++ [observation]]) ++ extend rest history := by
        simp [extend]
      have hsplit' : last ++ extend (observation :: rest) history
          = (last ++ [history ++ [observation]]) ++ extend rest history := by
        simp [extend]
      rw [hsplit] at hnodup ⊢
      rw [hsplit', List.foldl_cons]
      have hnew : history ++ [observation] ∉ histories := fun hmem =>
        List.disjoint_of_nodup_append hnodup.of_append_left hmem (List.mem_singleton_self _)
      refine ih ⟨h.stands.sprout hparent hnew ?_, ?_, ?_⟩ ?_ ?_ hnodup
      · exact ⟨rest, by simpa using hlabels⟩
      · intro index
        rw [Growth.actionAt?_sprout]
        exact h.undecided index
      · show List.Forall₂ _ (growth.frontier.push growth.nodes.size).toList _
        rw [Array.toList_push]
        refine List.rel_append (h.frontier.imp fun index history hindex => ?_) (.cons ?_ .nil)
        · exact getElem?_concat_eq_some_iff.mpr (.inl hindex)
        · exact getElem?_concat_eq_some_iff.mpr (.inr ⟨h.stands.size_eq, rfl⟩)
      · exact getElem?_concat_eq_some_iff.mpr (.inl hparent)
      · rw [Growth.edgesAt_sprout hlt, if_pos rfl]
        simpa using hlabels

/-- A level is made node by node of the one before. -/
theorem parents {indices : List Nat} {level : List (List Observation)} :
    ∀ {growth : Growth} {histories last : List (List Observation)},
      Growing observations growth histories last →
      List.Forall₂ (fun (index : Nat) history => histories[index]? = some history)
        indices level →
      (histories ++ level.flatMap (extend observations)).Nodup →
        Growing observations
          (indices.foldl (fun grown parent => observations.foldl (Growth.sprout parent) grown)
            growth)
          (histories ++ level.flatMap (extend observations))
          (last ++ level.flatMap (extend observations)) := by
  induction indices generalizing level with
  | nil =>
      intro growth histories last h hlevel _
      cases hlevel
      simpa using h
  | cons parent indices ih =>
      intro growth histories last h hlevel hnodup
      cases hlevel with
      | @cons _ history _ level hparent hlevel =>
          rw [List.flatMap_cons, ← List.append_assoc] at hnodup ⊢
          rw [← List.append_assoc, List.foldl_cons]
          -- a node that goes on already would have its first edge twice
          have hedges : edgesAt growth.nodes parent = [] := by
            rw [List.eq_nil_iff_forall_not_mem]
            rintro ⟨observation, child⟩ hedge
            have hchild := (h.stands.mem_edges_iff hparent).mp hedge
            have hlabel : observation ∈ observations :=
              (h.stands.labels parent).subset (List.mem_map_of_mem hedge)
            exact List.disjoint_of_nodup_append hnodup.of_append_left
              (List.mem_of_getElem? hchild) (mem_extend.mpr ⟨observation, hlabel, rfl⟩)
          refine ih (h.sprouts hparent (by rw [hedges]; rfl) hnodup.of_append_left) ?_ hnodup
          exact hlevel.imp fun index history hindex => by
            rw [List.getElem?_append_left (List.getElem?_eq_some_iff.mp hindex).1, hindex]

/-- **A level adds the histories that are longer by one observation.** -/
theorem level (hnodup : observations.Nodup) {depth : Nat}
    (h : Growing observations growth (upTo observations depth) (ofLength observations depth)) :
    Growing observations (growth.level observations) (upTo observations (depth + 1))
      (ofLength observations (depth + 1)) := by
  have hstart : Growing observations { growth with frontier := #[] } (upTo observations depth) [] :=
    ⟨h.stands, h.undecided, .nil⟩
  rw [Growth.level, ← Array.foldl_toList]
  exact hstart.parents h.frontier (nodup_upTo hnodup (depth + 1))

theorem levels (hnodup : observations.Nodup) : ∀ (depth : Nat),
    Growing observations (Nat.repeat (Growth.level observations) depth Growth.root)
      (upTo observations depth) (ofLength observations depth) := by
  intro depth
  induction depth with
  | zero => exact root
  | succ depth ih => exact ih.level hnodup

end Growing

/-! ### Trees -/

/-- An arena has its horizon and the nodes that go with it. -/
structure Shaped (observations : Collection .observation) (horizon : Nat) (arena : PolicyArena) :
    Prop where
  horizon_eq : arena.horizon = horizon
  pos : 0 < horizon
  stands : Stands observations.toList arena.nodes (upTo observations.toList (horizon - 1))

/-- The blank tree has the nodes of its horizon, and they decide nothing. -/
theorem shaped_of_blank {observations : Collection .observation} {horizon : Nat}
    {arena : PolicyArena} (h : blank observations horizon = .ok arena) :
    Shaped observations horizon arena ∧ arena.cursor = some 0 ∧
      ∀ index, actionAt? arena.nodes index = none := by
  cases horizon with
  | zero => cases h
  | succ levels =>
      have hgrown := Growing.levels (Collection.nodup_toList observations) levels
      cases h
      exact ⟨⟨rfl, Nat.succ_pos levels, hgrown.stands⟩, rfl, hgrown.undecided⟩

/-! ### Setting actions -/

section
variable {action : Action}

theorem edgesAt_modify (other : Nat) :
    edgesAt (nodes.modify index fun node => { node with action := some action }) other
      = edgesAt nodes other := by
  unfold edgesAt
  rw [Array.getElem?_modify]
  split
  · cases nodes[other]? <;> rfl
  · rfl

theorem actionAt?_modify (hindex : index < nodes.size) (other : Nat) :
    actionAt? (nodes.modify index fun node => { node with action := some action }) other
      = if other = index then some action else actionAt? nodes other := by
  unfold actionAt?
  rw [Array.getElem?_modify]
  by_cases heq : other = index
  · rw [if_pos heq.symm, if_pos heq, heq, Array.getElem?_eq_getElem hindex]
    rfl
  · rw [if_neg (Ne.symm heq), if_neg heq]

theorem walk?_modify (start : Nat) (history : List Observation) :
    walk? (nodes.modify index fun node => { node with action := some action }) start history
      = walk? nodes start history := by
  induction history generalizing start with
  | nil => rfl
  | cons observation history ih =>
      rw [walk?, walk?, child?, edgesAt_modify, ← child?]
      cases child? nodes start observation with
      | none => rfl
      | some child => exact ih child

theorem Stands.modify (h : Stands observations nodes histories) (index : Nat) (action : Action) :
    Stands observations (nodes.modify index fun node => { node with action := some action })
      histories where
  size_eq := by rw [Array.size_modify, h.size_eq]
  root := h.root
  nodup := h.nodup
  closed := h.closed
  mem_edges other := by
    rw [edgesAt_modify]
    exact h.mem_edges other
  labels other := by
    rw [edgesAt_modify]
    exact h.labels other

end

namespace Shaped

variable {observations : Collection .observation} {horizon : Nat} {arena : PolicyArena}
  (h : Shaped observations horizon arena)
include h

theorem mem_upTo_iff :
    history ∈ upTo observations.toList (horizon - 1) ↔
      history.length < horizon ∧ ∀ observation ∈ history, observation ∈ observations :=
  mem_upTo.trans (PolicyTree.within_pred_iff h.pos)

/-- The cursor is no part of the shape. -/
theorem move (cursor : Option Nat) : Shaped observations horizon { arena with cursor := cursor } :=
  ⟨h.horizon_eq, h.pos, h.stands⟩

/-- Neither are the actions. -/
theorem modify (index : Nat) (action : Action) :
    Shaped observations horizon { arena with
      nodes := arena.nodes.modify index fun node => { node with action := some action } } :=
  ⟨h.horizon_eq, h.pos, h.stands.modify index action⟩

/-- There is one node for each history. -/
theorem size_eq : arena.size = ∑ level ∈ Finset.range horizon, observations.size ^ level := by
  rw [size, h.stands.size_eq, length_upTo, Nat.sub_add_cancel h.pos, Std.ExtTreeSet.length_toList]

/-- **A history is located at the node that stands for it.** -/
theorem locate_eq_ok_iff :
    arena.locate history = .ok index ↔
      (upTo observations.toList (horizon - 1))[index]? = some history := by
  rw [← h.stands.walk?_root_eq_some_iff, locate]
  cases walk? arena.nodes 0 history with
  | none => exact iff_of_false nofun nofun
  | some other => simp

/-- The histories that are located are those shorter than the horizon. -/
theorem exists_locate_iff :
    (∃ index, arena.locate history = .ok index) ↔
      history.length < horizon ∧ ∀ observation ∈ history, observation ∈ observations := by
  rw [← h.mem_upTo_iff, List.mem_iff_getElem?]
  simp only [h.locate_eq_ok_iff]

end Shaped

end PolicyArena

end MarkovPlanning
