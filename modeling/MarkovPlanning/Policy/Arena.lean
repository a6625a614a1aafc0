/-
How a policy tree is laid out.

The nodes stand in one array, the root first.  A node refers to those that follow it by
their indices, one for each observation, and the array is grown level by level, so that
a node gets the number of the nodes that were there before it.  A history is looked up
by walking from the root.  The cursor is the index of one node: a step looks at this
node alone, and nothing is kept of how it was reached.

A call gives its answer and the arena it leaves behind, which is there after a failure
as well.
-/
import MarkovPlanning.Policy.Tree

namespace MarkovPlanning

/-- An action, if one is set, and the index of the node after each observation. -/
structure ArenaNode where
  action : Option Action := none
  edges : List (Observation × Nat) := []

/-- The nodes of a policy tree, and the one that is executed next unless a leaf has been
passed. -/
structure PolicyArena where
  /-- The number of decisions on a way through the tree. -/
  horizon : Nat
  nodes : Array ArenaNode
  cursor : Option Nat := some 0

namespace PolicyArena

/-! ### Growing -/

/-- The nodes so far, and the indices of those on the last level. -/
structure Growth where
  nodes : Array ArenaNode
  frontier : Array Nat

namespace Growth

/-- The root. -/
def root : Growth where
  nodes := #[{}]
  frontier := #[0]

/-- Adds a node to the last level, and an edge to it from the node before. -/
def sprout (parent : Nat) (growth : Growth) (observation : Observation) : Growth :=
  let child := growth.nodes.size
  { nodes := (growth.nodes.push {}).modify parent fun node =>
      { node with edges := node.edges ++ [(observation, child)] }
    frontier := growth.frontier.push child }

/-- Adds a level: after each node of the last one, a node for each observation. -/
def level (observations : List Observation) (growth : Growth) : Growth :=
  growth.frontier.foldl (fun grown parent => observations.foldl (sprout parent) grown)
    { growth with frontier := #[] }

end Growth

/-- The tree of a horizon that decides nothing. -/
def blank (observations : Collection .observation) (horizon : Nat) :
    Except DefinitionFault PolicyArena :=
  match horizon with
  | 0 => .error .noDecisions
  | levels + 1 =>
    .ok {
      horizon := levels + 1
      nodes := (Nat.repeat (Growth.level observations.toList) levels Growth.root).nodes }

/-! ### Walking -/

/-- The edges of the node with an index. -/
def edgesAt (nodes : Array ArenaNode) (index : Nat) : List (Observation × Nat) :=
  (nodes[index]?).elim [] ArenaNode.edges

/-- The action of the node with an index. -/
def actionAt? (nodes : Array ArenaNode) (index : Nat) : Option Action :=
  (nodes[index]?).bind ArenaNode.action

/-- Where an observation leads from a node. -/
def child? (nodes : Array ArenaNode) (index : Nat) (observation : Observation) : Option Nat :=
  ((edgesAt nodes index).find? (·.1 == observation)).map (·.2)

/-- Where a history leads from a node. -/
def walk? (nodes : Array ArenaNode) (index : Nat) : (history : List Observation) → Option Nat
  | [] => some index
  | observation :: history =>
    match child? nodes index observation with
    | some child => walk? nodes child history
    | none => none

/-- The node of a history. -/
def locate (arena : PolicyArena) (history : List Observation) : Except PolicyFault Nat :=
  match walk? arena.nodes 0 history with
  | some index => .ok index
  | none => .error (.outsideTree history)

/-! ### Calls -/

/-- The number of nodes. -/
def size (arena : PolicyArena) : Nat := arena.nodes.size

/-- Sets the action after a history. -/
def set (arena : PolicyArena) (history : List Observation) (action : Action) :
    Except PolicyFault Unit × PolicyArena :=
  match arena.locate history with
  | .error fault => (.error fault, arena)
  | .ok index =>
    (.ok (), { arena with
      nodes := arena.nodes.modify index fun node => { node with action := some action } })

/-- The action after a history. -/
def get (arena : PolicyArena) (history : List Observation) : Except PolicyFault Action := do
  let index ← arena.locate history
  match actionAt? arena.nodes index with
  | some action => .ok action
  | none => .error (.unsetHistory history)

/-- The action under the cursor. -/
def current (arena : PolicyArena) : Except PolicyFault Action :=
  match arena.cursor with
  | none => .error .exhausted
  | some index =>
    match actionAt? arena.nodes index with
    | some action => .ok action
    | none => .error .unsetNode

/-- The action under the cursor, which moves on by the observation that followed it. -/
def next (arena : PolicyArena) (observation : Observation) :
    Except PolicyFault Action × PolicyArena :=
  match arena.cursor with
  | none => (.error .exhausted, arena)
  | some index =>
    match arena.current with
    | .error fault => (.error fault, arena)
    | .ok action =>
      if (edgesAt arena.nodes index).isEmpty then (.ok action, { arena with cursor := none })
      else
        match child? arena.nodes index observation with
        | some child => (.ok action, { arena with cursor := some child })
        | none => (.error (.noBranch observation), arena)

/-- Puts the cursor back to the root. -/
def reset (arena : PolicyArena) : PolicyArena := { arena with cursor := some 0 }

/-! ### As a tree -/

/-- What hangs below a node, as far down as a depth. -/
def unfold (nodes : Array ArenaNode) : (depth : Nat) → (index : Nat) → DecisionNode
  | 0, index => .node (actionAt? nodes index) []
  | depth + 1, index =>
    .node (actionAt? nodes index)
      ((edgesAt nodes index).map fun edge => (edge.1, unfold nodes depth edge.2))

/-- The tree of all nodes. -/
def root (arena : PolicyArena) : DecisionNode := unfold arena.nodes (arena.horizon - 1) 0

end PolicyArena

end MarkovPlanning
