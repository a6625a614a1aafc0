/-
Policies that choose by what was observed.

A policy tree has a node for every sequence of observations shorter than its
horizon: the root stands for no observation, and every node but the last ones has
a branch for each observation.  A node holds an action once one has been set.

A tree can be asked for the action after a history, and it can be followed: a
cursor stands at the history so far, and each observation moves it along a branch.
Past a leaf there is nothing left to decide.
-/
import MarkovPlanning.Entity.Collection

namespace MarkovPlanning

/-- An action, if one is set, and what follows each observation. -/
inductive DecisionNode where
  | node (action : Option Action) (branches : List (Observation × DecisionNode))

namespace DecisionNode

/-- The node that decides nothing for `depth` more observations and itself. -/
def blank (observations : List Observation) : (depth : Nat) → DecisionNode
  | 0 => node none []
  | depth + 1 =>
    node none (observations.map fun observation => (observation, blank observations depth))

def action? : DecisionNode → Option Action
  | node action _ => action

def branches : DecisionNode → List (Observation × DecisionNode)
  | node _ branches => branches

/-- The node after an observation. -/
def branch? (tree : DecisionNode) (observation : Observation) : Option DecisionNode :=
  (tree.branches.find? (·.1 == observation)).map (·.2)

/-- The node after a history. -/
def descend? (tree : DecisionNode) : (history : List Observation) → Option DecisionNode
  | [] => some tree
  | observation :: history =>
    match tree.branch? observation with
    | some child => child.descend? history
    | none => none

/-- Changes what follows an observation. -/
def updateBranch (observation : Observation) (change : DecisionNode → Option DecisionNode) :
    List (Observation × DecisionNode) → Option (List (Observation × DecisionNode))
  | [] => none
  | (label, child) :: branches =>
    if label = observation then (change child).map fun child => (label, child) :: branches
    else (updateBranch observation change branches).map ((label, child) :: ·)

/-- Sets the action after a history. -/
def set? (action : Action) : (history : List Observation) → DecisionNode → Option DecisionNode
  | [], node _ branches => some (node (some action) branches)
  | observation :: history, node old branches =>
    (updateBranch observation (set? action history) branches).map (node old)

mutual

/-- The number of nodes. -/
def size : DecisionNode → Nat
  | node _ branches => 1 + sizes branches

/-- The number of nodes on some branches. -/
def sizes : List (Observation × DecisionNode) → Nat
  | [] => 0
  | (_, child) :: branches => size child + sizes branches

end

mutual

/-- The histories with an action, after a history that leads to the node.  A history comes
before the ones that extend it. -/
def decisions (history : List Observation) : DecisionNode → List (List Observation × Action)
  | node action branches =>
    (action.toList.map fun action => (history, action)) ++ branchDecisions history branches

/-- The histories with an action that start with one of some branches. -/
def branchDecisions (history : List Observation) :
    List (Observation × DecisionNode) → List (List Observation × Action)
  | [] => []
  | (observation, child) :: branches =>
    decisions (history ++ [observation]) child ++ branchDecisions history branches

end

end DecisionNode

/-- A tree of decisions and a place in it. -/
structure PolicyTree where
  /-- The number of decisions on a way through the tree. -/
  horizon : Nat
  root : DecisionNode
  /-- The history so far, unless a leaf has been passed. -/
  cursor : Option (List Observation) := some []

namespace PolicyTree

/-- The tree of a horizon that decides nothing. -/
def blank (observations : Collection .observation) (horizon : Nat) :
    Except DefinitionFault PolicyTree :=
  match horizon with
  | 0 => .error .noDecisions
  | depth + 1 => .ok { horizon := depth + 1, root := .blank observations.toList depth }

/-- The number of nodes. -/
def size (tree : PolicyTree) : Nat := tree.root.size

/-- Sets the action after a history. -/
def set (tree : PolicyTree) (history : List Observation) (action : Action) :
    Except PolicyFault PolicyTree :=
  match tree.root.set? action history with
  | some root => .ok { tree with root }
  | none => .error (.outsideTree history)

/-- The action after a history. -/
def get (tree : PolicyTree) (history : List Observation) : Except PolicyFault Action :=
  match tree.root.descend? history with
  | none => .error (.outsideTree history)
  | some node =>
    match node.action? with
    | some action => .ok action
    | none => .error (.unsetHistory history)

/-- The node at the cursor, with the history that leads there. -/
def place (tree : PolicyTree) : Except PolicyFault (List Observation × DecisionNode) :=
  match tree.cursor with
  | none => .error .exhausted
  | some history =>
    match tree.root.descend? history with
    | some node => .ok (history, node)
    | none => .error (.outsideTree history)

/-- The action at the cursor. -/
def current (tree : PolicyTree) : Except PolicyFault Action := do
  let (_, node) ← tree.place
  match node.action? with
  | some action => .ok action
  | none => .error .unsetNode

/-- The action at the cursor, and the tree with the cursor moved on by the observation that
followed it. -/
def next (tree : PolicyTree) (observation : Observation) :
    Except PolicyFault (Action × PolicyTree) := do
  let (history, node) ← tree.place
  let action ← tree.current
  if node.branches.isEmpty then
    return (action, { tree with cursor := none })
  else if (node.branch? observation).isSome then
    return (action, { tree with cursor := some (history ++ [observation]) })
  else
    .error (.noBranch observation)

/-- Puts the cursor back to the root. -/
def reset (tree : PolicyTree) : PolicyTree := { tree with cursor := some [] }

end PolicyTree

end MarkovPlanning
