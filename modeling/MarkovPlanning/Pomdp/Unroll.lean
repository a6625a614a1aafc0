/-
Vector policies as trees.

From a first belief on, a policy over a finite span makes each decision at the
belief that the observations so far lead to.  The tree of these decisions is as
deep as the span.  It is made blank, and the decisions are set one by one, each
before those of the histories that go on from it.  An observation that cannot be
made leaves the belief as it is, so that every history has a decision.
-/
import MarkovPlanning.Policy.Tree
import MarkovPlanning.Policy.Vectors
import MarkovPlanning.Pomdp.Filter

namespace MarkovPlanning.Pomdp

variable {α : Type} [Scalar α]

/-- The belief after an observation, or the one before it if it cannot be made. -/
def updateOrKeep (pomdp : Pomdp α) (belief : Belief α) (action : Action)
    (observation : Observation) : Belief α :=
  match pomdp.update belief action observation with
  | .ok updated => updated
  | .error _ => belief

/-- Sets the decision after a history, where the belief is given, and then those after the
histories that go on from it by up to `depth` observations. -/
def fill (pomdp : Pomdp α) (policy : VectorPolicy α) :
    (depth : Nat) → (history : List Observation) → Belief α → PolicyTree →
      Except PolicyFault PolicyTree
  | 0, history, belief, tree => do
    let action ← policy.get history.length belief
    tree.set history action
  | depth + 1, history, belief, tree => do
    let action ← policy.get history.length belief
    let tree ← tree.set history action
    pomdp.observations.toList.foldlM (fun tree observation =>
      fill pomdp policy depth (history ++ [observation])
        (pomdp.updateOrKeep belief action observation) tree) tree

/-- The tree of the decisions of a policy from a first belief on. -/
def unroll (pomdp : Pomdp α) (policy : VectorPolicy α) (belief : Belief α) :
    Except Error PolicyTree := do
  if !policy.span.isFinite then
    throw (.shape .endlessTree)
  let tree ← PolicyTree.blank pomdp.observations policy.span.epochs
  fill pomdp policy (tree.horizon - 1) [] belief tree

end MarkovPlanning.Pomdp
