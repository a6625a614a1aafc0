/-
Policy trees in files.

Each line gives a history of observations and the action after it.  A file may say
which horizon it is for, and is refused for a tree of another one.
-/
import MarkovPlanning.Policy.Script
import MarkovPlanning.Policy.Tree

namespace MarkovPlanning.PolicyTree

/-- Takes in one line. -/
def take (observations : Collection .observation) (actions : Collection .action)
    (tree : PolicyTree) (line : Line) : Except Error PolicyTree :=
  match line.record with
  | .horizon number =>
    if number = tree.horizon then .ok tree
    else line.refuse (.horizonDiffers tree.horizon number)
  | .tokens tokens => do
    let history := tokens.dropLast
    if tree.horizon ≤ history.length then
      line.refuse (.historyTooDeep history.length)
    else
      let history ← history.mapM (line.find observations)
      let action ← line.find actions (tokens.getLastD "")
      tree.set history action

/-- Reads a tree of a horizon over some observations. -/
def read (source : Source) (actions : Collection .action)
    (observations : Collection .observation) (horizon : Nat) : Except Error PolicyTree := do
  let tree ← blank observations horizon
  let lines ← source.read
  lines.foldlM (take observations actions) tree

/-- A tree as the text of a file. -/
def write (tree : PolicyTree) : String :=
  unlines ("# observation : ... : action" :: ("horizon: " ++ toString tree.horizon) ::
    (tree.root.decisions []).map fun (history, action) =>
      writeTokens (history.map Entity.name ++ [action.name]))

end MarkovPlanning.PolicyTree
