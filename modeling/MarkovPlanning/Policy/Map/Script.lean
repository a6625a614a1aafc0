/-
Policy maps in files.

Each line gives the action of a state at the epoch that the file is at, which is
the first one until a line says otherwise.  A later line about the same state and
epoch takes the place of an earlier one.
-/
import MarkovPlanning.Policy.Map
import MarkovPlanning.Policy.Script

namespace MarkovPlanning.PolicyMap

/-- A policy that is being read, and the epoch the file is at. -/
structure Reading where
  policy : PolicyMap
  epoch : Nat := 0

/-- Takes in one line. -/
def Reading.take (states : Collection .state) (actions : Collection .action)
    (reading : Reading) (line : Line) : Except Error Reading :=
  match line.record with
  | .horizon number => do
    let epoch ← line.epoch reading.policy.span.slots number
    return { reading with epoch }
  | .tokens [state, action] => do
    let state ← line.find states state
    let action ← line.find actions action
    let policy ← reading.policy.set reading.epoch state action
    return { reading with policy }
  | .tokens _ => line.refuse .mappingForm

/-- Reads a policy over a span. -/
def read (source : Source) (states : Collection .state) (actions : Collection .action)
    (span : Span) : Except Error PolicyMap := do
  let lines ← source.read
  let reading ← lines.foldlM (Reading.take states actions) { policy := empty span }
  return reading.policy

/-- The lines of one epoch. -/
def writeEpoch (span : Span) (mapping : EntityMap .state Action) (epoch : Nat) : List String :=
  epochLines span.isFinite epoch ++
    mapping.toList.map fun (state, action) => writeTokens [state.name, action.name]

/-- A policy as the text of a file. -/
def write (policy : PolicyMap) : String :=
  unlines ("# state : action" ::
    policy.epochs.toList.zipIdx.flatMap fun (mapping, epoch) =>
      writeEpoch policy.span mapping epoch)

end MarkovPlanning.PolicyMap
