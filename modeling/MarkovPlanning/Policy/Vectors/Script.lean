/-
Vector policies in files.

Each line gives an action, and after it states and their coefficients, in pairs.
It adds a vector to the set of the epoch that the file is at, which is the first
one until a line says otherwise.
-/
import MarkovPlanning.Policy.Script
import MarkovPlanning.Policy.Vectors

namespace MarkovPlanning.VectorPolicy

variable {α : Type} [Scalar α] [Numeral α]

/-- A policy that is being read, and the epoch the file is at. -/
structure Reading (α : Type) where
  policy : VectorPolicy α
  epoch : Nat := 0

/-- Reads states and coefficients in pairs. -/
def readPairs (line : Line) (states : Collection .state) :
    List String → Except Error (List (State × α))
  | [] => .ok []
  | [_] => line.refuse .vectorForm
  | state :: value :: rest => do
    let state ← line.find states state
    match Numeral.read? value with
    | none => line.refuse (.valueForm value)
    | some value =>
      let pairs ← readPairs line states rest
      return (state, value) :: pairs

/-- Reads a vector. -/
def readVector (line : Line) (states : Collection .state) (actions : Collection .action)
    (tokens : List String) : Except Error (AlphaVector α) :=
  match tokens with
  | action :: pairs =>
    if pairs.length % 2 = 0 then do
      let action ← line.find actions action
      let pairs ← readPairs line states pairs
      return .ofList action pairs
    else line.refuse .vectorForm
  | [] => line.refuse .vectorForm

/-- Takes in one line. -/
def Reading.take (states : Collection .state) (actions : Collection .action)
    (reading : Reading α) (line : Line) : Except Error (Reading α) :=
  match line.record with
  | .horizon number => do
    let epoch ← line.epoch reading.policy.span.slots number
    return { reading with epoch }
  | .tokens tokens => do
    let alpha ← readVector line states actions tokens
    let gamma ← reading.policy.gamma reading.epoch
    let policy ← reading.policy.set reading.epoch (gamma ++ [alpha])
    return { reading with policy }

/-- Reads a policy over a span. -/
def read (source : Source) (states : Collection .state) (actions : Collection .action)
    (span : Span) : Except Error (VectorPolicy α) := do
  let lines ← source.read
  let reading ← lines.foldlM (Reading.take states actions) { policy := empty span }
  return reading.policy

/-- A vector as a line. -/
def writeVector (alpha : AlphaVector α) : String :=
  writeTokens (alpha.action.name ::
    alpha.toList.flatMap fun (state, value) => [state.name, Numeral.write value])

/-- A policy as the text of a file. -/
def write (policy : VectorPolicy α) : String :=
  unlines ("# action : state : value : ..." ::
    policy.gammas.toList.zipIdx.flatMap fun (gamma, epoch) =>
      epochLines policy.span.isFinite epoch ++ gamma.map writeVector)

end MarkovPlanning.VectorPolicy
