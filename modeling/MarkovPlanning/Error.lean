/-
What can go wrong, by cause.

Each cause is a constructor that keeps what a caller may want to look at; the
wording is in the `message` functions alone.  Causes are grouped by what failed: a
look-up, a definition, a query of a policy, the shape of a problem, the numbers,
or a line of a policy file.  A function that can fail in one way only says so in
its type, and `Error` joins the groups for functions that can fail in several.
-/
import MarkovPlanning.Entity.Basic

namespace MarkovPlanning

/-- A look-up that found nothing. -/
inductive LookupFault where
  | notFound (kind : Kind) (name : String)
  | indexOutOfRange (index size : Nat)
deriving DecidableEq, Repr

/-- An object that cannot be used as it stands. -/
inductive DefinitionFault where
  /-- A factor was to be replaced by no entities at all. -/
  | noMembers (kind : Kind)
  /-- A factor has no members when the product is formed. -/
  | emptyFactor (kind : Kind) (factor : Nat)
  /-- A factor was edited since the product was formed. -/
  | staleProduct (kind : Kind)
  /-- A policy tree without a single decision. -/
  | noDecisions
deriving DecidableEq, Repr

/-- A query that a policy has no answer to. -/
inductive PolicyFault where
  | epochOutside (epoch slots : Nat)
  | noAction (state : State) (epoch : Nat)
  | noVectors (epoch : Nat)
  | unsetHistory (history : List Observation)
  | outsideTree (history : List Observation)
  | unsetNode
  | noBranch (observation : Observation)
  | exhausted
deriving DecidableEq

/-- A problem of a shape that a planner does not take. -/
inductive ShapeFault where
  | emptyMdp (states actions : Nat)
  | emptyPomdp (states actions observations : Nat)
  /-- Policy iteration was asked for a finite horizon. -/
  | finiteHorizon
  /-- Policy iteration was asked for blocks of no sweeps. -/
  | noSweeps
  /-- A policy tree was asked for without a last epoch. -/
  | endlessTree
deriving DecidableEq, Repr

/-- A computation that has no answer in numbers. -/
inductive NumericFault where
  | unsolvableShape (rows columns sides : Nat)
  | singular (column : Nat)
  | noStates
  | impossible (observation : Observation) (action : Action)
deriving DecidableEq

/-- A line of a policy file that does not say anything. -/
inductive LineFault where
  | emptyToken
  | horizonForm
  | horizonNumber (token : String)
  | horizonZero
  | horizonBeyond (horizon slots : Nat)
  | horizonDiffers (tree file : Nat)
  | mappingForm
  | vectorForm
  | valueForm (token : String)
  | historyTooDeep (observations : Nat)
deriving DecidableEq, Repr

/-- Everything that can go wrong. -/
inductive Error where
  | lookup (fault : LookupFault)
  | definition (fault : DefinitionFault)
  | policy (fault : PolicyFault)
  | shape (fault : ShapeFault)
  | numeric (fault : NumericFault)
  /-- A malformed line; lines are counted from one. -/
  | line (number : Nat) (fault : LineFault)
  /-- A well-formed line that names something unknown. -/
  | atLine (number : Nat) (fault : LookupFault)
  /-- A file that is missing or is not text. -/
  | unreadable
deriving DecidableEq

/-! ### Wording -/

def LookupFault.message : LookupFault → String
  | notFound kind name => kind.name ++ " '" ++ name ++ "' was not found"
  | indexOutOfRange index size =>
      "index " ++ toString index ++ " is out of range for a collection of " ++ toString size

def DefinitionFault.message : DefinitionFault → String
  | noMembers kind => "a " ++ kind.name ++ " factor must contain at least one entity"
  | emptyFactor kind factor => kind.name ++ " factor " ++ toString factor ++ " is empty"
  | staleProduct kind =>
      "joint " ++ kind.name ++ "s are stale; call update() after editing factors"
  | noDecisions => "a policy tree needs a horizon of at least one"

/-- A history as it is shown in messages. -/
def describeHistory (history : List Observation) : String :=
  "[" ++ ", ".intercalate (history.map Entity.name) ++ "]"

def PolicyFault.message : PolicyFault → String
  | epochOutside epoch slots =>
      "epoch " ++ toString epoch ++ " is outside the policy's " ++ toString slots ++ " epochs"
  | noAction state epoch =>
      "no action for state '" ++ state.name ++ "' at epoch " ++ toString epoch
  | noVectors epoch => "no alpha vectors at epoch " ++ toString epoch
  | unsetHistory history => "no action after history " ++ describeHistory history
  | outsideTree history => "history " ++ describeHistory history ++ " leaves the tree"
  | unsetNode => "no action at the current node"
  | noBranch observation => "observation '" ++ observation.name ++ "' has no branch"
  | exhausted => "policy tree is exhausted"

def ShapeFault.message : ShapeFault → String
  | emptyMdp states actions =>
      "an MDP needs at least one state and one action (got " ++ toString states ++ " and " ++
        toString actions ++ ")"
  | emptyPomdp states actions observations =>
      "a POMDP needs states, actions and observations (got " ++ toString states ++ ", " ++
        toString actions ++ " and " ++ toString observations ++ ")"
  | finiteHorizon => "policy iteration requires an infinite horizon"
  | noSweeps => "modified policy iteration needs k >= 1"
  | endlessTree => "policy trees need a finite horizon"

def NumericFault.message : NumericFault → String
  | unsolvableShape rows columns sides =>
      "cannot solve a " ++ toString rows ++ "x" ++ toString columns ++ " system against " ++
        toString sides ++ " right-hand sides"
  | singular column =>
      "singular system (column " ++ toString column ++ " has no usable pivot)"
  | noStates => "cannot prune alpha vectors over an empty state space"
  | impossible observation action =>
      "observation '" ++ observation.name ++ "' is impossible after action '" ++
        action.name ++ "'"

def LineFault.message : LineFault → String
  | emptyToken => "empty token"
  | horizonForm => "expected `horizon: <n>`"
  | horizonNumber token => "invalid horizon '" ++ token ++ "'"
  | horizonZero => "horizons are numbered from 1"
  | horizonBeyond horizon slots =>
      "horizon " ++ toString horizon ++ " exceeds the policy's " ++ toString slots ++ " epochs"
  | horizonDiffers tree file =>
      "tree has horizon " ++ toString tree ++ ", file says " ++ toString file
  | mappingForm => "expected `state : action`"
  | vectorForm => "expected `action : state : value ...`"
  | valueForm token => "invalid value '" ++ token ++ "'"
  | historyTooDeep observations =>
      "history of " ++ toString observations ++ " observations is too deep"

namespace Error

/-- The whole message.  A file that cannot be read is reported in the words of the system that
refused it, so there is no message of ours. -/
def message : Error → String
  | lookup fault => fault.message
  | definition fault => "invalid definition: " ++ fault.message
  | policy fault => "policy undefined: " ++ fault.message
  | shape fault => "incompatible problem shape: " ++ fault.message
  | numeric fault => "numeric failure: " ++ fault.message
  | line number fault => "line " ++ toString number ++ ": " ++ fault.message
  | atLine number fault => "line " ++ toString number ++ ": " ++ fault.message
  | unreadable => ""

instance : MonadLift (Except LookupFault) (Except Error) := ⟨Except.mapError lookup⟩
instance : MonadLift (Except DefinitionFault) (Except Error) := ⟨Except.mapError definition⟩
instance : MonadLift (Except PolicyFault) (Except Error) := ⟨Except.mapError policy⟩
instance : MonadLift (Except ShapeFault) (Except Error) := ⟨Except.mapError shape⟩
instance : MonadLift (Except NumericFault) (Except Error) := ⟨Except.mapError numeric⟩

end Error

end MarkovPlanning
