/-
The upper envelope of a set of alpha vectors.

Of a set of vectors only those matter that are better than all others at some
belief.  A vector that another one matches in every state is dropped first, the
first of equal ones being kept.  Each vector left is then tested against the
others that are still there: it stays if a linear program finds a belief at which
it beats them all by more than the tolerance.

The program maximises the margin `delta` of such a witness `b`: for every other
vector `beta`, the value of `beta - alpha` at `b`, plus `delta`, is at most zero,
and the entries of `b` add up to one.
-/
import MarkovPlanning.Belief.AlphaVector
import MarkovPlanning.Linear.Simplex

namespace MarkovPlanning.Envelope

/-- Settings of the search for witnesses. -/
structure Settings (α : Type) where
  /-- The margin that a witness has to exceed. -/
  tolerance : α
  program : Linear.Settings α

variable {α : Type} [Scalar α]

/-- A margin of nine decimals, and the usual settings for linear programs. -/
def Settings.standard : Settings α where
  tolerance := 1e-9
  program := .standard

/-! ### State by state -/

/-- Whether one vector is at least as good as another in every state. -/
def matches? (alpha beta : List α) : Bool := (alpha.zip beta).all fun (x, y) => y ≤ x

/-- Takes a vector into a set, unless a member matches it, and drops the members it matches. -/
def takeIn {β : Type} (values : β → List α) (kept : List β) (item : β) : List β :=
  if kept.any fun other => matches? (values other) (values item) then kept
  else kept.filter (fun other => !matches? (values item) (values other)) ++ [item]

/-- The members of a list that no other member matches, the first of equal ones. -/
def unmatched {β : Type} (values : β → List α) (items : List β) : List β :=
  items.foldl (takeIn values) []

/-! ### Witnesses -/

/-- The linear program for a belief at which `alpha` beats all of `others`.  Its last variable is
the margin. -/
def witnessProgram (alpha : List α) (others : List (List α)) : Linear.Program α where
  objective := List.replicate alpha.length 0 ++ [1]
  constraints :=
    let total : List α := List.replicate alpha.length 1 ++ [0]
    others.map (fun beta =>
      { coefficients := List.zipWith (· - ·) beta alpha ++ [1], bound := 0 }) ++
    [{ coefficients := total, bound := 1 }, { coefficients := total.map (-·), bound := -1 }]

/-- Whether `alpha` is better than all of `others` at some belief.  It is taken to be if the
search for a witness is given up. -/
def hasWitness (settings : Settings α) (alpha : List α) (others : List (List α)) : Bool :=
  others.isEmpty ||
    match (Linear.maximize settings.program (witnessProgram alpha others)).outcome with
    | .optimal _ margin => settings.tolerance < margin
    | .infeasible => false
    | .unbounded | .pivotLimit => true

/-- Tests the vectors of `waiting` in turn against the others that are still there. -/
def winnow {β : Type} (settings : Settings α) (values : β → List α) (kept : List β) :
    (waiting : List β) → List β
  | [] => kept
  | item :: waiting =>
    if hasWitness settings (values item) ((kept ++ waiting).map values) then
      winnow settings values (kept ++ [item]) waiting
    else winnow settings values kept waiting

/-- The members of a list whose vectors make up its upper envelope, in the order of the list. -/
def survivors {β : Type} (settings : Settings α) (values : β → List α) (items : List β) :
    List β :=
  winnow settings values [] (unmatched values items)

/-- The vectors of a list that make up its upper envelope over a collection of states. -/
def prune (states : Collection .state) (gamma : List (AlphaVector α)) :
    Except NumericFault (List (AlphaVector α)) :=
  if gamma.isEmpty then .ok []
  else if states.isEmpty then .error .noStates
  else .ok (survivors .standard (fun alpha => states.toList.map alpha.get) gamma)

end MarkovPlanning.Envelope
