/-
How pruning goes through a list.

The vectors stay where they are, and what is carried along are the positions of those that are
left.  The first stage walks over all positions, and puts what it has left in order at the end.  The
second stage goes through these positions with an index.  The index moves on when a vector stays,
and stands still when one goes, as the next one then comes to its place.

What is left is handed out in two ways.  Sparse vectors are looked up at the positions.  Dense ones
are walked over once more with the positions beside them, and a position is used up when the walk
comes to it.
-/
import MarkovPlanning.Pomdp.Dense
import MarkovPlanning.Pomdp.Envelope

namespace MarkovPlanning.Envelope

variable {α : Type} [Scalar α] {n : Nat}

/-! ### Positions -/

/-- The positions that the first stage leaves, in order. -/
def pointwise (vectors : Fin n → List α) : List (Fin n) :=
  (unmatched vectors (List.finRange n)).mergeSort

/-- The second stage from an index on. -/
def sift (settings : Settings α) (vectors : Fin n → List α) (left : List (Fin n)) (index : Nat) :
    List (Fin n) :=
  if h : index < left.length then
    let others := left.eraseIdx index
    if hasWitness settings (vectors left[index]) (others.map vectors) then
      sift settings vectors left (index + 1)
    else sift settings vectors others index
  else left
termination_by left.length - index
decreasing_by
  · omega
  · rw [List.length_eraseIdx_of_lt h]
    omega

/-- The positions of the vectors that make up the upper envelope over a number of states. -/
def survivingPositions (settings : Settings α) (vectors : Fin n → List α) (states : Nat) :
    Except NumericFault (List (Fin n)) :=
  if n = 0 then .ok []
  else if states = 0 then .error .noStates
  else
    let left := pointwise vectors
    .ok (if left.length ≤ 1 then left else sift settings vectors left 0)

/-! ### Vectors -/

/-- The items that a walk meets at some positions, counted from a number on. -/
def met {β : Type} : (count : Nat) → (positions : List Nat) → (items : List β) → List β
  | _, _, [] => []
  | _, [], _ :: _ => []
  | count, next :: positions, item :: items =>
    if next = count then item :: met (count + 1) positions items
    else met (count + 1) (next :: positions) items

/-- The sparse vectors that make up the upper envelope over a collection of states. -/
def pruneSparse (states : Collection .state) (gamma : List (AlphaVector α)) :
    Except NumericFault (List (AlphaVector α)) := do
  let kept ← survivingPositions .standard (fun i => states.toList.map (gamma.get i).get) states.size
  return kept.map gamma.get

/-- The dense vectors that make up the upper envelope over a number of states. -/
def pruneDense (settings : Settings α) (gamma : List (DenseAlpha α)) (states : Nat) :
    Except NumericFault (List (DenseAlpha α)) := do
  let kept ← survivingPositions settings (fun i => (gamma.get i).values) states
  return met 0 (kept.map Fin.val) gamma

end MarkovPlanning.Envelope
