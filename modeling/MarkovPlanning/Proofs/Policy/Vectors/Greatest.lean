/-
What a vector policy says of a belief in double precision.

A vector may have no value at a belief: an infinite coefficient of a state that the belief rules
out makes the sum no number, and so do infinities of both signs.  The best so far is given up for
a greater value only (`best?_concat`), and nothing that is no number is greater, or less, than
anything.

So a vector without a value is passed over wherever it stands behind one that has a value.  From
such a start the outcome is the greatest of the values, with the action of the first vector that
attains it, and it is the same for every order of the vectors that starts in such a way
(`value_tops`).  The first vector is taken up unseen, though: if it has no value, nothing is
greater, and it keeps its place whatever comes behind it (`value_of_not_valued`).
-/
import MarkovPlanning.Proofs.Double
import MarkovPlanning.Proofs.Policy.Vectors
import Mathlib

namespace MarkovPlanning

/-- Whether the value of a vector at a belief is a number, which may be infinite. -/
def AlphaVector.Valued (alpha : AlphaVector Float) (belief : Belief Float) : Prop :=
  alpha.dot belief ≤ alpha.dot belief

instance (alpha : AlphaVector Float) (belief : Belief Float) : Decidable (alpha.Valued belief) :=
  inferInstanceAs (Decidable (alpha.dot belief ≤ alpha.dot belief))

namespace VectorPolicy

variable {gamma rest : List (AlphaVector Float)} {first last : AlphaVector Float}
variable {belief : Belief Float} {best : Float × Action}
variable {policy : VectorPolicy Float} {epoch : Nat}

/-! ### A first vector without a value -/

theorem best?_of_not_valued (h : ¬first.Valued belief) (rest : List (AlphaVector Float)) :
    best? (first :: rest) belief = some (first.dot belief, first.action) := by
  induction rest using List.reverseRecOn with
  | nil => rfl
  | append_singleton rest last ih =>
      have hnot : ¬first.dot belief < last.dot belief := fun hlt =>
        h (Scalar.le_self_of_le (Scalar.le_of_lt hlt)).1
      rw [← List.cons_append, best?_concat, ih]
      exact congrArg some (if_neg hnot)

/-- **A first vector without a value is the best one**, whatever comes behind it. -/
theorem value_of_not_valued (hgamma : policy.gamma epoch = .ok (first :: rest))
    (h : ¬first.Valued belief) :
    policy.value epoch belief = .ok (first.dot belief, first.action) :=
  (value_eq_of_best? hgamma (best?_of_not_valued h rest)).1

/-! ### A first vector with a value -/

/-- The greatest of the values that are numbers, with the action of the first vector that attains
it. -/
structure Tops (gamma : List (AlphaVector Float)) (belief : Belief Float) (best : Float × Action) :
    Prop where
  number : best.1 ≤ best.1
  attained : ∃ before alpha after, gamma = before ++ alpha :: after ∧
    alpha.dot belief = best.1 ∧ alpha.action = best.2 ∧
      ∀ earlier ∈ before, ¬(earlier.dot belief == best.1) = true
  greatest : ∀ alpha ∈ gamma, alpha.Valued belief → alpha.dot belief ≤ best.1

namespace Tops

theorem singleton (h : first.Valued belief) :
    Tops [first] belief (first.dot belief, first.action) where
  number := h
  attained := ⟨[], first, [], rfl, rfl, rfl, by simp⟩
  greatest alpha halpha _ := by
    rw [List.mem_singleton.mp halpha]
    exact h

/-- A greater value takes the place of the greatest so far. -/
theorem replace (h : Tops gamma belief best) (hlt : best.1 < last.dot belief) :
    Tops (gamma ++ [last]) belief (last.dot belief, last.action) where
  number := Scalar.le_self_of_lt hlt
  attained := by
    refine ⟨gamma, last, [], rfl, rfl, rfl, fun earlier hearlier heq => ?_⟩
    have hle : last.dot belief ≤ earlier.dot belief := (Scalar.beq_iff.mp heq).2
    have hvalued : earlier.Valued belief := (Scalar.le_self_of_le hle).2
    exact Scalar.not_le_of_lt hlt (Scalar.le_trans hle (h.greatest earlier hearlier hvalued))
  greatest alpha halpha hvalued := by
    rcases List.mem_append.mp halpha with halpha | halpha
    · exact Scalar.le_trans (h.greatest alpha halpha hvalued) (Scalar.le_of_lt hlt)
    · rw [List.mem_singleton.mp halpha]
      exact Scalar.le_self_of_lt hlt

/-- A value that is not greater, or no number, changes nothing. -/
theorem keep (h : Tops gamma belief best) (hnot : ¬best.1 < last.dot belief) :
    Tops (gamma ++ [last]) belief best where
  number := h.number
  attained := by
    obtain ⟨before, alpha, after, rfl, hattained⟩ := h.attained
    exact ⟨before, alpha, after ++ [last], by simp, hattained⟩
  greatest alpha halpha hvalued := by
    rcases List.mem_append.mp halpha with halpha | halpha
    · exact h.greatest alpha halpha hvalued
    · rw [List.mem_singleton.mp halpha] at hvalued ⊢
      exact Scalar.le_of_not_lt h.number hvalued hnot

/-- The greatest value does not depend on the order of the vectors. -/
theorem beq_of_perm {gamma' : List (AlphaVector Float)} {best' : Float × Action}
    (h : Tops gamma belief best) (h' : Tops gamma' belief best') (hperm : gamma'.Perm gamma) :
    (best'.1 == best.1) = true := by
  have hle {gamma gamma' : List (AlphaVector Float)} {best best' : Float × Action}
      (h : Tops gamma belief best) (h' : Tops gamma' belief best') (hsub : gamma' ⊆ gamma) :
      best'.1 ≤ best.1 := by
    obtain ⟨before, alpha, after, rfl, hdot, -, -⟩ := h'.attained
    rw [← hdot]
    refine h.greatest alpha (hsub (by simp)) ?_
    rw [AlphaVector.Valued, hdot]
    exact h'.number
  exact Scalar.beq_iff.mpr ⟨hle h h' hperm.subset, hle h' h hperm.symm.subset⟩

end Tops

/-- The search for the best vector, behind a first one that has a value. -/
theorem exists_tops (h : first.Valued belief) (rest : List (AlphaVector Float)) :
    ∃ best, best? (first :: rest) belief = some best ∧ Tops (first :: rest) belief best := by
  induction rest using List.reverseRecOn with
  | nil => exact ⟨_, rfl, .singleton h⟩
  | append_singleton rest last ih =>
      obtain ⟨best, hbest, htops⟩ := ih
      rw [← List.cons_append, best?_concat, hbest]
      refine ⟨_, rfl, ?_⟩
      dsimp only
      split
      · next hlt => exact htops.replace hlt
      · next hnot => exact htops.keep hnot

/-- **Behind a first vector with a value, the value at a belief is the greatest of those that are
numbers, with the action of the first vector that attains it**, and another order of the vectors
that starts with a value has the same. -/
theorem value_tops (hgamma : policy.gamma epoch = .ok (first :: rest))
    (hfirst : first.Valued belief) :
    ∃ best, policy.value epoch belief = .ok best ∧ policy.get epoch belief = .ok best.2 ∧
      Tops (first :: rest) belief best ∧
      ∀ (other : VectorPolicy Float) (epoch' : Nat) (first' : AlphaVector Float)
        (rest' : List (AlphaVector Float)), other.gamma epoch' = .ok (first' :: rest') →
          (first' :: rest').Perm (first :: rest) → first'.Valued belief →
            ∃ best', other.value epoch' belief = .ok best' ∧ (best'.1 == best.1) = true := by
  obtain ⟨best, hbest, htops⟩ := exists_tops hfirst rest
  obtain ⟨hvalue, hget⟩ := value_eq_of_best? hgamma hbest
  refine ⟨best, hvalue, hget, htops, fun other epoch' first' rest' hgamma' hperm hfirst' => ?_⟩
  obtain ⟨best', hbest', htops'⟩ := exists_tops hfirst' rest'
  exact ⟨best', (value_eq_of_best? hgamma' hbest').1, htops.beq_of_perm htops' hperm⟩

/-! ### An infinite coefficient -/

/-- The policy that has some vectors for every epoch. -/
def stationary (gamma : List (AlphaVector Float)) : VectorPolicy Float where
  span := { epochs := 0 }
  gammas := #v[gamma]

/-- Mopping up is worth any price if the floor is wet. -/
def mop : AlphaVector Float := .ofList (.named .action "mop") [(.named .state "wet", 1 / 0)]

/-- Waiting is worth one if the floor is dry. -/
def wait : AlphaVector Float := .ofList (.named .action "wait") [(.named .state "dry", 1)]

/-- The belief that the floor is dry, so that mopping up has no value. -/
def dry : Belief Float := .ofList [(.named .state "dry", 1)]

/-- A vector without a value between two others is passed over. -/
theorem value_tops_mop :
    let sweep : AlphaVector Float :=
      .ofList (.named .action "sweep") [(.named .state "dry", 0.5)]
    sweep.Valued dry ∧ (stationary [sweep, mop, wait]).gamma 0 = .ok [sweep, mop, wait] ∧
      (stationary [sweep, mop, wait]).value 0 dry = .ok (1, .named .action "wait") ∧
      Tops [sweep, mop, wait] dry (1, .named .action "wait") ∧
      ∃ best, (stationary [wait, mop, sweep]).value 0 dry = .ok best ∧
        (best.1 == 1) = true := by
  intro sweep
  have hsweep : sweep.Valued dry := by decide +kernel
  have hgamma : (stationary [sweep, mop, wait]).gamma 0 = .ok [sweep, mop, wait] := rfl
  obtain ⟨best, hvalue, -, htops, hperm⟩ := value_tops hgamma hsweep
  have hwait : (stationary [sweep, mop, wait]).value 0 dry = .ok (1, .named .action "wait") :=
    (value_eq_of_best? rfl (by decide +kernel)).1
  obtain rfl : (1, .named .action "wait") = best := Except.ok.inj (hwait.symm.trans hvalue)
  exact ⟨hsweep, rfl, hwait, htops, hperm (stationary [wait, mop, sweep]) 0 wait [mop, sweep] rfl
    (List.reverse_perm [sweep, mop, wait]) (by decide +kernel)⟩

/-- **A first vector without a value hides the greatest value**, which the same vectors have in
another order. -/
theorem mop_not_tops :
    wait.Valued dry ∧ (stationary [mop, wait]).gamma 0 = .ok [mop, wait] ∧
      (¬∃ best, (stationary [mop, wait]).value 0 dry = .ok best ∧ Tops [mop, wait] dry best) ∧
      (stationary [wait, mop]).value 0 dry = .ok (1, .named .action "wait") := by
  refine ⟨by decide +kernel, rfl, ?_, (value_eq_of_best? rfl (by decide +kernel)).1⟩
  rintro ⟨best, hvalue, htops⟩
  have hmop : ¬mop.Valued dry := by decide +kernel
  have hfirst : (stationary [mop, wait]).value 0 dry = .ok (mop.dot dry, mop.action) :=
    value_of_not_valued rfl hmop
  obtain rfl : (mop.dot dry, mop.action) = best := Except.ok.inj (hfirst.symm.trans hvalue)
  exact hmop htops.number

end VectorPolicy

end MarkovPlanning
