/-
What an epoch is decided by depends on the decisions to go alone.

Over a finite span the sets of vectors are made from the last epoch backwards and
stored in reverse, and over an endless span they are made and given up until the last
one is left.  Either way there is one chain of sets, `gamma`, and no set knows how
long the span is: an epoch holds the set of its decisions to go, whatever went before
it, and an endless span holds the set of as many decisions as there are backups
(`envelopes_agree`).

The sets are the same lists, in the same order and with the same numbers.  Nothing is
assumed about the arithmetic.
-/
import MarkovPlanning.Proofs.Pomdp.Total

namespace MarkovPlanning

variable {α : Type} [Scalar α]

/-! ### The same process over another span -/

namespace Pomdp

/-- The same process with another number of epochs, where none is for an endless span. -/
def lasting (pomdp : Pomdp α) (epochs : Nat) : Pomdp α :=
  { pomdp with horizon := { pomdp.horizon with epochs } }

variable {pomdp : Pomdp α} {epochs : Nat}

omit [Scalar α] in
theorem populated_lasting : (pomdp.lasting epochs).Populated ↔ pomdp.Populated :=
  ⟨fun h => ⟨h.states, h.actions, h.observations⟩,
    fun h => ⟨h.states, h.actions, h.observations⟩⟩

end Pomdp

namespace EnvelopeIteration

variable {solver : EnvelopeIteration α} {pomdp : Pomdp α}

/-! ### The sets of a policy -/

/-- The set of vectors that a policy has for an epoch, or why there is none. -/
def planned (solver : EnvelopeIteration α) (pomdp : Pomdp α) (epoch : Nat) :
    Except Error (List (AlphaVector α)) := do
  let policy ← solver.solve pomdp
  policy.gamma epoch

/-- The settings for endless spans do not change the sets. -/
theorem gamma_withBackups (model : DensePomdp α) (backups decisions : Nat) :
    (solver.withBackups backups).gamma model decisions = solver.gamma model decisions := rfl

theorem planned_of_solve {policy : VectorPolicy α} {epoch : Nat} {gamma : List (AlphaVector α)}
    (hsolve : solver.solve pomdp = .ok policy) (hgamma : policy.gamma epoch = .ok gamma) :
    solver.planned pomdp epoch = .ok gamma := by
  unfold planned
  rw [hsolve]
  show Except.mapError Error.policy (policy.gamma epoch) = _
  rw [hgamma]
  rfl

theorem planned_of_not_populated (hempty : ¬ pomdp.Populated) (epochs epoch : Nat) :
    solver.planned (pomdp.lasting epochs) epoch = .error (.shape
      (.emptyPomdp pomdp.states.size pomdp.actions.size pomdp.observations.size)) := by
  unfold planned
  rw [solve_error (mt Pomdp.populated_lasting.mp hempty)]
  rfl

/-- **An epoch has the set of its decisions to go.** -/
theorem planned_finite (hpopulated : pomdp.Populated) {epochs epoch : Nat}
    (hepoch : epoch < epochs) :
    solver.planned (pomdp.lasting epochs) epoch
      = .ok ((solver.gamma pomdp.resolved (epochs - epoch)).map pomdp.resolved.sparse) := by
  have hlasting : (pomdp.lasting epochs).Populated := Pomdp.populated_lasting.mpr hpopulated
  obtain ⟨policy, hsolve, -, hgamma, -⟩ := solve_spec solver hlasting
  exact planned_of_solve hsolve (hgamma epoch hepoch)

/-- **An endless span has the set of as many decisions as there are backups.** -/
theorem planned_endless (hpopulated : pomdp.Populated) :
    solver.planned (pomdp.lasting 0) 0
      = .ok ((solver.gamma pomdp.resolved solver.backups).map pomdp.resolved.sparse) := by
  have hlasting : (pomdp.lasting 0).Populated := Pomdp.populated_lasting.mpr hpopulated
  obtain ⟨policy, hsolve, -, -, hgamma⟩ := solve_spec solver hlasting
  exact planned_of_solve hsolve (hgamma rfl)

/-- **Epochs with as many decisions to go have the same vectors**, whatever the length of the
span, and so has an endless span if that is the number of backups. -/
theorem envelopes_agree (solver : EnvelopeIteration α) (pomdp : Pomdp α) :
    (∀ epochs epochs' epoch epoch', epoch < epochs → epoch' < epochs' →
      epochs - epoch = epochs' - epoch' →
      solver.planned (pomdp.lasting epochs) epoch
        = solver.planned (pomdp.lasting epochs') epoch') ∧
    (∀ backups, 1 ≤ backups → (solver.withBackups backups).planned (pomdp.lasting 0) 0
      = solver.planned (pomdp.lasting backups) 0) ∧
    (pomdp.Populated → ∀ epochs, ∀ epoch < epochs, ∃ gamma,
      solver.planned (pomdp.lasting epochs) epoch = .ok gamma ∧ gamma ≠ []) := by
  by_cases hpopulated : pomdp.Populated
  · refine ⟨?_, ?_, ?_⟩
    · intro epochs epochs' epoch epoch' hepoch hepoch' hleft
      rw [planned_finite hpopulated hepoch, planned_finite hpopulated hepoch', hleft]
    · intro backups hbackups
      rw [planned_endless hpopulated, planned_finite hpopulated hbackups, gamma_withBackups]
      -- at least one backup is made, and that is all the setting changes
      show Except.ok (List.map _ (solver.gamma _ (max backups 1))) = _
      rw [Nat.max_eq_left hbackups, Nat.sub_zero]
    · intro _ epochs epoch hepoch
      refine ⟨_, planned_finite hpopulated hepoch, ?_⟩
      rw [Ne, List.map_eq_nil_iff]
      obtain ⟨before, hbefore⟩ : ∃ before, epochs - epoch = before + 1 :=
        ⟨epochs - epoch - 1, by omega⟩
      rw [hbefore]
      exact gamma_ne_nil hpopulated before
  · refine ⟨?_, ?_, fun h => absurd h hpopulated⟩
    · intro epochs epochs' epoch epoch' _ _ _
      rw [planned_of_not_populated hpopulated, planned_of_not_populated hpopulated]
    · intro backups _
      rw [planned_of_not_populated hpopulated, planned_of_not_populated hpopulated]

/-- The radio with two decisions to go, in a span of three epochs, in one of two and without
end. -/
theorem envelopes_agree_radio :
    let solver : EnvelopeIteration Float := .standard
    solver.planned ((radio 0).lasting 3) 1 = solver.planned ((radio 0).lasting 2) 0 ∧
    (solver.withBackups 2).planned ((radio 0).lasting 0) 0
      = solver.planned ((radio 0).lasting 2) 0 ∧
    ∃ gamma, solver.planned ((radio 0).lasting 2) 0 = .ok gamma ∧ gamma ≠ [] := by
  intro solver
  obtain ⟨hfinite, hendless, hholds⟩ := envelopes_agree solver (radio 0)
  have hpopulated : (radio 0).Populated := by
    constructor
    · simp [radio, Collection.ofList]
    · simp [radio, Collection.ofList]
    · simp [radio, Collection.ofList]
  exact ⟨hfinite 3 2 1 0 (by omega) (by omega) rfl, hendless 2 (by omega),
    hholds hpopulated 2 0 (by omega)⟩

end EnvelopeIteration

end MarkovPlanning
