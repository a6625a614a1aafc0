/-
What a sweep in place does.

A state that is visited sees the new values of the states before it and the old ones of the
others (`seen`), and is backed up against these (`sweep_spec`).

If backups move all values the same way, so does a sweep, as the new values that a state sees have
moved this way already.  And backups of what the sweep leaves move them this way again, because
they keep the order of values (`sweep_steered`).  So it is decided by the first values which way a
search goes.
-/
import MarkovPlanning.Proofs.Mdp.Slack
import MarkovPlanning.Proofs.Mdp.Sweep
import Mathlib

namespace MarkovPlanning.ValueIteration

variable {K : Type} [Field K] [LinearOrder K] {n m : Nat} {model : DenseMdp K n m} {mdp : Mdp K}
  {before values values' : Vector K n}

/-! ### What a sweep does -/

/-- What a state sees in the course of a sweep. -/
def seen (before after : Vector K n) (state : Fin n) : Vector K n :=
  Vector.ofFn fun other => if other < state then after.get other else before.get other

omit [Field K] [LinearOrder K] in
theorem get_seen (before after : Vector K n) (state other : Fin n) :
    (seen before after state).get other
      = if other < state then after.get other else before.get other :=
  Vector.get_ofFn _ _

omit [Field K] [LinearOrder K] in
/-- What holds of the old values and of the new ones holds of what a state sees. -/
theorem forall_seen {p : Fin n → K → Prop} {state : Fin n}
    (hbefore : ∀ other, p other (before.get other))
    (hafter : ∀ other < state, p other (after.get other)) (other : Fin n) :
    p other ((seen before after state).get other) := by
  rw [get_seen]
  split
  · rename_i hlt
    exact hafter other hlt
  · exact hbefore other

/-- What is known of a sweep that has visited the first states. -/
structure Sweep.Traced (model : DenseMdp K n m) (before : Vector K n) (done : Nat)
    (sweep : Sweep K n m) : Prop where
  value : ∀ state : Fin n, state.val < done →
    sweep.values.get state = (model.backup (seen before sweep.values state) state).value
  action : ∀ state : Fin n, state.val < done →
    sweep.choice.get state = (model.backup (seen before sweep.values state) state).action
  kept : ∀ state : Fin n, done ≤ state.val → sweep.values.get state = before.get state

theorem Sweep.get_choice_visit (sweep : Sweep K n m) (state other : Fin n) :
    (sweep.visit model state).choice.get other
      = if other = state then (model.backup sweep.values state).action
        else sweep.choice.get other := by
  simp only [visit, Vector.get_eq_getElem, Vector.getElem_set, Fin.ext_iff,
    eq_comm (a := other.val)]

/-- What the states up to the one that is visited see is not changed by the visit. -/
theorem Sweep.seen_visit (sweep : Sweep K n m) {state other : Fin n} (h : other ≤ state) :
    seen before (sweep.visit model state).values other = seen before sweep.values other := by
  unfold seen
  congr 1
  funext earlier
  split
  · rename_i hlt
    rw [get_visit, if_neg (hlt.trans_le h).ne]
  · rfl

/-- A visit backs up one state more. -/
theorem Sweep.Traced.visit {state : Fin n} {sweep : Sweep K n m}
    (h : Traced model before state sweep) :
    Traced model before (state + 1) (sweep.visit model state) := by
  -- the state sees the values as they are
  have hseen : seen before sweep.values state = sweep.values := by
    refine Vector.ext fun i hi => ?_
    have hget := get_seen before sweep.values state ⟨i, hi⟩
    split at hget
    · exact hget
    · rename_i hle
      exact hget.trans (h.kept ⟨i, hi⟩ (not_lt.mp hle)).symm
  refine ⟨fun other hother => ?_, fun other hother => ?_, fun other hother => ?_⟩
  · have hle : other ≤ state := Nat.le_of_lt_succ hother
    rw [get_visit, seen_visit _ hle]
    by_cases heq : other = state
    · rw [if_pos heq, heq, hseen]
    · rw [if_neg heq]
      exact h.value other (lt_of_le_of_ne hle (Fin.val_ne_of_ne heq))
  · have hle : other ≤ state := Nat.le_of_lt_succ hother
    rw [get_choice_visit, seen_visit _ hle]
    by_cases heq : other = state
    · rw [if_pos heq, heq, hseen]
    · rw [if_neg heq]
      exact h.action other (lt_of_le_of_ne hle (Fin.val_ne_of_ne heq))
  · rw [get_visit, if_neg (Fin.ne_of_val_ne (by omega))]
    exact h.kept other (by omega)

/-- **A sweep backs up each state against what it sees.** -/
theorem sweep_spec (model : DenseMdp K n m) (values : Vector K n)
    (choice : Vector (Fin m) n) :
    Sweep.Traced model values n (sweep model values choice) :=
  foldl_finRange (Sweep.Traced model values)
    ⟨fun _ h => absurd h (Nat.not_lt_zero _), fun _ h => absurd h (Nat.not_lt_zero _),
      fun _ _ => rfl⟩
    fun _ _ h => h.visit

/-! ### Values that move one way -/

/-- If backups keep the order of values and move some values one way, a sweep moves them this way,
and backups do so again. -/
theorem sweep_steered (r : K → K → Prop) [Std.Refl r] [IsTrans K r]
    (hbackup : ∀ {values values' : Vector K n},
      (∀ state, r (values.get state) (values'.get state)) → ∀ state,
        r (model.backup values state).value (model.backup values' state).value)
    (h : ∀ state, r (values.get state) (model.backup values state).value)
    (choice : Vector (Fin m) n) :
    (∀ state, r (values.get state) ((sweep model values choice).values.get state)) ∧
      ∀ state, r ((sweep model values choice).values.get state)
        (model.backup (sweep model values choice).values state).value := by
  have hsweep := sweep_spec model values choice
  generalize sweep model values choice = after at hsweep ⊢
  -- a state sees values that have moved already where it looks back
  have hmoved : ∀ state, r (values.get state) (after.values.get state) := by
    intro state
    induction state using WellFoundedLT.induction with
    | ind state ih =>
        rw [hsweep.value state state.isLt]
        refine trans_of r (h state) (hbackup ?_ state)
        exact forall_seen (p := fun other x => r (values.get other) x) (fun _ => refl_of r _) ih
  refine ⟨hmoved, fun state => ?_⟩
  rw [hsweep.value state state.isLt]
  refine hbackup ?_ state
  exact forall_seen (p := fun other x => r x (after.values.get other)) hmoved
    fun _ _ => refl_of r _

/-- **A search that converged made one sweep more than the search that is stopped before it**, and
began it with values that have what sweeps keep. -/
theorem improve_last_sweep {α : Type} [Scalar α] {model : DenseMdp α n m} {limit : Option α}
    {p : Vector α n → Prop}
    (hkeep : ∀ values choice, p values → p (sweep model values choice).values) :
    ∀ (sweeps made : Nat) (values : Vector α n) (choice : Vector (Fin m) n), p values →
      let found := improve model limit sweeps made values choice
      found.converged = true → ∃ done, found.iterations = made + done + 1 ∧
        let before := improve model limit done made values choice
        let last := sweep model before.values before.choice
        p before.values ∧ settled limit last.residual = true ∧
          found.values = last.values ∧ found.choice = last.choice := by
  intro sweeps
  induction sweeps with
  | zero => intro made values choice _ found hconverged; cases hconverged
  | succ sweeps ih =>
      intro made values choice hp found hconverged
      by_cases hsettled : settled limit (sweep model values choice).residual = true
      · have hfound : found = _ := if_pos hsettled
        exact ⟨0, congrArg Stationary.iterations hfound, hp, hsettled,
          congrArg Stationary.values hfound, congrArg Stationary.choice hfound⟩
      · have hmore : ∀ sweeps, improve model limit (sweeps + 1) made values choice
            = improve model limit sweeps (made + 1) (sweep model values choice).values
                (sweep model values choice).choice := fun _ => if_neg hsettled
        have hfound : found = _ := hmore sweeps
        rw [hfound] at hconverged
        obtain ⟨done, hiterations, hlast⟩ := ih _ _ _ (hkeep values choice hp) hconverged
        refine ⟨done + 1, ?_, ?_⟩
        · rw [hfound, hiterations]
          omega
        · dsimp only
          rw [hmore, hfound]
          exact hlast

/-- A search that converged ended with a settled sweep, over values that have what sweeps keep. -/
theorem improve_last {p : Vector K n → Prop} {limit : Option K}
    (hkeep : ∀ values choice, p values → p (sweep model values choice).values)
    (sweeps made : Nat) (values : Vector K n) (choice : Vector (Fin m) n) (hp : p values)
    (hconverged : (improve model limit sweeps made values choice).converged = true) :
    ∃ before choice', p before ∧
      settled limit (sweep model before choice').residual = true ∧
      (improve model limit sweeps made values choice).values
        = (sweep model before choice').values ∧
      (improve model limit sweeps made values choice).choice
        = (sweep model before choice').choice := by
  obtain ⟨done, -, hlast⟩ := improve_last_sweep hkeep sweeps made values choice hp hconverged
  exact ⟨_, _, hlast⟩

variable [IsStrictOrderedRing K]

/-- Backups keep the order of values. -/
theorem backup_mono (hmodel : model.Models mdp) (hclamped : mdp.Clamped)
    (hle : ∀ state, values.get state ≤ values'.get state) (state : Fin n) :
    (model.backup values state).value ≤ (model.backup values' state).value := by
  rw [(model.backup_spec values state).1]
  exact (hmodel.actionValue_mono hclamped hle state _).trans
    ((model.backup_spec values' state).2 _)

/-- Whether all backups of some values move them the same way. -/
def Steered (model : DenseMdp K n m) (values : Vector K n) : Prop :=
  (∀ state, values.get state ≤ (model.backup values state).value) ∨
    ∀ state, values.get state ≥ (model.backup values state).value

/-- A sweep moves such values the same way, and leaves such values. -/
theorem Steered.sweep (h : Steered model values) (hmodel : model.Models mdp)
    (hclamped : mdp.Clamped) (choice : Vector (Fin m) n) :
    ((∀ state, values.get state ≤ (sweep model values choice).values.get state) ∨
      ∀ state, values.get state ≥ (sweep model values choice).values.get state) ∧
    Steered model (sweep model values choice).values := by
  rcases h with hrising | hfalling
  · obtain ⟨hmoved, hagain⟩ := sweep_steered (· ≤ ·) (fun hle => backup_mono hmodel hclamped hle)
      hrising choice
    exact ⟨Or.inl hmoved, Or.inl hagain⟩
  · obtain ⟨hmoved, hagain⟩ := sweep_steered (· ≥ ·) (fun hle => backup_mono hmodel hclamped hle)
      hfalling choice
    exact ⟨Or.inr hmoved, Or.inr hagain⟩

end MarkovPlanning.ValueIteration
