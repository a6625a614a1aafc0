/-
Every tableau that the simplex method comes to.

The method makes a tableau, installs costs, makes pivots in the one or the other phase, and in
between drives artificial variables out.  `Reachable` lists these calls, with the rows that were
gone through by the last one and the costs that were installed.  The calls keep two things.  The
tableau is a basic one over the first rows with the installed costs (`Reachable.valid`), and in the
rows that were gone through every artificial variable that is still basic is retired
(`Reachable.retired`); the second phase never touches such a row, because its columns are zero
there.  What that means for rows, basis and costs is `sound_of_reachable`.
-/
import MarkovPlanning.Proofs.Linear.Maximize
import Mathlib

namespace MarkovPlanning.Linear.Tableau

variable {K : Type} [Field K] [LinearOrder K]

/-- Costs as they are installed. -/
def costRow {width : Nat} (costs : Vector K width) : Equation K width where
  coefficients := costs
  side := 0

/-- The tableaux that the calls of the method lead to, without rounding, with the number of rows
that artificial variables were driven out of and the costs that were installed last. -/
inductive Reachable (program : Program K) : Nat →
    Vector K (program.objective.length + program.constraints.length + artificials program) →
    Of program → Prop
  | made : Reachable program 0 (Vector.replicate _ 0) (ofProgram program)
  | install {driven : Nat} {before : Vector K _} {t : Of program}
      (h : Reachable program driven before t) (costs : Vector K _) :
      Reachable program driven costs (t.withCost 0 (costRow costs))
  /-- The first phase comes before any row was gone through, the second one after all were. -/
  | pivots {driven : Nat} {costs : Vector K _} {t : Of program}
      (h : Reachable program driven costs t) (firstPhase : Bool)
      (hphase : driven = 0 ∨ program.constraints.length ≤ driven ∧ firstPhase = false)
      (pivots : Nat) : Reachable program driven costs (run 0 firstPhase pivots t).2.1
  /-- Rows are gone through when the artificial variables are zero. -/
  | drive {t : Of program} (h : Reachable program 0 artificialCost.coefficients t)
      (hzero : ¬0 < -t.cost.side) (rows : Nat) :
      Reachable program rows artificialCost.coefficients
        (((List.finRange _).take rows).foldl (fun t row => t.driveRow 0 row) t)

variable {program : Program K} {t : Of program} {driven : Nat}
variable {costs :
  Vector K (program.objective.length + program.constraints.length + artificials program)}

/-! ### The two phases -/

/-- The tableau that so many pivots of the first phase lead to. -/
def afterFirst (program : Program K) (pivots : Nat) : Of program :=
  (run 0 true pivots ((ofProgram program).withCost 0 artificialCost)).2.1

/-- The tableau that so many pivots of the second phase lead to. -/
def afterSecond (t : Of program) (pivots : Nat) : Of program :=
  (run 0 false pivots (t.withCost 0 (objectiveCost program.objective))).2.1

namespace Reachable

theorem afterFirst (program : Program K) (pivots : Nat) :
    Reachable program 0 artificialCost.coefficients (afterFirst program pivots) :=
  (made.install _).pivots true (.inl rfl) pivots

/-- All rows are gone through. -/
theorem driveOut (h : Reachable program 0 artificialCost.coefficients t)
    (hzero : ¬0 < -t.cost.side) :
    Reachable program program.constraints.length artificialCost.coefficients (t.driveOut 0) := by
  have hall := h.drive hzero program.constraints.length
  rwa [List.take_of_length_le List.length_finRange.le, ← driveOut_eq] at hall

theorem afterSecond (h : Reachable program driven costs t)
    (hdriven : driven = 0 ∨ program.constraints.length ≤ driven) (pivots : Nat) :
    Reachable program driven (objectiveCost program.objective).coefficients
      (t.afterSecond pivots) :=
  (h.install _).pivots false (hdriven.imp_right fun hall => ⟨hall, rfl⟩) pivots

end Reachable

/-! ### What every call keeps -/

/-- What is true of the tableaux of a program at any time. -/
structure Sound (program : Program K) (driven : Nat)
    (costs : Vector K
      (program.objective.length + program.constraints.length + artificials program))
    (t : Of program) : Prop where
  /-- The rows have the solutions of the first rows. -/
  solves_iff : ∀ y, t.Solves y ↔ (ofProgram program).Solves y
  basis_injective : Function.Injective t.basis.get
  identity : ∀ i j, (t.rows.get i).coefficient (t.basis.get j) = if i = j then 1 else 0
  sides : ∀ i, 0 ≤ (t.rows.get i).side
  cost_basis : ∀ i, t.cost.coefficient (t.basis.get i) = 0
  /-- Of the installed costs every row was taken away as often as its basic column costs. -/
  reduced : t.cost.vector = (costRow costs).vector -
    ∑ i, costs.get (t.basis.get i) • (t.rows.get i).vector
  /-- Artificial variables that stay basic are zero, and their rows hold nothing else. -/
  retired : ∀ i, i.val < driven → isArtificial (t.basis.get i) = true →
    (t.rows.get i).side = 0 ∧ ∀ j, isArtificial j = false → (t.rows.get i).coefficient j = 0

/-- The installed costs without the rows are the costs of a valid tableau. -/
theorem Valid.reduced (h : Valid program (costRow costs) t) :
    t.cost.vector = (costRow costs).vector -
      ∑ i, costs.get (t.basis.get i) • (t.rows.get i).vector := by
  obtain ⟨factors, hfactors⟩ := (Submodule.mem_span_range_iff_exists_fun K).mp h.priced.reduced
  -- the basic columns tell the factors
  have hfactor (j : Fin program.constraints.length) : factors j = costs.get (t.basis.get j) := by
    have hcolumn := congrFun hfactors (some (t.basis.get j))
    simp only [Finset.sum_apply, Pi.smul_apply, Pi.sub_apply, Equation.vector_some, smul_eq_mul,
      h.basic.identity, h.priced.basic, mul_ite, mul_one, mul_zero, Finset.sum_ite_eq',
      Finset.mem_univ, if_true, sub_zero] at hcolumn
    exact hcolumn
  simp only [← hfactor, hfactors, sub_sub_cancel]

variable [IsStrictOrderedRing K]

namespace Reachable

/-- **Every call leaves a basic tableau over the first rows, with the installed costs.** -/
theorem valid (h : Reachable program driven costs t) : Valid program (costRow costs) t := by
  induction h with
  | made =>
      refine ⟨ofProgram_basic program, ⟨fun i => ?_, ?_⟩, rfl⟩
      · simp [ofProgram, Equation.zero, Equation.coefficient, Vector.get_eq_getElem]
      · have hcost : (costRow (Vector.replicate _ 0)).vector = (ofProgram program).cost.vector :=
          rfl
        rw [hcost, sub_self]
        exact Submodule.zero_mem _
  | install _ costs ih => exact Valid.withCost ih.basic ih.space
  | pivots _ firstPhase _ pivots ih =>
      exact (run_spec (fun _ _ _ _ h hs => h.step hs) pivots _ ih).1
  | @drive t _ hzero rows ih =>
      have hside := ih.side_eq_zero (not_lt.mp hzero)
      have hdriven := foldl_driveRow ih.basic hside ((List.finRange _).take rows)
      exact ⟨hdriven.basic, hdriven.priced _ ih.priced, hdriven.space.trans ih.space⟩

/-- **In the rows that were gone through, artificial variables are retired**, and stay so. -/
theorem retired (h : Reachable program driven costs t) :
    ∀ i : Fin program.constraints.length, i.val < driven → isArtificial (t.basis.get i) = true →
      (t.rows.get i).side = 0 ∧
        ∀ j, isArtificial j = false → (t.rows.get i).coefficient j = 0 := by
  induction h with
  | made => exact fun i hi => absurd hi (Nat.not_lt_zero _)
  | install _ _ ih => exact ih
  | @pivots driven costs t h firstPhase hphase pivots ih =>
      obtain rfl | ⟨hall, rfl⟩ := hphase
      · exact fun i hi => absurd hi (Nat.not_lt_zero _)
      have hbefore : t.Retired :=
        ⟨fun i hbasis => (ih i (i.isLt.trans_le hall) hbasis).1,
          fun i hbasis => (ih i (i.isLt.trans_le hall) hbasis).2⟩
      have hafter := (run_spec (fun _ _ _ _ h hs => h.step hs) pivots t hbefore).1
      exact fun i _ hbasis => ⟨hafter.side i hbasis, hafter.row i hbasis⟩
  | @drive t h hzero rows ih =>
      have hside := h.valid.side_eq_zero (not_lt.mp hzero)
      have hdriven := foldl_driveRow h.valid.basic hside ((List.finRange _).take rows)
      intro i hi hbasis
      have hmem : i ∈ (List.finRange program.constraints.length).take rows :=
        List.mem_take_iff_getElem.mpr ⟨i, by simpa using hi, by simp⟩
      exact ⟨hdriven.side i hbasis, hdriven.row i hmem hbasis⟩

end Reachable

/-- **What is true of every tableau that the calls of the method lead to.** -/
theorem sound_of_reachable (h : Reachable program driven costs t) :
    Sound program driven costs t where
  solves_iff _ := h.valid.solves_iff
  basis_injective _ _ heq := Identity.basis_injective h.valid.basic.identity heq
  identity := h.valid.basic.identity
  sides := h.valid.basic.sides
  cost_basis := h.valid.priced.basic
  reduced := h.valid.reduced
  retired := h.retired

/-- A variable between one and one. -/
def pinned : Program ℚ where
  objective := [1]
  constraints := [⟨[1], 1⟩, ⟨[-1], -1⟩]

/-- The first phase leaves an artificial variable in the second row, and the column that takes its
place has a negative coefficient there. -/
theorem sound_pinned :
    let last := afterFirst pinned 9
    let freed := last.driveOut 0
    let final := freed.afterSecond 9
    let second : Fin pinned.constraints.length := ⟨1, by decide⟩
    isArtificial (last.basis.get second) = true ∧
      (last.rows.get second).coefficient (freed.basis.get second) < 0 ∧
      Sound pinned 0 artificialCost.coefficients last ∧
      Sound pinned 2 (objectiveCost pinned.objective).coefficients final ∧
      final.point.toList = [1] := by
  intro last freed final second
  have hlast := Reachable.afterFirst pinned 9
  have hzero : ¬0 < -last.cost.side := by decide +kernel
  have hfinal := (hlast.driveOut hzero).afterSecond (.inr le_rfl) 9
  exact ⟨by decide +kernel, by decide +kernel, sound_of_reachable hlast, sound_of_reachable hfinal,
    by decide +kernel⟩

end MarkovPlanning.Linear.Tableau
