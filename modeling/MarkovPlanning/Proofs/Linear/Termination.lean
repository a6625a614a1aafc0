/-
Enough pivots always suffice.

A phase visits tableaux with different basic columns, and every set of basic columns is a
basis of the first tableau: as many columns as there are rows, none of which follows from
the others.  So a phase makes fewer pivots than there are bases, and the two phases, which
draw on one supply of pivots, make fewer than twice as many.  `visited` lists the tableaux
of a phase, `Starts` tells where the phases of a program begin, and `maximize_terminates`
is the bound.
-/
import MarkovPlanning.Proofs.Linear.Bland
import MarkovPlanning.Proofs.Linear.Maximize
import Mathlib

namespace MarkovPlanning.Linear

namespace Tableau

/-! ### The tableaux of a phase -/

/-- The tableaux that a phase comes to, from the one it starts with. -/
def visited {α : Type} [Scalar α] {n m k : Nat} (eps : α) (firstPhase : Bool) :
    (pivots : Nat) → Tableau α n m k → List (Tableau α n m k)
  | 0, tableau => [tableau]
  | pivots + 1, tableau =>
    match tableau.entering? eps firstPhase with
    | none => [tableau]
    | some column =>
      match tableau.leaving? eps column with
      | none => [tableau]
      | some (row, _) =>
        tableau :: visited eps firstPhase pivots (tableau.pivot eps row column)

/-- **A run ends with the last tableau it visits**, and every other one costs a pivot. -/
theorem run_visited {α : Type} [Scalar α] {n m k : Nat} (eps : α) (firstPhase : Bool) :
    ∀ (pivots : Nat) (t : Tableau α n m k),
      (visited eps firstPhase pivots t).getLast? = some (run eps firstPhase pivots t).2.1 ∧
        (run eps firstPhase pivots t).2.2 + (visited eps firstPhase pivots t).length
          = pivots + 1 ∧
        ((run eps firstPhase pivots t).1 = .exhausted →
          (run eps firstPhase pivots t).2.2 = 0) := by
  intro pivots
  induction pivots with
  | zero =>
      intro t
      unfold run visited
      cases t.entering? eps firstPhase <;> simp
  | succ pivots ih =>
      intro t
      unfold run visited
      cases t.entering? eps firstPhase with
      | none => simp
      | some column =>
          cases hl : t.leaving? eps column with
          | none => simp [hl]
          | some best =>
              obtain ⟨row, r⟩ := best
              obtain ⟨hlast, hlength, hleft⟩ := ih (t.pivot eps row column)
              simp only [hl]
              refine ⟨?_, ?_, hleft⟩
              · rw [List.getLast?_cons, hlast, Option.getD_some]
              · rw [List.length_cons]
                omega

variable {K : Type} [Field K] [LinearOrder K] {n m k : Nat} {t : Tableau K n m k}
variable {firstPhase : Bool}

theorem head?_visited (pivots : Nat) (t : Tableau K n m k) :
    (visited 0 firstPhase pivots t).head? = some t := by
  cases pivots with
  | zero => rfl
  | succ pivots =>
      unfold visited
      cases t.entering? 0 firstPhase with
      | none => rfl
      | some column => cases hl : t.leaving? 0 column <;> simp [hl]

variable [IsStrictOrderedRing K]

/-- Each tableau of a phase comes from the one before by a step. -/
theorem isChain_visited : ∀ (pivots : Nat) (t : Tableau K n m k),
    (visited 0 firstPhase pivots t).IsChain
      fun t t' => ∃ row column, Step firstPhase t t' row column := by
  intro pivots
  induction pivots with
  | zero => intro t; exact List.isChain_singleton t
  | succ pivots ih =>
      intro t
      unfold visited
      cases he : t.entering? 0 firstPhase with
      | none => exact List.isChain_singleton t
      | some column =>
          have hfound : t.Found column (fun _ => True) (t.leaving? 0 column) := leaving?_found
          cases hl : t.leaving? 0 column with
          | none => simp [hl]
          | some best =>
              obtain ⟨row, r⟩ := best
              rw [hl] at hfound
              have hr : r = t.ratio column row := hfound.ratio_eq
              subst hr
              simp only [hl]
              refine (ih _).cons fun u hu => ?_
              rw [head?_visited, Option.mem_some_iff] at hu
              exact ⟨row, column, he, hfound, hu.symm⟩

variable {installed : Equation K (n + m + k)}

/-- A part of the way of a phase is a stretch of steps. -/
private theorem stretch_visited (hb : t.Basic) (hp : t.Priced installed) (pivots : Nat) {i j : Nat}
    (hij : i ≤ j) (hj : j < (visited 0 firstPhase pivots t).length) :
    Stretch firstPhase installed (j - i)
      fun s => (visited 0 firstPhase pivots t).getD (i + s) t := by
  have hsteps : ∀ s, s + 1 < (visited 0 firstPhase pivots t).length →
      ∃ row column, Step firstPhase ((visited 0 firstPhase pivots t).getD s t)
        ((visited 0 firstPhase pivots t).getD (s + 1) t) row column := by
    intro s hs
    rw [List.getD_eq_getElem _ _ (Nat.lt_of_succ_lt hs), List.getD_eq_getElem _ _ hs]
    exact List.isChain_iff_getElem.mp (isChain_visited pivots t) s hs
  have hwhole : Stretch firstPhase installed ((visited 0 firstPhase pivots t).length - 1)
      fun s => (visited 0 firstPhase pivots t).getD s t := by
    have hfirst : (visited 0 firstPhase pivots t).getD 0 t = t := by
      rw [List.getD_eq_getElem?_getD, ← List.head?_eq_getElem?, head?_visited, Option.getD_some]
    refine ⟨by rwa [hfirst], by rwa [hfirst], fun s hs => hsteps s (by omega)⟩
  obtain ⟨hbasic, hpriced, -⟩ := hwhole.valid (i := i) (by omega)
  exact ⟨hbasic, hpriced, fun s hs => hsteps (i + s) (by omega)⟩

/-- Every tableau that is visited is basic, over the same rows. -/
theorem basic_of_mem_visited (hb : t.Basic) (hp : t.Priced installed) {pivots : Nat}
    {u : Tableau K n m k} (hu : u ∈ visited 0 firstPhase pivots t) :
    u.Basic ∧ u.rowSpace = t.rowSpace := by
  obtain ⟨j, hj, rfl⟩ := List.getElem_of_mem hu
  have hstretch := stretch_visited hb hp pivots (Nat.zero_le j) hj
  obtain ⟨hbasic, -, hspace⟩ := hstretch.valid (i := j) (by omega)
  have hfirst : (visited 0 firstPhase pivots t).getD (0 + 0) t = t := by
    rw [List.getD_eq_getElem?_getD, ← List.head?_eq_getElem?, head?_visited, Option.getD_some]
  rw [hfirst] at hspace
  rw [zero_add, List.getD_eq_getElem _ _ hj] at hbasic hspace
  exact ⟨hbasic, hspace⟩

/-- **A phase visits no basis twice.** -/
theorem nodup_visited (hb : t.Basic) (hp : t.Priced installed) (pivots : Nat) :
    ((visited 0 firstPhase pivots t).map columns).Nodup := by
  refine List.pairwise_iff_getElem.mpr fun i j hi hj hij heq => ?_
  rw [List.length_map] at hi hj
  have hstretch := stretch_visited hb hp pivots hij.le hj
  refine hstretch.columns_ne (by omega) ?_
  rw [List.getElem_map, List.getElem_map] at heq
  rw [Nat.add_sub_cancel' hij.le, Nat.add_zero, List.getD_eq_getElem _ _ hj,
    List.getD_eq_getElem _ _ hi]
  exact heq.symm

/-! ### Bases -/

omit [LinearOrder K] [IsStrictOrderedRing K] in
/-- As many columns as there are rows, none of which follows from the others. -/
structure IsBasis (t : Tableau K n m k) (set : Finset (Fin (n + m + k))) : Prop where
  card : set.card = m
  independent : LinearIndepOn K (fun j i => (t.rows.get i).coefficient j) (set : Set _)

open Classical in
/-- The bases of a tableau. -/
noncomputable def bases (t : Tableau K n m k) : Finset (Finset (Fin (n + m + k))) :=
  Finset.univ.filter t.IsBasis

omit [IsStrictOrderedRing K] in
/-- The basic columns of a tableau are a basis of every tableau over the same rows. -/
theorem columns_mem_bases {first : Tableau K n m k} (hb : t.Basic)
    (hspace : t.rowSpace = first.rowSpace) : t.columns ∈ first.bases := by
  classical
  refine Finset.mem_filter.mpr ⟨Finset.mem_univ _, ?_, ?_⟩
  · rw [columns, Finset.card_image_of_injective _ fun i j h =>
      Identity.basis_injective hb.identity h, Finset.card_univ, Fintype.card_fin]
  · refine linearIndepOn_finset_iff.mpr fun g hg j hj => ?_
    obtain ⟨i, rfl⟩ := mem_columns.mp hj
    -- with the coefficients of the combination as values of the basic variables, the left sides
    -- of the first rows are zero, so those of all rows are
    have hker : first.rowSpace
        ≤ LinearMap.ker (Equation.leftSide (t.spread fun i => g (t.basis.get i))) := by
      refine Submodule.span_le.mpr ?_
      intro _ h
      obtain ⟨r, rfl⟩ := h
      rw [SetLike.mem_coe, LinearMap.mem_ker, Equation.leftSide_vector, eval_spread]
      have := congrFun hg r
      rw [columns, Finset.sum_image fun i _ i' _ he =>
        Identity.basis_injective hb.identity he] at this
      simpa only [Finset.sum_apply, Pi.smul_apply, smul_eq_mul, Pi.zero_apply, mul_comm] using this
    have hrow := LinearMap.mem_ker.mp (hker (hspace ▸ t.row_mem i))
    rwa [Equation.leftSide_vector, eval_row_spread hb.identity] at hrow

omit [LinearOrder K] [IsStrictOrderedRing K] in
/-- There are at most as many bases as ways to choose their columns. -/
theorem card_bases_le (t : Tableau K n m k) : t.bases.card ≤ (n + m + k).choose m := by
  classical
  have hsub : t.bases ⊆ Finset.univ.powersetCard m := fun set hset =>
    Finset.mem_powersetCard.mpr ⟨Finset.subset_univ _, (Finset.mem_filter.mp hset).2.card⟩
  calc t.bases.card ≤ (Finset.univ.powersetCard m).card := Finset.card_le_card hsub
    _ = (n + m + k).choose m := by
      rw [Finset.card_powersetCard, Finset.card_univ, Fintype.card_fin]

/-- A phase visits at most as many tableaux as there are bases. -/
theorem length_visited_le {first : Tableau K n m k} (hb : t.Basic) (hp : t.Priced installed)
    (hspace : t.rowSpace = first.rowSpace) (pivots : Nat) :
    (visited 0 firstPhase pivots t).length ≤ first.bases.card := by
  classical
  have hnodup : ((visited 0 firstPhase pivots t).map columns).Nodup := nodup_visited hb hp pivots
  rw [← List.length_map (f := columns), ← List.toFinset_card_of_nodup hnodup]
  refine Finset.card_le_card fun set hset => ?_
  obtain ⟨u, hu, rfl⟩ := List.mem_map.mp (List.mem_toFinset.mp hset)
  obtain ⟨hbasic, hspace'⟩ := basic_of_mem_visited hb hp hu
  exact columns_mem_bases hbasic (hspace'.trans hspace)

/-- **With as many pivots as there are bases a phase comes to its end**, and it makes fewer. -/
theorem run_ended {first : Tableau K n m k} (hb : t.Basic) (hp : t.Priced installed)
    (hspace : t.rowSpace = first.rowSpace) {pivots : Nat} (h : first.bases.card ≤ pivots) :
    (run 0 firstPhase pivots t).1 ≠ .exhausted ∧
      pivots < (run 0 firstPhase pivots t).2.2 + first.bases.card := by
  obtain ⟨-, hlength, hleft⟩ := run_visited 0 firstPhase pivots t
  have hle : (visited 0 firstPhase pivots t).length ≤ first.bases.card :=
    length_visited_le hb hp hspace pivots
  refine ⟨fun hex => ?_, by omega⟩
  have := hleft hex
  omega

/-! ### The phases of a program -/

variable {program : Program K}

omit [IsStrictOrderedRing K] in
/-- The tableaux that the phases of a program start from. -/
inductive Starts (program : Program K) : (firstPhase : Bool) → Of program → Prop
  /-- The first phase, where there are artificial variables. -/
  | first (h : artificials program ≠ 0) :
      Starts program true ((ofProgram program).withCost 0 artificialCost)
  /-- The second phase without a first one. -/
  | only (h : artificials program = 0) :
      Starts program false ((ofProgram program).withCost 0 (objectiveCost program.objective))
  /-- The second phase after a first one that found a point. -/
  | second (h : artificials program ≠ 0) {pivots left : Nat} {last : Of program}
      (hrun : run 0 true pivots ((ofProgram program).withCost 0 artificialCost)
        = (.optimal, last, left))
      (hzero : ¬0 < -last.cost.side) :
      Starts program false
        ((last.driveOut 0).withCost 0 (objectiveCost program.objective))

theorem run_first (program : Program K) (pivots : Nat) :
    let result := run 0 true pivots ((ofProgram program).withCost 0 artificialCost)
    Valid program artificialCost result.2.1 ∧ Stopped true result.2.1 result.1 :=
  run_spec (P := Valid program artificialCost) (fun _ _ _ _ h hs => h.step hs) pivots _
    (Valid.withCost (ofProgram_basic program) rfl)

/-- The tableaux that the phases start from are valid. -/
theorem Starts.valid {firstPhase : Bool} {start : Of program}
    (h : Starts program firstPhase start) : ∃ installed, Valid program installed start := by
  have hstart := ofProgram_basic program
  cases h with
  | first _ => exact ⟨_, Valid.withCost hstart rfl⟩
  | only _ => exact ⟨_, Valid.withCost hstart rfl⟩
  | @second _ pivots left last hrun hzero =>
      have hvalid := (run_first program pivots).1
      rw [hrun] at hvalid
      obtain ⟨hb, hspace, -⟩ := driveOut_spec hvalid.basic (hvalid.side_eq_zero (not_lt.mp hzero))
      exact ⟨_, Valid.withCost hb (hspace.trans hvalid.space)⟩

/-- A phase that starts with as many pivots as there are bases comes to its end. -/
theorem Starts.ended {firstPhase : Bool} {start : Of program}
    (h : Starts program firstPhase start) {pivots : Nat}
    (hpivots : (ofProgram program).bases.card ≤ pivots) :
    (run 0 firstPhase pivots start).1 ≠ .exhausted ∧
      pivots < (run 0 firstPhase pivots start).2.2 + (ofProgram program).bases.card := by
  obtain ⟨installed, hvalid⟩ := h.valid
  exact run_ended hvalid.basic hvalid.priced hvalid.space hpivots

omit [IsStrictOrderedRing K] in
theorem secondPhase_eq_pivotLimit {t : Of program} {pivots : Nat}
    (h : (t.secondPhase 0 program.objective pivots).1 = .pivotLimit) :
    (run 0 false pivots (t.withCost 0 (objectiveCost program.objective))).1 = .exhausted := by
  unfold secondPhase at h
  split at h
  · cases h
  · cases h
  · rename_i hrun
    rw [hrun]

end Tableau

open Tableau

variable {K : Type} [Field K] [LinearOrder K] [IsStrictOrderedRing K]

/-- **Without rounding, twice as many pivots as there are bases are always enough**, since neither
phase visits a basis twice. -/
theorem maximize_terminates (program : Program K) :
    (∀ settings : Settings K, settings.tolerance = 0 →
      2 * (ofProgram program).bases.card ≤ settings.maxPivots →
        (maximize settings program).outcome ≠ .pivotLimit) ∧
    ∀ firstPhase start, Starts program firstPhase start → ∀ pivots,
      ((visited 0 firstPhase pivots start).map columns).Nodup := by
  constructor
  · intro settings htol hpivots hlimit
    simp only [maximize, htol] at hlimit
    by_cases hzero : artificials program = 0
    · rw [if_pos hzero] at hlimit
      exact ((Starts.only hzero).ended (by omega)).1 (secondPhase_eq_pivotLimit hlimit)
    · rw [if_neg hzero] at hlimit
      have hsupply : (ofProgram program).bases.card ≤ settings.maxPivots := by omega
      have hended := (Starts.first hzero).ended hsupply
      cases hresult : run 0 true settings.maxPivots
          ((ofProgram program).withCost 0 artificialCost) with
      | mk verdict rest =>
          obtain ⟨last, left⟩ := rest
          rw [hresult] at hlimit hended
          cases verdict with
          | exhausted => exact hended.1 rfl
          | unbounded =>
              obtain ⟨hvalid, hstop⟩ := run_first program settings.maxPivots
              rw [hresult] at hvalid hstop
              exact hvalid.not_unbounded hstop
          | optimal =>
              dsimp only at hlimit hended
              by_cases hpos : 0 < -last.cost.side
              · rw [if_pos hpos] at hlimit
                cases hlimit
              · rw [if_neg hpos] at hlimit
                exact ((Starts.second hzero hresult hpos).ended (by omega)).1
                  (secondPhase_eq_pivotLimit hlimit)
  · intro firstPhase start h pivots
    obtain ⟨installed, hvalid⟩ := h.valid
    exact nodup_visited hvalid.basic hvalid.priced pivots

/-- A program on which other rules for the entering column run in a circle: two of the three
bounds are zero. -/
def stalling : Program ℚ :=
  .ofMatrix [3/4, -150, 1/50, -6] [[1/4, -60, -1/25, 9], [1/2, -90, -1/50, 3], [0, 0, 1]] [0, 0, 1]

theorem maximize_terminates_stalling :
    let settings : Settings ℚ := { maxPivots := 70, tolerance := 0 }
    2 * (ofProgram stalling).bases.card ≤ settings.maxPivots ∧
      (maximize settings stalling).outcome ≠ .pivotLimit ∧
      ((visited 0 false 70 ((ofProgram stalling).withCost 0
        (objectiveCost stalling.objective))).map columns).Nodup := by
  intro settings
  have hcard : 2 * (ofProgram stalling).bases.card ≤ settings.maxPivots :=
    Nat.mul_le_mul_left 2 (card_bases_le (ofProgram stalling))
  exact ⟨hcard, (maximize_terminates stalling).1 settings rfl hcard,
    (maximize_terminates stalling).2 _ _ (.only (by decide +kernel)) 70⟩

end MarkovPlanning.Linear
