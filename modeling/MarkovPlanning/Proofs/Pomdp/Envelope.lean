/-
Pruning keeps the upper envelope and nothing else.

The second stage of pruning tests the vectors that the first one leaves, one by one,
against all others that are still there.  A vector that is turned away is missed by at
most the margin at any belief, but what comes up to it may be turned away later, so
the losses add up: `exists_winnow` counts one margin for every vector that goes.

A vector that is kept has a belief at which it is better than everything that was
there at its test, and what is there only gets less.  So at the end every survivor has
a belief at which it is better than all other survivors (`Separated`).  A set with that
property passes both stages untouched: nothing in it is matched, and every test finds
the margin again, whatever the linear program does.  That is why pruning is
idempotent, and copies of survivors do not survive because the first stage drops them.
-/
import MarkovPlanning.Proofs.Pomdp.Matching
import MarkovPlanning.Proofs.Pomdp.Witness
import Mathlib

namespace MarkovPlanning.Envelope

/-! ### What is left is something -/

section
variable {α : Type} [Scalar α] {β : Type} {values : β → List α}

theorem winnow_sublist (settings : Settings α) : ∀ (waiting kept : List β),
    (winnow settings values kept waiting).Sublist (kept ++ waiting) := by
  intro waiting
  induction waiting with
  | nil => intro kept; rw [List.append_nil]; exact List.Sublist.refl _
  | cons item rest ih =>
      intro kept
      unfold winnow
      split
      · simpa using ih (kept ++ [item])
      · exact (ih kept).trans (List.Sublist.append_left (List.sublist_cons_self _ _) kept)

theorem winnow_ne_nil (settings : Settings α) : ∀ (waiting kept : List β), kept ++ waiting ≠ [] →
    winnow settings values kept waiting ≠ [] := by
  intro waiting
  induction waiting with
  | nil =>
      intro kept h
      rw [List.append_nil] at h
      exact h
  | cons item rest ih =>
      intro kept h
      unfold winnow
      split
      · exact ih _ (by simp)
      · rename_i hno
        refine ih _ fun hnil => hno ?_
        -- the last vector left has nothing to be better than
        rw [hnil]
        rfl

theorem survivors_subset (settings : Settings α) (items : List β) :
    survivors settings values items ⊆ items :=
  fun _ hx => unmatched_subset items ((winnow_sublist settings _ []).subset hx)

/-- **Pruning never leaves nothing of something.** -/
theorem survivors_ne_nil (settings : Settings α) {items : List β} (h : items ≠ []) :
    survivors settings values items ≠ [] :=
  winnow_ne_nil settings _ [] (unmatched_ne_nil h)

end

variable {K : Type} [Field K] [LinearOrder K] [IsStrictOrderedRing K] {n : Nat}
variable {β : Type} {values : β → List K} {settings : Settings K}

/-! ### The others

A vector is tested against what is kept before it and what waits after it.
-/

theorem mem_of_mem_others {kept rest : List β} {item x : β} (h : x ∈ kept ++ rest) :
    x ∈ kept ++ item :: rest := by
  simp only [List.mem_append, List.mem_cons] at h ⊢
  tauto

theorem mem_others {kept rest : List β} {item x : β} (h : x ∈ kept ++ item :: rest)
    (hne : x ≠ item) : x ∈ kept ++ rest := by
  simp only [List.mem_append, List.mem_cons] at h ⊢
  tauto

omit [Field K] [LinearOrder K] [IsStrictOrderedRing K] in
theorem length_others {kept rest : List β} {item : β}
    (hlen : ∀ x ∈ kept ++ item :: rest, (values x).length = n) :
    ∀ beta ∈ (kept ++ rest).map values, beta.length = n := by
  intro beta hbeta
  obtain ⟨x, hx, rfl⟩ := List.mem_map.mp hbeta
  exact hlen x (mem_of_mem_others hx)

/-! ### What is lost -/

/-- The number of vectors that the second stage removes. -/
def removed (settings : Settings K) (values : β → List K) (items : List β) : Nat :=
  (unmatched values items).length - (survivors settings values items).length

/-- **At a belief, the second stage loses at most one margin for each vector it removes.** -/
theorem exists_winnow (htol : settings.program.tolerance = 0) {b : List K} (hb : Weights n b) :
    ∀ (waiting kept : List β), (∀ x ∈ kept ++ waiting, (values x).length = n) →
      ∀ item ∈ kept ++ waiting, ∃ other ∈ winnow settings values kept waiting,
        Scalar.dot (values item) b ≤ Scalar.dot (values other) b +
          (((kept ++ waiting).length - (winnow settings values kept waiting).length : Nat) : K)
            * max 0 settings.tolerance := by
  have hloss : 0 ≤ max 0 settings.tolerance := le_max_left _ _
  intro waiting
  induction waiting with
  | nil =>
      intro kept _ item hitem
      rw [List.append_nil] at hitem
      exact ⟨item, hitem, le_add_of_nonneg_right (by positivity)⟩
  | cons candidate rest ih =>
      intro kept hlen item hitem
      unfold winnow
      by_cases hkeep : hasWitness settings (values candidate) ((kept ++ rest).map values) = true
      · rw [if_pos hkeep]
        rw [List.append_cons kept candidate rest] at hlen hitem ⊢
        exact ih _ hlen item hitem
      · rw [if_neg hkeep]
        have hrest : ∀ x ∈ kept ++ rest, (values x).length = n :=
          fun x hx => hlen x (mem_of_mem_others hx)
        have hcount : (kept ++ candidate :: rest).length
              - (winnow settings values kept rest).length
            = (kept ++ rest).length - (winnow settings values kept rest).length + 1 := by
          have hsub : (winnow settings values kept rest).Sublist (kept ++ rest) :=
            winnow_sublist settings rest kept
          have := hsub.length_le
          simp only [List.length_append, List.length_cons] at this ⊢
          omega
        rw [hcount, Nat.cast_add_one, add_mul, one_mul]
        by_cases hgone : item = candidate
        · -- the vector that goes is near another one, which may go later
          subst hgone
          obtain ⟨beta, hbeta, hnear⟩ := exists_near htol (hlen item (by simp))
            (length_others hlen) (Bool.eq_false_iff.mpr hkeep) hb
          obtain ⟨near, hmem, rfl⟩ := List.mem_map.mp hbeta
          obtain ⟨other, hother, hle⟩ := ih kept hrest near hmem
          exact ⟨other, hother, by linarith⟩
        · obtain ⟨other, hother, hle⟩ := ih kept hrest item (mem_others hitem hgone)
          exact ⟨other, hother, by linarith⟩

/-- At a belief, something that survives is as good as any given vector, but for one margin for
each vector removed. -/
theorem exists_survivor (htol : settings.program.tolerance = 0) {items : List β}
    (hlen : ∀ x ∈ items, (values x).length = n) {b : List K} (hb : Weights n b) {item : β}
    (hitem : item ∈ items) :
    ∃ other ∈ survivors settings values items,
      Scalar.dot (values item) b ≤ Scalar.dot (values other) b +
        (removed settings values items : K) * max 0 settings.tolerance := by
  obtain ⟨first, hfirst, hmatch⟩ := exists_unmatched hlen hitem
  have hlen' : ∀ x ∈ unmatched values items, (values x).length = n :=
    fun x hx => hlen x (unmatched_subset items hx)
  obtain ⟨other, hother, hle⟩ :=
    exists_winnow htol hb (unmatched values items) [] (by simpa using hlen') first
      (by simpa using hfirst)
  refine ⟨other, hother, le_trans ?_ hle⟩
  exact dot_le_of_matches? ((hlen' first hfirst).trans (hlen item hitem).symm) hb.nonneg hmatch

/-- Brought to the sum one, weights are those of a belief. -/
theorem weights_scale {w : List K} (hnonneg : ∀ p ∈ w, 0 ≤ p) (hpos : 0 < w.sum) :
    Weights w.length (w.map (w.sum⁻¹ * ·)) := by
  refine ⟨List.length_map _, fun p hp => ?_, ?_⟩
  · obtain ⟨q, hq, rfl⟩ := List.mem_map.mp hp
    exact mul_nonneg (inv_nonneg.mpr hpos.le) (hnonneg q hq)
  · rw [List.sum_map_mul_left, List.map_id', inv_mul_cancel₀ hpos.ne']

/-- Nothing has a value under weights that add up to zero. -/
theorem dot_eq_zero {w : List K} (hnonneg : ∀ p ∈ w, 0 ≤ p) (hzero : w.sum = 0) (xs : List K) :
    Scalar.dot xs w = 0 := by
  have hall : w = w.map ((0 : K) * ·) := by
    refine List.ext_getElem (by rw [List.length_map]) fun i hi _ => ?_
    have hle := List.single_le_sum hnonneg _ (List.getElem_mem hi)
    rw [List.getElem_map, zero_mul]
    exact le_antisymm (hle.trans hzero.le) (hnonneg _ (List.getElem_mem hi))
  rw [hall, dot_map_mul, zero_mul]

/-- Without a margin nothing is lost, and it does not matter what the weights add up to. -/
theorem exists_survivor_of_nonneg (htol : settings.program.tolerance = 0)
    (hmargin : settings.tolerance ≤ 0) {items : List β}
    (hlen : ∀ x ∈ items, (values x).length = n) {w : List K} (hw : w.length = n)
    (hnonneg : ∀ p ∈ w, 0 ≤ p) {item : β} (hitem : item ∈ items) :
    ∃ other ∈ survivors settings values items,
      Scalar.dot (values item) w ≤ Scalar.dot (values other) w := by
  rcases (List.sum_nonneg hnonneg).lt_or_eq with hpos | hzero
  · obtain ⟨other, hother, hle⟩ :=
      exists_survivor htol hlen (hw ▸ weights_scale hnonneg hpos) hitem
    rw [max_eq_left hmargin, mul_zero, add_zero, dot_map_mul, dot_map_mul] at hle
    exact ⟨other, hother, le_of_mul_le_mul_left hle (inv_pos.mpr hpos)⟩
  · obtain ⟨other, hother⟩ := List.exists_mem_of_ne_nil (survivors settings values items)
      (survivors_ne_nil settings (List.ne_nil_of_mem hitem))
    refine ⟨other, hother, ?_⟩
    rw [dot_eq_zero hnonneg hzero.symm, dot_eq_zero hnonneg hzero.symm]

/-- The height of the upper envelope of some vectors at a belief, if there are any. -/
def height? (values : β → List K) (items : List β) (b : List K) : Option K :=
  (items.map fun item => Scalar.dot (values item) b).max?

omit [IsStrictOrderedRing K] in
theorem height?_eq_some {items : List β} {b : List K} {top : K} :
    height? values items b = some top ↔
      (∃ item ∈ items, Scalar.dot (values item) b = top) ∧
        ∀ item ∈ items, Scalar.dot (values item) b ≤ top := by
  unfold height?
  rw [List.max?_eq_some_iff]
  simp only [List.mem_map, forall_exists_index, and_imp, forall_apply_eq_imp_iff₂]

omit [IsStrictOrderedRing K] in
theorem exists_height? {items : List β} (h : items ≠ []) (b : List K) :
    ∃ top, height? values items b = some top := by
  refine Option.isSome_iff_exists.mp (List.isSome_max?_of_ne_nil ?_)
  simpa using h

/-- **Pruning lowers the upper envelope by at most one margin for each vector that the second
stage removes**, and not at all without a margin. -/
theorem height_survivors (htol : settings.program.tolerance = 0)
    (hmargin : 0 ≤ settings.tolerance) {items : List β}
    (hlen : ∀ item ∈ items, (values item).length = n) {b : List K} (hb : Weights n b) {top : K}
    (htop : height? values items b = some top) :
    ∃ top', height? values (survivors settings values items) b = some top' ∧
      top - (removed settings values items : K) * settings.tolerance ≤ top' ∧ top' ≤ top ∧
      (settings.tolerance = 0 → top' = top) := by
  obtain ⟨⟨item, hitem, rfl⟩, hmax⟩ := height?_eq_some.mp htop
  have hleft : survivors settings values items ≠ [] :=
    survivors_ne_nil settings (List.ne_nil_of_mem hitem)
  obtain ⟨top', htop'⟩ : ∃ top', height? values (survivors settings values items) b = some top' :=
    exists_height? hleft b
  obtain ⟨⟨best, hbest, rfl⟩, hmax'⟩ := height?_eq_some.mp htop'
  obtain ⟨other, hother, hle⟩ := exists_survivor htol hlen hb hitem
  rw [max_eq_right hmargin] at hle
  have hlow := hmax' other hother
  have hhigh := hmax best (survivors_subset settings items hbest)
  refine ⟨_, htop', by linarith, hhigh, fun hzero => le_antisymm hhigh ?_⟩
  rw [hzero, mul_zero, add_zero] at hle
  exact le_trans hle hlow

/-- A margin of one fifth. -/
def coarse : Settings ℚ where
  tolerance := 1/5
  program := { maxPivots := 100, tolerance := 0 }

/-- Two vectors that cross, and one that runs a tenth above the crossing. -/
def crossing : List (List ℚ) := [[1, 0], [0, 1], [3/5, 3/5]]

/-- The third vector is removed, and where the others cross a tenth is missing. -/
theorem height_survivors_crossing :
    height? id crossing [1/2, 1/2] = some (3/5) ∧ removed coarse id crossing = 1 ∧
      ∃ top', height? id (survivors coarse id crossing) [1/2, 1/2] = some top' ∧
        3/5 - (removed coarse id crossing : ℚ) * coarse.tolerance ≤ top' ∧ top' ≤ 3/5 ∧
        (coarse.tolerance = 0 → top' = 3/5) := by
  have hweights : Weights 2 [(1/2 : ℚ), 1/2] :=
    ⟨rfl, by decide +kernel, by decide +kernel⟩
  have htop : height? id crossing [1/2, 1/2] = some (3/5) := by decide +kernel
  have hremoved : removed coarse id crossing = 1 := by decide +kernel
  exact ⟨htop, hremoved,
    height_survivors rfl (by decide +kernel) (by decide +kernel) hweights htop⟩

/-! ### What is kept -/

/-- The linear programs that are solved while the vectors of `waiting` are tested. -/
def witnessPrograms (settings : Settings K) (values : β → List K) (kept : List β) :
    (waiting : List β) → List (Linear.Program K)
  | [] => []
  | item :: waiting =>
    let others := (kept ++ waiting).map values
    (if others.isEmpty then [] else [witnessProgram (values item) others]) ++
      if hasWitness settings (values item) others then
        witnessPrograms settings values (kept ++ [item]) waiting
      else witnessPrograms settings values kept waiting

/-- Each of some vectors is better than all different ones of a list at some belief, by more than
the margin. -/
def Distinguished (n : Nat) (margin : K) (values : β → List K) (chosen all : List β) : Prop :=
  ∀ x ∈ chosen, ∃ b, Weights n b ∧
    ∀ y ∈ all, values y ≠ values x → Scalar.dot (values y) b + margin < Scalar.dot (values x) b

theorem winnow_distinguished (htol : settings.program.tolerance = 0) (hn : 0 < n) :
    ∀ (waiting kept : List β), (∀ x ∈ kept ++ waiting, (values x).length = n) →
      (∀ program ∈ witnessPrograms settings values kept waiting,
        (Linear.maximize settings.program program).outcome ≠ .pivotLimit) →
      Distinguished n settings.tolerance values kept (kept ++ waiting) →
      Distinguished n settings.tolerance values (winnow settings values kept waiting)
        (winnow settings values kept waiting) := by
  intro waiting
  induction waiting with
  | nil => intro kept _ _ h; rwa [List.append_nil] at h
  | cons item rest ih =>
      intro kept hlen hended h
      have hothers := length_others hlen
      unfold winnow
      by_cases hkeep : hasWitness settings (values item) ((kept ++ rest).map values) = true
      · rw [if_pos hkeep]
        rw [List.append_cons kept item rest] at hlen h
        refine ih _ hlen (fun program hp => hended program ?_) ?_
        · simp only [witnessPrograms, if_pos hkeep]
          exact List.mem_append_right _ hp
        · intro x hx
          rcases List.mem_append.mp hx with hx | hx
          · exact h x hx
          · -- the new vector beats what is there, and only itself is added to that
            obtain ⟨b, hb, hbeats⟩ := exists_witness htol hn (hlen item (by simp)) hothers
              (fun hne => hended _ (by
                simp only [witnessPrograms, List.isEmpty_iff.not.mpr hne]
                simp)) hkeep
            rw [List.mem_singleton.mp hx]
            refine ⟨b, hb, fun y hy hne => hbeats _ (List.mem_map_of_mem ?_)⟩
            rw [← List.append_cons] at hy
            exact mem_others hy fun heq => hne (congrArg values heq)
      · rw [if_neg hkeep]
        refine ih _ (fun x hx => hlen x (mem_of_mem_others hx))
          (fun program hp => hended program ?_) ?_
        · simp only [witnessPrograms, if_neg hkeep]
          exact List.mem_append_right _ hp
        · intro x hx
          obtain ⟨b, hb, hbeats⟩ := h x hx
          exact ⟨b, hb, fun y hy => hbeats y (mem_of_mem_others hy)⟩

/-- **A list whose members are distinguished passes every test.** -/
theorem winnow_eq_append (htol : settings.program.tolerance = 0)
    (hmargin : 0 ≤ settings.tolerance) :
    ∀ (waiting kept : List β), (∀ x ∈ kept ++ waiting, (values x).length = n) →
      (kept ++ waiting).Pairwise (Apart values) →
      Distinguished n settings.tolerance values waiting (kept ++ waiting) →
      winnow settings values kept waiting = kept ++ waiting := by
  intro waiting
  induction waiting with
  | nil => intro kept _ _ _; rw [List.append_nil]; rfl
  | cons item rest ih =>
      intro kept hlen hapart h
      have hothers := length_others hlen
      have hne : ∀ y ∈ kept ++ rest, values y ≠ values item := by
        intro y hy
        obtain ⟨-, hrest, hkept⟩ := List.pairwise_append.mp hapart
        rcases List.mem_append.mp hy with hy | hy
        · exact (hkept y hy item List.mem_cons_self).ne
        · exact ((List.pairwise_cons.mp hrest).1 y hy).ne.symm
      have hkeep : hasWitness settings (values item) ((kept ++ rest).map values) = true := by
        obtain ⟨b, hb, hbeats⟩ := h item List.mem_cons_self
        by_contra hno
        obtain ⟨beta, hbeta, hnear⟩ := exists_near htol (hlen item (by simp)) hothers
          (Bool.eq_false_iff.mpr hno) hb
        obtain ⟨y, hy, rfl⟩ := List.mem_map.mp hbeta
        have := hbeats y (mem_of_mem_others hy) (hne y hy)
        rw [max_eq_right hmargin] at hnear
        exact absurd this (not_lt.mpr hnear)
      unfold winnow
      rw [List.append_cons kept item rest] at hlen hapart h ⊢
      rw [if_pos hkeep, ih _ hlen hapart fun x hx => h x (List.mem_cons_of_mem _ hx)]

theorem survivors_append_eq (htol : settings.program.tolerance = 0)
    (hmargin : 0 ≤ settings.tolerance) {items : List β} (hlen : ∀ x ∈ items, (values x).length = n)
    (hapart : items.Pairwise (Apart values))
    (h : Distinguished n settings.tolerance values items items) {copies : List β}
    (hcopies : ∀ copy ∈ copies, copy ∈ items) :
    survivors settings values (items ++ copies) = items := by
  unfold survivors
  rw [unmatched_append hapart hcopies]
  exact winnow_eq_append htol hmargin items [] (by simpa using hlen) (by simpa using hapart)
    (by simpa using h)

/-- Each vector of a list is better than all others at some belief, by more than the margin. -/
def Separated (n : Nat) (margin : K) (values : β → List K) (items : List β) : Prop :=
  ∀ i (hi : i < items.length), ∃ b, Weights n b ∧ ∀ j (hj : j < items.length), j ≠ i →
    Scalar.dot (values items[j]) b + margin < Scalar.dot (values items[i]) b

omit [IsStrictOrderedRing K] in
theorem Distinguished.separated {margin : K} {items : List β}
    (h : Distinguished n margin values items items) (hapart : items.Pairwise (Apart values)) :
    Separated n margin values items := by
  intro i hi
  obtain ⟨b, hb, hbeats⟩ := h items[i] (List.getElem_mem hi)
  refine ⟨b, hb, fun j hj hne => hbeats _ (List.getElem_mem hj) ?_⟩
  rcases lt_or_gt_of_ne hne with hlt | hlt
  · exact (List.pairwise_iff_getElem.mp hapart j i hj hi hlt).ne
  · exact (List.pairwise_iff_getElem.mp hapart i j hi hj hlt).ne.symm

/-- **What survives is needed, and pruning it again changes nothing**, copies or not. -/
theorem survivors_minimal (hn : 0 < n) (htol : settings.program.tolerance = 0)
    (hmargin : 0 ≤ settings.tolerance) {items : List β}
    (hlen : ∀ item ∈ items, (values item).length = n)
    (hended : ∀ program ∈ witnessPrograms settings values [] (unmatched values items),
      (Linear.maximize settings.program program).outcome ≠ .pivotLimit) :
    Separated n settings.tolerance values (survivors settings values items) ∧
      survivors settings values (survivors settings values items)
        = survivors settings values items ∧
      ∀ copies : List β, (∀ copy ∈ copies, copy ∈ survivors settings values items) →
        survivors settings values (survivors settings values items ++ copies)
          = survivors settings values items := by
  have hfirst : ∀ x ∈ [] ++ unmatched values items, (values x).length = n :=
    fun x hx => hlen x (unmatched_subset items (by simpa using hx))
  have hleft : ∀ x ∈ survivors settings values items, (values x).length = n :=
    fun x hx => hlen x (survivors_subset settings items hx)
  have hsub : (survivors settings values items).Sublist (unmatched values items) :=
    winnow_sublist settings (unmatched values items) []
  have hapart : (survivors settings values items).Pairwise (Apart values) :=
    (unmatched_pairwise items).sublist hsub
  have hdistinct : Distinguished n settings.tolerance values (survivors settings values items)
      (survivors settings values items) :=
    winnow_distinguished htol hn _ [] hfirst hended fun x hx => by simp at hx
  have hcopies : ∀ copies : List β, (∀ copy ∈ copies, copy ∈ survivors settings values items) →
      survivors settings values (survivors settings values items ++ copies)
        = survivors settings values items :=
    fun copies hc => survivors_append_eq htol hmargin hleft hapart hdistinct hc
  refine ⟨hdistinct.separated hapart, ?_, hcopies⟩
  simpa using hcopies [] (by simp)

theorem survivors_minimal_crossing :
    survivors coarse id crossing = [[1, 0], [0, 1]] ∧
      Separated 2 coarse.tolerance id (survivors coarse id crossing) ∧
      survivors coarse id (survivors coarse id crossing) = survivors coarse id crossing ∧
      ∀ copies, (∀ copy ∈ copies, copy ∈ survivors coarse id crossing) →
        survivors coarse id (survivors coarse id crossing ++ copies)
          = survivors coarse id crossing := by
  have hprograms : (witnessPrograms coarse id [] (unmatched id crossing)).all fun program =>
      match (Linear.maximize coarse.program program).outcome with
      | .pivotLimit => false
      | _ => true := by decide +kernel
  have hended : ∀ program ∈ witnessPrograms coarse id [] (unmatched id crossing),
      (Linear.maximize coarse.program program).outcome ≠ .pivotLimit := by
    intro program hprogram hlimit
    have := List.all_eq_true.mp hprograms program hprogram
    rw [hlimit] at this
    exact absurd this (by decide)
  exact ⟨by decide +kernel,
    survivors_minimal (by decide) rfl (by decide +kernel) (by decide +kernel) hended⟩

end MarkovPlanning.Envelope
