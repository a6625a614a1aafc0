/-
Which vectors the first stage of pruning drops.

The first stage is a single walk: a vector that something kept so far matches is turned away, and
what it matches itself is given up again.  What made a vector go may go later, but then something
that matches it is there, and matching is transitive.  So a vector is kept up to some place exactly
if nothing up to that place drops it (`Kept`), where a vector drops another one that it matches
unless it is matched in return and comes later (`Drops`).  One more vector keeps this up
(`Kept.takeIn`), so it holds of the whole list (`kept_unmatched`).

In double precision matching is transitive as well, although there are vectors that do not even
match themselves: one with an entry that is no number is matched by nothing and matches nothing.
The second stage only takes vectors away, so no two vectors match at its end either, and of copies
none but the first is left (`survivingPositions_unmatched`).
-/
import MarkovPlanning.Proofs.Double
import MarkovPlanning.Proofs.Pomdp.Envelope.Positions
import Mathlib

namespace MarkovPlanning.Envelope

/-! ### What a walk keeps -/

section
variable {α β : Type} [Scalar α] [LinearOrder β] {values : β → List α} {seen kept items : List β}
  {item other : β}

/-- One vector drops another: it matches it, and comes first if it is matched in return. -/
def Drops (values : β → List α) (other item : β) : Prop :=
  matches? (values other) (values item) = true ∧
    (matches? (values item) (values other) = true → other < item)

/-- What is kept of the vectors seen: those that none of them drops.  Something kept stands for each
of them: the vector itself, or one that matches it. -/
structure Kept (values : β → List α) (seen kept : List β) : Prop where
  mem_iff : ∀ item, item ∈ kept ↔ item ∈ seen ∧ ∀ other ∈ seen, ¬Drops values other item
  covers : ∀ item ∈ seen, ∃ other ∈ kept,
    other = item ∨ matches? (values other) (values item) = true

/-- What matches a vector without dropping it is matched in return and does not come first. -/
theorem matched_of_not_drops (h : ¬Drops values other item)
    (hmatch : matches? (values other) (values item) = true) :
    matches? (values item) (values other) = true ∧ item ≤ other := by
  by_contra hnot
  exact h ⟨hmatch, fun hreturn => not_le.mp fun hle => hnot ⟨hreturn, hle⟩⟩

theorem not_drops_self : ¬Drops values item item :=
  fun h => lt_irrefl item (h.2 h.1)

variable (htrans : ∀ x y z, matches? (values x) (values y) = true →
  matches? (values y) (values z) = true → matches? (values x) (values z) = true)
include htrans

/-- A vector that something kept matches changes nothing. -/
theorem Kept.turnAway (h : Kept values seen kept) (hlater : ∀ other ∈ seen, other < item)
    (hother : other ∈ kept) (hmatch : matches? (values other) (values item) = true) :
    Kept values (seen ++ [item]) kept := by
  have hseen := ((h.mem_iff other).mp hother).1
  constructor
  · intro x
    simp only [List.mem_append, List.mem_singleton]
    constructor
    · intro hx
      obtain ⟨hxseen, hx⟩ := (h.mem_iff x).mp hx
      refine ⟨.inl hxseen, ?_⟩
      rintro y (hy | rfl)
      · exact hx y hy
      · intro hdrops
        -- by way of what matches the new vector, it is matched in return, and so comes first
        have hback := (matched_of_not_drops (hx other hseen) (htrans _ _ _ hmatch hdrops.1)).1
        exact (hlater x hxseen).not_gt (hdrops.2 (htrans _ _ _ hback hmatch))
    · rintro ⟨hx | rfl, hnone⟩
      · exact (h.mem_iff x).mpr ⟨hx, fun y hy => hnone y (.inl hy)⟩
      · exact absurd ⟨hmatch, fun _ => hlater other hseen⟩ (hnone other (.inl hseen))
  · intro x hx
    rcases List.mem_append.mp hx with hx | hx
    · exact h.covers x hx
    · rw [List.mem_singleton.mp hx]
      exact ⟨other, hother, .inr hmatch⟩

/-- What nothing kept matches, nothing that was seen matches. -/
theorem Kept.not_matches (h : Kept values seen kept)
    (hnone : ∀ other ∈ kept, ¬matches? (values other) (values item) = true)
    (hother : other ∈ seen) : ¬matches? (values other) (values item) = true := by
  intro hmatch
  obtain ⟨first, hfirst, rfl | hcover⟩ := h.covers other hother
  · exact hnone first hfirst hmatch
  · exact hnone first hfirst (htrans _ _ _ hcover hmatch)

/-- A vector that nothing kept matches is kept, and what it matches is given up. -/
theorem Kept.replace (h : Kept values seen kept)
    (hnone : ∀ other ∈ kept, ¬matches? (values other) (values item) = true) :
    Kept values (seen ++ [item])
      (kept.filter (fun other => !matches? (values item) (values other)) ++ [item]) := by
  have hmem (x : β) : x ∈ kept.filter (fun other => !matches? (values item) (values other)) ↔
      x ∈ kept ∧ ¬matches? (values item) (values x) = true := by
    simp
  constructor
  · intro x
    rw [List.mem_append, hmem]
    simp only [List.mem_append, List.mem_singleton]
    constructor
    · rintro (⟨hx, hitem⟩ | rfl)
      · obtain ⟨hxseen, hx⟩ := (h.mem_iff x).mp hx
        refine ⟨.inl hxseen, ?_⟩
        rintro y (hy | rfl)
        · exact hx y hy
        · exact fun hdrops => hitem hdrops.1
      · refine ⟨.inr rfl, ?_⟩
        rintro y (hy | rfl)
        · exact fun hdrops => h.not_matches htrans hnone hy hdrops.1
        · exact not_drops_self
    · rintro ⟨hx | rfl, hx'⟩
      · refine .inl ⟨(h.mem_iff x).mpr ⟨hx, fun y hy => hx' y (.inl hy)⟩, fun hitem => ?_⟩
        exact hx' item (.inr rfl)
          ⟨hitem, fun hreturn => absurd hreturn (h.not_matches htrans hnone hx)⟩
      · exact .inr rfl
  · intro x hx
    rcases List.mem_append.mp hx with hx | hx
    · obtain ⟨first, hfirst, hcover⟩ := h.covers x hx
      by_cases hitem : matches? (values item) (values first) = true
      -- the new vector stands for what a vector that is given up stood for
      · refine ⟨item, by simp, .inr ?_⟩
        rcases hcover with rfl | hcover
        · exact hitem
        · exact htrans _ _ _ hitem hcover
      · exact ⟨first, List.mem_append_left _ ((hmem first).mpr ⟨hfirst, hitem⟩), hcover⟩
    · exact ⟨x, List.mem_append_right _ hx, .inl rfl⟩

/-- **One more vector keeps up what is kept.** -/
theorem Kept.takeIn (h : Kept values seen kept) (hlater : ∀ other ∈ seen, other < item) :
    Kept values (seen ++ [item]) (Envelope.takeIn values kept item) := by
  unfold Envelope.takeIn
  split
  · next hany =>
      obtain ⟨other, hother, hmatch⟩ := List.any_eq_true.mp hany
      exact h.turnAway htrans hlater hother hmatch
  · next hany =>
      exact h.replace htrans fun other hother hmatch =>
        hany (List.any_eq_true.mpr ⟨other, hother, hmatch⟩)

/-- **The first stage keeps what nothing in the whole list drops.** -/
theorem kept_unmatched (hascending : items.Pairwise (· < ·)) :
    Kept values items (unmatched values items) := by
  induction items using List.reverseRecOn with
  | nil => exact ⟨by simp [unmatched], by simp⟩
  | append_singleton items last ih =>
      obtain ⟨hbefore, -, hlater⟩ := List.pairwise_append.mp hascending
      rw [unmatched, List.foldl_concat, ← unmatched]
      exact (ih hbefore).takeIn htrans fun other hother => hlater other hother last (by simp)

omit htrans in
/-- No vector that is kept matches another one. -/
theorem Kept.apart (h : Kept values seen kept) (hitem : item ∈ kept) (hother : other ∈ kept)
    (hne : item ≠ other) : ¬matches? (values item) (values other) = true := by
  intro hmatch
  obtain ⟨hseen, hitem⟩ := (h.mem_iff item).mp hitem
  obtain ⟨hseen', hother⟩ := (h.mem_iff other).mp hother
  obtain ⟨hreturn, hle⟩ := matched_of_not_drops (hother item hseen) hmatch
  exact hne ((matched_of_not_drops (hitem other hseen') hreturn).2.antisymm hle)

end

/-! ### Double precision -/

/-- One vector is at least as large as another one in every entry. -/
def AtLeast (alpha beta : List Float) : Prop := List.Forall₂ (· ≤ ·) beta alpha

/-- One vector is larger than another one in some entry. -/
def Exceeds (alpha beta : List Float) : Prop :=
  ∃ (entry : Nat) (x y : Float), alpha[entry]? = some x ∧ beta[entry]? = some y ∧ y < x

/-- Two vectors are equal in every entry. -/
def Level (alpha beta : List Float) : Prop := List.Forall₂ (fun x y => (x == y) = true) alpha beta

variable {alpha beta gamma : List Float}

theorem matches?_iff_atLeast (h : alpha.length = beta.length) :
    matches? alpha beta = true ↔ AtLeast alpha beta := by
  induction alpha generalizing beta with
  | nil =>
      rw [List.length_eq_zero_iff.mp h.symm]
      exact iff_of_true rfl .nil
  | cons x alpha ih =>
      cases beta with
      | nil => cases h
      | cons y beta =>
          have hrest := ih (Nat.succ.inj h)
          simp only [matches?, AtLeast, List.zip_cons_cons, List.all_cons, Bool.and_eq_true,
            decide_eq_true_eq, List.forall₂_cons] at hrest ⊢
          rw [hrest]

theorem AtLeast.trans (h : AtLeast alpha beta) (h' : AtLeast beta gamma) : AtLeast alpha gamma := by
  induction h' generalizing alpha with
  | nil =>
      cases h
      exact .nil
  | cons hle _ ih =>
      cases h with
      | cons hle' h => exact .cons (Scalar.le_trans hle hle') (ih h)

/-- Vectors that match each other are equal. -/
theorem level_iff : Level alpha beta ↔ AtLeast alpha beta ∧ AtLeast beta alpha := by
  constructor
  · intro h
    induction h with
    | nil => exact ⟨.nil, .nil⟩
    | cons heq _ ih =>
        obtain ⟨hle, hge⟩ := Scalar.beq_iff.mp heq
        exact ⟨.cons hge ih.1, .cons hle ih.2⟩
  · rintro ⟨h, hreturn⟩
    induction h with
    | nil => exact .nil
    | cons hle _ ih =>
        cases hreturn with
        | cons hge hreturn => exact .cons (Scalar.beq_iff.mpr ⟨hge, hle⟩) (ih hreturn)

/-- A vector that is at least as large is larger somewhere unless it is matched in return. -/
theorem AtLeast.exceeds_iff (h : AtLeast alpha beta) :
    Exceeds alpha beta ↔ ¬AtLeast beta alpha := by
  induction h with
  | nil => exact iff_of_false (by simp [Exceeds]) fun hnot => hnot .nil
  | @cons y x beta alpha hle h ih =>
      have hhead : y < x ↔ ¬x ≤ y := by
        refine ⟨Scalar.not_le_of_lt, fun hnot => ?_⟩
        obtain ⟨hy, hx⟩ := Scalar.le_self_of_le hle
        by_contra hlt
        exact hnot (Scalar.le_of_not_lt hy hx hlt)
      have hentries : Exceeds (x :: alpha) (y :: beta) ↔ y < x ∨ Exceeds alpha beta := by
        constructor
        · rintro ⟨entry, a, b, ha, hb, hlt⟩
          cases entry with
          | zero =>
              rw [List.getElem?_cons_zero, Option.some.injEq] at ha hb
              exact .inl (ha ▸ hb ▸ hlt)
          | succ entry => exact .inr ⟨entry, a, b, ha, hb, hlt⟩
        · rintro (hlt | ⟨entry, a, b, ha, hb, hlt⟩)
          · exact ⟨0, x, y, rfl, rfl, hlt⟩
          · exact ⟨entry + 1, a, b, ha, hb, hlt⟩
      rw [hentries, hhead, ih, AtLeast, AtLeast, List.forall₂_cons, not_and_or]

/-! ### What is left -/

section
variable {n : Nat} {vectors : Fin n → List Float} {size : Nat}

/-- The first stage keeps what nothing in the whole list drops, in double precision. -/
theorem kept_pointwise (hlength : ∀ i, (vectors i).length = size) :
    Kept vectors (List.finRange n) (pointwise vectors) := by
  have hmatches (i j : Fin n) : matches? (vectors i) (vectors j) = true ↔
      AtLeast (vectors i) (vectors j) :=
    matches?_iff_atLeast ((hlength i).trans (hlength j).symm)
  rw [pointwise_eq]
  refine kept_unmatched (fun i j k hij hjk => ?_) (List.pairwise_lt_finRange n)
  exact (hmatches i k).mpr (((hmatches i j).mp hij).trans ((hmatches j k).mp hjk))

/-- What drops a vector is larger somewhere, or is an equal vector that comes first. -/
theorem drops_iff (hlength : ∀ i, (vectors i).length = size) (i j : Fin n) :
    Drops vectors j i ↔ AtLeast (vectors j) (vectors i) ∧
      (Exceeds (vectors j) (vectors i) ∨ Level (vectors j) (vectors i) ∧ j < i) := by
  rw [Drops, matches?_iff_atLeast ((hlength j).trans (hlength i).symm),
    matches?_iff_atLeast ((hlength i).trans (hlength j).symm)]
  refine and_congr_right fun h => ?_
  rw [h.exceeds_iff, level_iff, and_iff_right h]
  tauto

/-- **The vectors that are left are apart, and the first stage drops those that another one
matches.** -/
theorem survivingPositions_unmatched (settings : Settings Float) (vectors : Fin n → List Float)
    {states : Nat} (hlength : ∀ i, (vectors i).length = size) (hstates : 0 < states) :
    ∃ kept, survivingPositions settings vectors states = .ok kept ∧
      kept.Pairwise (· < ·) ∧
      (0 < n → kept ≠ []) ∧
      (∀ i ∈ kept, ∀ j ∈ kept, i ≠ j → ¬AtLeast (vectors i) (vectors j)) ∧
      kept.Sublist (pointwise vectors) ∧
      (∀ i, i ∉ pointwise vectors ↔ ∃ j, j ≠ i ∧ AtLeast (vectors j) (vectors i) ∧
        (Exceeds (vectors j) (vectors i) ∨ Level (vectors j) (vectors i) ∧ j < i)) ∧
      ∀ i ∈ pointwise vectors, IsLeast {j | j = i ∨ Level (vectors j) (vectors i)} i := by
  have hkept := kept_pointwise hlength
  have hsublist : (survivors settings vectors (List.finRange n)).Sublist (pointwise vectors) := by
    rw [pointwise_eq]
    exact winnow_sublist settings _ []
  have hdropped (i : Fin n) : i ∉ pointwise vectors ↔ ∃ j, j ≠ i ∧
      AtLeast (vectors j) (vectors i) ∧
        (Exceeds (vectors j) (vectors i) ∨ Level (vectors j) (vectors i) ∧ j < i) := by
    rw [hkept.mem_iff]
    simp only [List.mem_finRange, true_and, forall_const, ← drops_iff hlength, not_forall, not_not]
    refine exists_congr fun j => (and_iff_right_of_imp ?_).symm
    rintro hdrops rfl
    exact not_drops_self hdrops
  refine ⟨_, survivingPositions_eq settings vectors hstates, ?_, ?_, ?_, hsublist, hdropped, ?_⟩
  · exact (List.pairwise_lt_finRange n).sublist (survivors_sublist settings _)
  · intro hn
    exact survivors_ne_nil settings (List.finRange_eq_nil_iff.not.mpr hn.ne')
  · intro i hi j hj hne hmatch
    refine hkept.apart (hsublist.subset hi) (hsublist.subset hj) hne ?_
    exact (matches?_iff_atLeast ((hlength i).trans (hlength j).symm)).mpr hmatch
  · rintro i hi
    refine ⟨.inl rfl, ?_⟩
    rintro j (rfl | hlevel)
    · exact le_refl j
    · by_contra hlt
      have hj := not_le.mp hlt
      exact (hdropped i).mpr ⟨j, hj.ne, (level_iff.mp hlevel).1, .inr ⟨hlevel, hj⟩⟩ hi

/-- Four vectors that are left, one of them with an entry that is no number, a smaller one and a
copy. -/
def copies : Fin 6 → List Float :=
  ![[1, 1], [0, 0], [2, -5], [1, 1], [-5, 2], [0 / 0, 3]]

/-- The copy is dropped for the first of its kind, which is left like the vector with an entry that
is no number. -/
theorem survivingPositions_unmatched_copies :
    (∀ i, (copies i).length = 2) ∧ pointwise copies = [0, 2, 4, 5] ∧
      (∃ kept, survivingPositions .standard copies 2 = .ok kept ∧ kept.Pairwise (· < ·) ∧
        kept ≠ [] ∧ kept.Sublist [0, 2, 4, 5]) ∧
      (∃ j, j ≠ 3 ∧ AtLeast (copies j) (copies 3) ∧
        (Exceeds (copies j) (copies 3) ∨ Level (copies j) (copies 3) ∧ j < 3)) ∧
      IsLeast {j | j = 0 ∨ Level (copies j) (copies 0)} 0 := by
  have hlength : ∀ i, (copies i).length = 2 := by decide
  have hpointwise : pointwise copies = [0, 2, 4, 5] := by
    rw [pointwise_eq]
    decide
  obtain ⟨kept, heq, hascending, hne, -, hsublist, hdropped, hfirst⟩ :=
    survivingPositions_unmatched .standard copies hlength Nat.zero_lt_two
  rw [hpointwise] at hsublist hdropped hfirst
  exact ⟨hlength, hpointwise, ⟨kept, heq, hascending, hne (by decide), hsublist⟩,
    (hdropped 3).mp (by decide), hfirst 0 (by decide)⟩

end

end MarkovPlanning.Envelope
