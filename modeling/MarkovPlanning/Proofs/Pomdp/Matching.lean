/-
The first stage of pruning: what another vector matches.

A vector that is at least as good as another one in every state is at least as good at
every belief, and matching is transitive.  So although vectors are dropped one after
another, and what made one drop may drop later itself, in the end something is left
that matches each of them (`exists_unmatched`).  What is left does not match anything
else that is left (`unmatched_pairwise`), and taking such a list in again changes
nothing (`unmatched_append`).
-/
import MarkovPlanning.Pomdp.Envelope
import MarkovPlanning.Proofs.Exact
import Mathlib

namespace MarkovPlanning.Envelope

/-! ### What is taken in -/

section
variable {α : Type} [Scalar α] {β : Type} {values : β → List α}

theorem takeIn_ne_nil (kept : List β) (item : β) : takeIn values kept item ≠ [] := by
  unfold takeIn
  by_cases h : (kept.any fun other => matches? (values other) (values item)) = true
  · rw [if_pos h]
    intro h
    subst h
    simp at h
  · rw [if_neg h]
    simp

theorem takeIn_subset (kept : List β) (item : β) : takeIn values kept item ⊆ kept ++ [item] := by
  intro x hx
  unfold takeIn at hx
  by_cases h : (kept.any fun other => matches? (values other) (values item)) = true
  · rw [if_pos h] at hx
    exact List.mem_append_left _ hx
  · rw [if_neg h] at hx
    rcases List.mem_append.mp hx with hx | hx
    · exact List.mem_append_left _ (List.mem_filter.mp hx).1
    · exact List.mem_append_right _ hx

private theorem foldl_takeIn_ne_nil : ∀ (l kept : List β), l ≠ [] ∨ kept ≠ [] →
    l.foldl (takeIn values) kept ≠ [] := by
  intro l
  induction l with
  | nil => intro kept h; simpa using h
  | cons item rest ih => intro kept _; exact ih _ (Or.inr (takeIn_ne_nil kept item))

private theorem foldl_takeIn_subset : ∀ (l kept : List β),
    l.foldl (takeIn values) kept ⊆ kept ++ l := by
  intro l
  induction l with
  | nil => intro kept; simp
  | cons item rest ih =>
      intro kept x hx
      rcases List.mem_append.mp (ih _ hx) with hx | hx
      · rcases List.mem_append.mp (takeIn_subset kept item hx) with hx | hx
        · exact List.mem_append_left _ hx
        · rw [List.mem_singleton.mp hx]
          simp
      · exact List.mem_append_right _ (List.mem_cons_of_mem _ hx)

theorem unmatched_ne_nil {items : List β} (h : items ≠ []) : unmatched values items ≠ [] :=
  foldl_takeIn_ne_nil items [] (Or.inl h)

theorem unmatched_subset (items : List β) : unmatched values items ⊆ items := by
  have hsub : unmatched values items ⊆ [] ++ items := foldl_takeIn_subset items []
  rwa [List.nil_append] at hsub

end

variable {K : Type} [Field K] [LinearOrder K] {n : Nat}

/-! ### Matching state by state -/

theorem matches?_refl : ∀ alpha : List K, matches? alpha alpha = true := by
  intro alpha
  induction alpha with
  | nil => rfl
  | cons x xs ih => simpa [matches?] using ih

theorem matches?_cons {x y : K} {xs ys : List K} :
    matches? (x :: xs) (y :: ys) = true ↔ y ≤ x ∧ matches? xs ys = true := by
  simp only [matches?, List.zip_cons_cons, List.all_cons, Bool.and_eq_true, decide_eq_true_eq]

theorem matches?_trans : ∀ {xs ys zs : List K}, xs.length = ys.length → ys.length = zs.length →
    matches? xs ys = true → matches? ys zs = true → matches? xs zs = true := by
  intro xs
  induction xs with
  | nil => intro ys zs _ _ _ _; rfl
  | cons x xs ih =>
      intro ys zs hxy hyz h h'
      cases ys with
      | nil => simp at hxy
      | cons y ys =>
          cases zs with
          | nil => simp at hyz
          | cons z zs =>
              rw [matches?_cons] at h h' ⊢
              exact ⟨h'.1.trans h.1, ih (Nat.succ.inj hxy) (Nat.succ.inj hyz) h.2 h'.2⟩

/-- What is matched in every state is matched at every belief. -/
theorem dot_le_of_matches? [IsStrictOrderedRing K] : ∀ {xs ys b : List K},
    xs.length = ys.length → (∀ p ∈ b, 0 ≤ p) → matches? xs ys = true →
      Scalar.dot ys b ≤ Scalar.dot xs b := by
  intro xs
  induction xs with
  | nil => intro ys b h _ _; rw [List.length_eq_zero_iff.mp h.symm]
  | cons x xs ih =>
      intro ys b h hb hm
      cases ys with
      | nil => simp at h
      | cons y ys =>
          cases b with
          | nil => simp
          | cons p b =>
              rw [matches?_cons] at hm
              rw [Scalar.dot_cons, Scalar.dot_cons]
              exact add_le_add (mul_le_mul_of_nonneg_right hm.1 (hb p List.mem_cons_self))
                (ih (Nat.succ.inj h) (fun q hq => hb q (List.mem_cons_of_mem _ hq)) hm.2)

variable {β : Type} {values : β → List K}

theorem takeIn_eq_self {kept : List β} {item other : β} (ho : other ∈ kept)
    (h : matches? (values other) (values item) = true) : takeIn values kept item = kept := by
  unfold takeIn
  rw [if_pos (List.any_eq_true.mpr ⟨other, ho, h⟩)]

/-- Whatever is matched before a vector is taken in is matched afterwards, and so is the vector. -/
private theorem exists_takeIn {kept : List β} {item : β}
    (hlen : ∀ x ∈ kept ++ [item], (values x).length = n) {x : List K} (hx : x.length = n)
    (h : x = values item ∨ ∃ other ∈ kept, matches? (values other) x = true) :
    ∃ other ∈ takeIn values kept item, matches? (values other) x = true := by
  unfold takeIn
  by_cases hany : (kept.any fun other => matches? (values other) (values item)) = true
  · rw [if_pos hany]
    rcases h with rfl | h
    · exact List.any_eq_true.mp hany
    · exact h
  · rw [if_neg hany]
    have hitem := hlen item (by simp)
    rcases h with rfl | ⟨other, ho, hm⟩
    · exact ⟨item, by simp, matches?_refl _⟩
    · by_cases hdrop : matches? (values item) (values other) = true
      · have hother := hlen other (List.mem_append_left _ ho)
        exact ⟨item, by simp, matches?_trans (hitem.trans hother.symm) (hother.trans hx.symm)
          hdrop hm⟩
      · exact ⟨other, List.mem_append_left _ (List.mem_filter.mpr ⟨ho, by simpa using hdrop⟩), hm⟩

private theorem exists_foldl_takeIn : ∀ (l kept : List β),
    (∀ x ∈ kept ++ l, (values x).length = n) → ∀ {x : List K}, x.length = n →
      ((∃ item ∈ l, x = values item) ∨ ∃ other ∈ kept, matches? (values other) x = true) →
      ∃ other ∈ l.foldl (takeIn values) kept, matches? (values other) x = true := by
  intro l
  induction l with
  | nil => intro kept _ x _ h; simpa using h
  | cons item rest ih =>
      intro kept hlen x hx h
      have hfirst : ∀ y ∈ kept ++ [item], (values y).length = n := by
        intro y hy
        exact hlen y (by simp only [List.mem_append, List.mem_cons] at hy ⊢; tauto)
      have hnext : ∀ y ∈ takeIn values kept item ++ rest, (values y).length = n := by
        intro y hy
        rcases List.mem_append.mp hy with hy | hy
        · exact hfirst y (takeIn_subset kept item hy)
        · exact hlen y (by simp [hy])
      refine ih _ hnext hx ?_
      rcases h with ⟨item', hitem', rfl⟩ | h
      · rcases List.mem_cons.mp hitem' with rfl | hitem'
        · exact Or.inr (exists_takeIn hfirst hx (Or.inl rfl))
        · exact Or.inl ⟨item', hitem', rfl⟩
      · exact Or.inr (exists_takeIn hfirst hx (Or.inr h))

/-- **What the first stage drops is matched by something it leaves.** -/
theorem exists_unmatched {items : List β} (hlen : ∀ x ∈ items, (values x).length = n) {item : β}
    (hitem : item ∈ items) :
    ∃ other ∈ unmatched values items, matches? (values other) (values item) = true :=
  exists_foldl_takeIn items [] (by simpa using hlen) (hlen item hitem) (Or.inl ⟨item, hitem, rfl⟩)

/-! ### No two vectors that match -/

/-- Neither of two vectors matches the other. -/
def Apart (values : β → List K) (x y : β) : Prop :=
  matches? (values x) (values y) = false ∧ matches? (values y) (values x) = false

theorem Apart.ne {x y : β} (h : Apart values x y) : values x ≠ values y := by
  intro he
  have := h.1
  rw [he, matches?_refl] at this
  exact Bool.noConfusion this

private theorem takeIn_pairwise {kept : List β} {item : β} (h : kept.Pairwise (Apart values)) :
    (takeIn values kept item).Pairwise (Apart values) := by
  unfold takeIn
  by_cases hany : (kept.any fun other => matches? (values other) (values item)) = true
  · rw [if_pos hany]
    exact h
  · rw [if_neg hany]
    refine List.pairwise_append.mpr ⟨h.filter _, List.pairwise_singleton _ _, ?_⟩
    intro x hx y hy
    obtain ⟨hx, hdrop⟩ := List.mem_filter.mp hx
    rw [List.mem_singleton.mp hy]
    constructor
    · by_contra hm
      exact hany (List.any_eq_true.mpr ⟨x, hx, by simpa using hm⟩)
    · simpa using hdrop

theorem unmatched_pairwise (items : List β) : (unmatched values items).Pairwise (Apart values) := by
  have key : ∀ (l kept : List β), kept.Pairwise (Apart values) →
      (l.foldl (takeIn values) kept).Pairwise (Apart values) := by
    intro l
    induction l with
    | nil => intro kept h; exact h
    | cons item rest ih => intro kept h; exact ih _ (takeIn_pairwise h)
  exact key items [] List.Pairwise.nil

private theorem takeIn_eq_append {kept : List β} {item : β} (h : ∀ x ∈ kept, Apart values x item) :
    takeIn values kept item = kept ++ [item] := by
  unfold takeIn
  rw [if_neg, List.filter_eq_self.mpr]
  · intro x hx
    rw [(h x hx).2]
    rfl
  · intro hany
    obtain ⟨x, hx, hm⟩ := List.any_eq_true.mp hany
    rw [(h x hx).1] at hm
    exact Bool.noConfusion hm

/-- **Vectors of which no two match are all taken in, and copies of them are not.** -/
theorem unmatched_append {items : List β} (h : items.Pairwise (Apart values)) {copies : List β}
    (hcopies : ∀ copy ∈ copies, copy ∈ items) : unmatched values (items ++ copies) = items := by
  have htake : ∀ (l kept : List β), (kept ++ l).Pairwise (Apart values) →
      l.foldl (takeIn values) kept = kept ++ l := by
    intro l
    induction l with
    | nil => intro kept _; simp
    | cons item rest ih =>
        intro kept hp
        have hitem := (List.pairwise_append.mp hp).2.2
        rw [List.foldl_cons, takeIn_eq_append fun x hx => hitem x hx item List.mem_cons_self, ih]
        · simp
        · simpa using hp
  have hdrop : ∀ l : List β, (∀ copy ∈ l, copy ∈ items) →
      l.foldl (takeIn values) items = items := by
    intro l
    induction l with
    | nil => intro _; rfl
    | cons copy rest ih =>
        intro hl
        rw [List.foldl_cons, takeIn_eq_self (hl copy List.mem_cons_self) (matches?_refl _)]
        exact ih fun x hx => hl x (List.mem_cons_of_mem _ hx)
  unfold unmatched
  rw [List.foldl_append, htake items [] (by simpa using h), List.nil_append, hdrop copies hcopies]

end MarkovPlanning.Envelope
