/-
What a search for a witness finds.

A point of the witness program is a belief together with a margin: a belief, because
its entries are not negative and add up to one, and a margin, because the vector in
question is better than every other one by that much there.  So the program has a
point with a certain margin exactly when some belief gives that margin
(`feasible_witnessProgram`), and what `maximize_correct` says about the program becomes
a statement about beliefs.

A vector that is turned away can be missed: at every belief some other vector comes up
to it, but for the margin that was asked for (`exists_near`).  A vector that is kept,
by a search that was not given up, is better than all others at some belief by more
than the margin (`exists_witness`).
-/
import MarkovPlanning.Pomdp.Envelope
import MarkovPlanning.Proofs.Linear.Maximize
import Mathlib

namespace MarkovPlanning.Envelope

variable {K : Type} [Field K] [LinearOrder K]

/-- The weights of a belief over `n` states. -/
structure Weights (n : Nat) (b : List K) : Prop where
  length : b.length = n
  nonneg : ∀ p ∈ b, 0 ≤ p
  total : b.sum = 1

/-! ### Products with vectors -/

theorem dot_sub : ∀ {xs ys : List K} (b : List K), xs.length = ys.length →
    Scalar.dot (List.zipWith (· - ·) xs ys) b = Scalar.dot xs b - Scalar.dot ys b := by
  intro xs
  induction xs with
  | nil => intro ys b h; simp [List.length_eq_zero_iff.mp h.symm]
  | cons x xs ih =>
      intro ys b h
      cases ys with
      | nil => simp at h
      | cons y ys =>
          cases b with
          | nil => simp
          | cons p b =>
              rw [List.zipWith_cons_cons, Scalar.dot_cons, Scalar.dot_cons, Scalar.dot_cons,
                ih b (Nat.succ.inj h)]
              ring

theorem dot_neg : ∀ (xs b : List K), Scalar.dot (xs.map (-·)) b = -Scalar.dot xs b := by
  intro xs
  induction xs with
  | nil => intro b; simp
  | cons x xs ih =>
      intro b
      cases b with
      | nil => simp
      | cons p b =>
          rw [List.map_cons, Scalar.dot_cons, Scalar.dot_cons, ih b]
          ring

theorem dot_map_mul (c : K) : ∀ (xs b : List K),
    Scalar.dot xs (b.map (c * ·)) = c * Scalar.dot xs b := by
  intro xs
  induction xs with
  | nil => intro b; simp
  | cons x xs ih =>
      intro b
      cases b with
      | nil => simp
      | cons p b =>
          rw [List.map_cons, Scalar.dot_cons, Scalar.dot_cons, ih b]
          ring

theorem dot_replicate (c : K) : ∀ (b : List K),
    Scalar.dot (List.replicate b.length c) b = c * b.sum := by
  intro b
  induction b with
  | nil => simp
  | cons p b ih => rw [List.length_cons, List.replicate_succ, Scalar.dot_cons, ih, List.sum_cons,
      mul_add]

/-! ### The points of the witness program -/

variable {n : Nat} {alpha : List K} {others : List (List K)}

/-- The objective of the program is the margin. -/
theorem objective_witnessProgram {b : List K} (hb : b.length = alpha.length) (margin : K) :
    Scalar.dot (witnessProgram alpha others).objective (b ++ [margin]) = margin := by
  show Scalar.dot (List.replicate alpha.length 0 ++ [1]) (b ++ [margin]) = margin
  rw [Scalar.dot_append (by rw [List.length_replicate, hb]), ← hb, dot_replicate]
  simp

/-- The left side of the constraint for another vector. -/
theorem dot_advantage {beta : List K} (halpha : alpha.length = n) (hbeta : beta.length = n)
    {b : List K} (hb : b.length = n) (margin : K) :
    Scalar.dot (List.zipWith (· - ·) beta alpha ++ [1]) (b ++ [margin])
      = Scalar.dot beta b - Scalar.dot alpha b + margin := by
  rw [Scalar.dot_append (by rw [List.length_zipWith]; omega), dot_sub b (by omega)]
  simp

/-- The left side of the constraint on the sum. -/
theorem dot_total (halpha : alpha.length = n) {b : List K} (hb : b.length = n) (margin : K) :
    Scalar.dot (List.replicate alpha.length (1 : K) ++ [0]) (b ++ [margin]) = b.sum := by
  rw [Scalar.dot_append (by rw [List.length_replicate]; omega), halpha, ← hb, dot_replicate]
  simp

variable [IsStrictOrderedRing K]

/-- **The points of the witness program are beliefs with a margin over all other vectors.** -/
theorem feasible_witnessProgram (halpha : alpha.length = n)
    (hothers : ∀ beta ∈ others, beta.length = n) {b : List K} (hb : b.length = n) (margin : K) :
    (witnessProgram alpha others).Feasible (b ++ [margin]) ↔
      Weights n b ∧ 0 ≤ margin ∧
        ∀ beta ∈ others, Scalar.dot beta b + margin ≤ Scalar.dot alpha b := by
  have htotal := dot_total halpha hb margin
  constructor
  · intro h
    have hle := h.bounds ⟨_, 1⟩ (List.mem_append_right _ List.mem_cons_self)
    have hge := h.bounds ⟨_, -1⟩
      (List.mem_append_right _ (List.mem_cons_of_mem _ List.mem_cons_self))
    rw [htotal] at hle
    rw [dot_neg, htotal] at hge
    refine ⟨⟨hb, fun p hp => h.nonneg p (List.mem_append_left _ hp), ?_⟩, ?_, ?_⟩
    · exact le_antisymm hle (neg_le_neg_iff.mp hge)
    · exact h.nonneg margin (List.mem_append_right _ List.mem_cons_self)
    · intro beta hbeta
      have := h.bounds ⟨_, 0⟩ (List.mem_append_left _ (List.mem_map_of_mem hbeta))
      rw [dot_advantage halpha (hothers beta hbeta) hb] at this
      linarith
  · intro h
    obtain ⟨hweights, hmargin, hbeats⟩ := h
    refine ⟨?_, ?_, ?_⟩
    · simp [witnessProgram, hb, halpha]
    · intro p hp
      rcases List.mem_append.mp hp with hp | hp
      · exact hweights.nonneg p hp
      · rw [List.mem_singleton.mp hp]
        exact hmargin
    · intro constraint hc
      rcases List.mem_append.mp hc with hc | hc
      · obtain ⟨beta, hbeta, rfl⟩ := List.mem_map.mp hc
        show Scalar.dot _ _ ≤ (0 : K)
        rw [dot_advantage halpha (hothers beta hbeta) hb]
        have := hbeats beta hbeta
        linarith
      · rcases List.mem_cons.mp hc with rfl | hc
        · show Scalar.dot _ _ ≤ (1 : K)
          rw [htotal, hweights.total]
        · rw [List.mem_singleton.mp hc]
          show Scalar.dot _ _ ≤ (-1 : K)
          rw [dot_neg, htotal, hweights.total]

/-- Every point of the witness program is of that form. -/
theorem exists_of_feasible (halpha : alpha.length = n)
    (hothers : ∀ beta ∈ others, beta.length = n) {x : List K}
    (hx : (witnessProgram alpha others).Feasible x) :
    ∃ b, Weights n b ∧ ∀ beta ∈ others,
      Scalar.dot beta b + Scalar.dot (witnessProgram alpha others).objective x
        ≤ Scalar.dot alpha b := by
  have hlen : x.length = n + 1 := by
    rw [hx.length]
    simp [witnessProgram, halpha]
  obtain ⟨b, margin, rfl⟩ : ∃ b margin, x = b ++ [margin] :=
    ⟨x.dropLast, x.getLast (List.ne_nil_of_length_eq_add_one hlen),
      (List.dropLast_append_getLast _).symm⟩
  have hb : b.length = n := by simpa using hlen
  obtain ⟨hweights, -, hbeats⟩ := (feasible_witnessProgram halpha hothers hb margin).mp hx
  rw [objective_witnessProgram (hb.trans halpha.symm)]
  exact ⟨b, hweights, hbeats⟩

/-! ### What the verdict means -/

/-- What is exceeded by every member of a list is exceeded by all of them with some room. -/
theorem exists_between_all {c top : K} : ∀ (values : List K), (∀ v ∈ values, v + c < top) →
    ∃ margin, c < margin ∧ ∀ v ∈ values, v + margin ≤ top := by
  intro values
  induction values with
  | nil => intro _; exact ⟨c + 1, lt_add_one c, fun v hv => by simp at hv⟩
  | cons v rest ih =>
      intro h
      obtain ⟨margin, hc, hrest⟩ := ih fun w hw => h w (List.mem_cons_of_mem _ hw)
      have hv := h v List.mem_cons_self
      refine ⟨min margin (top - v), lt_min hc (by linarith), fun w hw => ?_⟩
      rcases List.mem_cons.mp hw with rfl | hw
      · linarith [min_le_right margin (top - w)]
      · linarith [min_le_left margin (top - v), hrest w hw]

variable {settings : Settings K}

/-- **At every belief some other vector comes up to one that is turned away.** -/
theorem exists_near (htol : settings.program.tolerance = 0) (halpha : alpha.length = n)
    (hothers : ∀ beta ∈ others, beta.length = n)
    (h : hasWitness settings alpha others = false) {b : List K} (hb : Weights n b) :
    ∃ beta ∈ others, Scalar.dot alpha b ≤ Scalar.dot beta b + max 0 settings.tolerance := by
  by_contra hfar
  have hless : ∀ v ∈ others.map fun beta => Scalar.dot beta b,
      v + max 0 settings.tolerance < Scalar.dot alpha b := by
    intro v hv
    obtain ⟨beta, hbeta, rfl⟩ := List.mem_map.mp hv
    exact not_le.mp fun hle => hfar ⟨beta, hbeta, hle⟩
  obtain ⟨margin, hlt, hbeats⟩ := exists_between_all _ hless
  have hfeasible : (witnessProgram alpha others).Feasible (b ++ [margin]) :=
    (feasible_witnessProgram halpha hothers hb.length margin).mpr
      ⟨hb, (lt_of_le_of_lt (le_max_left _ _) hlt).le,
        fun beta hbeta => hbeats _ (List.mem_map_of_mem hbeta)⟩
  have hcorrect := Linear.maximize_correct htol (witnessProgram alpha others)
  simp only [hasWitness, Bool.or_eq_false_iff] at h
  have hverdict := h.2
  cases houtcome : (Linear.maximize settings.program (witnessProgram alpha others)).outcome with
  | optimal point value =>
      rw [houtcome] at hcorrect hverdict
      have hle := hcorrect.2.2 _ hfeasible
      rw [objective_witnessProgram (hb.length.trans halpha.symm)] at hle
      have hnot : ¬settings.tolerance < value := by simpa using hverdict
      exact hnot (lt_of_lt_of_le (lt_of_le_of_lt (le_max_right _ _) hlt) hle)
  | infeasible =>
      rw [houtcome] at hcorrect
      exact hcorrect _ hfeasible
  | unbounded => rw [houtcome] at hverdict; exact Bool.noConfusion hverdict
  | pivotLimit => rw [houtcome] at hverdict; exact Bool.noConfusion hverdict

/-- **A vector that is kept is better than all others at some belief, by more than the
margin**, unless the search was given up. -/
theorem exists_witness (htol : settings.program.tolerance = 0) (hn : 0 < n)
    (halpha : alpha.length = n) (hothers : ∀ beta ∈ others, beta.length = n)
    (hended : others ≠ [] →
      (Linear.maximize settings.program (witnessProgram alpha others)).outcome ≠ .pivotLimit)
    (h : hasWitness settings alpha others = true) :
    ∃ b, Weights n b ∧
      ∀ beta ∈ others, Scalar.dot beta b + settings.tolerance < Scalar.dot alpha b := by
  have hmargin : ∀ x, (witnessProgram alpha others).Feasible x →
      settings.tolerance < Scalar.dot (witnessProgram alpha others).objective x →
      ∃ b, Weights n b ∧
        ∀ beta ∈ others, Scalar.dot beta b + settings.tolerance < Scalar.dot alpha b := by
    intro x hx hlt
    obtain ⟨b, hb, hbeats⟩ := exists_of_feasible halpha hothers hx
    exact ⟨b, hb, fun beta hbeta => by linarith [hbeats beta hbeta]⟩
  by_cases hempty : others = []
  · -- with nothing to beat, every belief will do
    obtain ⟨n, rfl⟩ : ∃ n', n = n' + 1 := ⟨n - 1, by omega⟩
    refine ⟨1 :: List.replicate n 0, ⟨by simp, ?_, by simp⟩, by simp [hempty]⟩
    intro p hp
    rcases List.mem_cons.mp hp with rfl | hp
    · exact zero_le_one
    · rw [List.eq_of_mem_replicate hp]
  · have hcorrect := Linear.maximize_correct htol (witnessProgram alpha others)
    have hended := hended hempty
    have hverdict := h
    simp only [hasWitness, List.isEmpty_iff.not.mpr hempty, Bool.false_or] at hverdict
    cases houtcome : (Linear.maximize settings.program (witnessProgram alpha others)).outcome with
    | optimal point value =>
        rw [houtcome] at hcorrect hverdict
        refine hmargin point hcorrect.1 ?_
        rw [hcorrect.2.1]
        simpa using hverdict
    | infeasible => rw [houtcome] at hverdict; exact Bool.noConfusion hverdict
    | unbounded =>
        rw [houtcome] at hcorrect
        obtain ⟨x, hx, hlt⟩ := hcorrect settings.tolerance
        exact hmargin x hx hlt
    | pivotLimit => exact absurd houtcome hended

end MarkovPlanning.Envelope
