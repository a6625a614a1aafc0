/-
Walks over numbered positions.

Elimination, back substitution and sweeps walk over all positions in order, or in the
reverse order, and what is true in between depends on how far they have come.  The
lemmas here turn such a walk into an induction on that number.
-/
import Mathlib

namespace MarkovPlanning

variable {σ : Type}

/-- What a walk keeps from one position to the next holds at its end. -/
theorem foldl_finRange : ∀ {n : Nat} (P : Nat → σ → Prop) {step : σ → Fin n → σ} {start : σ},
    P 0 start → (∀ (i : Fin n) s, P i s → P (i + 1) (step s i)) →
      P n ((List.finRange n).foldl step start) := by
  intro n
  induction n with
  | zero => intro P step start h _; exact h
  | succ n ih =>
      intro P step start h hstep
      rw [List.finRange_succ_last, List.foldl_append, List.foldl_map]
      exact hstep (Fin.last n) _ (ih P h fun i s hs => hstep i.castSucc s hs)

/-- The same for a walk from the last position to the first. -/
theorem foldl_finRange_reverse : ∀ {n : Nat} (P : Nat → σ → Prop) {step : σ → Fin n → σ}
    {start : σ}, P n start → (∀ (i : Fin n) s, P (i + 1) s → P i (step s i)) →
      P 0 ((List.finRange n).reverse.foldl step start) := by
  intro n
  induction n with
  | zero => intro P step start h _; exact h
  | succ n ih =>
      intro P step start h hstep
      rw [List.finRange_succ, List.reverse_cons, List.foldl_append, ← List.map_reverse,
        List.foldl_map]
      exact hstep 0 _ (ih (fun i => P (i + 1)) h fun i s hs => hstep i.succ s hs)

/-- The same for a walk that may be given up. -/
theorem foldlM_finRange {ε : Type} {Q : ε → Prop} : ∀ {n : Nat} (P : Nat → σ → Prop)
    {step : σ → Fin n → Except ε σ} {start : σ}, P 0 start →
      (∀ (i : Fin n) s s', P i s → step s i = .ok s' → P (i + 1) s') →
      (∀ (i : Fin n) s e, P i s → step s i = .error e → Q e) →
        (∀ s, (List.finRange n).foldlM step start = .ok s → P n s) ∧
        ∀ e, (List.finRange n).foldlM step start = .error e → Q e := by
  intro n
  induction n with
  | zero =>
      intro P step start h _ _
      exact ⟨fun s hs => Except.ok.inj hs ▸ h, fun e he => nomatch he⟩
  | succ n ih =>
      intro P step start h hstep hfail
      obtain ⟨hok, herror⟩ := ih P h (fun i s s' => hstep i.castSucc s s') fun i s e =>
        hfail i.castSucc s e
      rw [List.finRange_succ_last, List.foldlM_append, List.foldlM_map]
      cases hwalk : (List.finRange n).foldlM (fun s i => step s i.castSucc) start with
      | error e =>
          refine ⟨fun s hs => (nomatch hs), fun e' he => ?_⟩
          rw [← Except.error.inj he]
          exact herror e hwalk
      | ok s =>
          have hlast : ∀ r, (Except.ok s >>= fun s => [Fin.last n].foldlM step s) = r →
              step s (Fin.last n) = r := by
            intro r hr
            rw [← hr]
            exact (bind_pure (step s (Fin.last n))).symm
          exact ⟨fun s' hs => hstep (Fin.last n) s s' (hok s hwalk) (hlast _ hs),
            fun e he => hfail (Fin.last n) s e (hok s hwalk) (hlast _ he)⟩

end MarkovPlanning
