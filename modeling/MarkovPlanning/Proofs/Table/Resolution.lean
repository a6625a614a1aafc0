/-
Which of the written patterns decides a key.

A look-up gives up positions of the key, few of them first, until it meets a pattern that was
written.  Seen from the table, it picks one of the written patterns that cover the key: the one
with the fewest wildcards, and of as many the one with the smaller set of positions
(`Table.resolve?_eq_some_iff`).

The two sides count differently if the key has wildcards of its own.  Giving up such a position
changes nothing, so several sets of positions lead to one pattern.  What a pattern gives up
beyond the key is its `excess`: the first of the sets that lead to it, and all that is left of
its wildcards when those of the key are taken away.  The order by the excess is therefore both
the order of the look-up and the order of the patterns.
-/
import MarkovPlanning.Table.Basic
import Mathlib

namespace MarkovPlanning

namespace Pattern

variable {kinds : List Kind} {key pattern other : Pattern kinds}

/-- The number of wildcards. -/
def wildcards : {kinds : List Kind} → Pattern kinds → Nat
  | _, nil => 0
  | _, cons slot rest => (if slot.isNone then 1 else 0) + rest.wildcards

/-- Fewer wildcards come first, and of as many the smaller set of positions. -/
def Before (pattern other : Pattern kinds) : Prop :=
  pattern.wildcards < other.wildcards ∨
    pattern.wildcards = other.wildcards ∧ pattern.mask < other.mask

/-! ### Sets of positions -/

/-- Fewer positions come first, and of as many the smaller number. -/
def Earlier (arity mask other : Nat) : Prop :=
  weight arity mask < weight arity other ∨
    weight arity mask = weight arity other ∧ mask < other

theorem weight_le (arity mask : Nat) : weight arity mask ≤ arity := by
  induction arity generalizing mask with
  | zero => simp [weight]
  | succ arity ih =>
      have := ih (mask / 2)
      simp only [weight]
      omega

theorem bit_lt_two (flag : Bool) : (if flag then 1 else 0) < 2 := by cases flag <;> decide

theorem weight_bit {bit : Nat} (h : bit < 2) (arity rest : Nat) :
    weight (arity + 1) (bit + 2 * rest) = bit + weight arity rest := by
  rw [weight, show (bit + 2 * rest) % 2 = bit by omega, show (bit + 2 * rest) / 2 = rest by omega]

theorem masked_bit {kind : Kind} (slot : Option (Entity kind)) (rest : Pattern kinds) {bit : Nat}
    (h : bit < 2) (mask : Nat) :
    (cons slot rest).masked (bit + 2 * mask)
      = cons (if bit = 1 then none else slot) (rest.masked mask) := by
  rw [masked, show (bit + 2 * mask) % 2 = bit by omega, show (bit + 2 * mask) / 2 = mask by omega]

theorem mem_masks {arity mask : Nat} : mask ∈ masks arity ↔ mask < 2 ^ arity := by
  have := weight_le arity mask
  simp only [masks, List.mem_flatMap, List.mem_range, List.mem_filter, beq_iff_eq,
    Nat.one_shiftLeft]
  exact ⟨fun ⟨_, _, h, _⟩ => h, fun h => ⟨weight arity mask, by omega, h, rfl⟩⟩

/-- **Positions are given up in order.** -/
theorem pairwise_masks (arity : Nat) : (masks arity).Pairwise (Earlier arity) := by
  rw [masks, List.pairwise_flatMap]
  constructor
  · intro count _
    refine (List.pairwise_lt_range.filter _).imp_of_mem ?_
    intro mask other hmask hother hlt
    have hweight := beq_iff_eq.mp (List.mem_filter.mp hmask).2
    have hweight' := beq_iff_eq.mp (List.mem_filter.mp hother).2
    exact .inr ⟨hweight.trans hweight'.symm, hlt⟩
  · refine List.pairwise_lt_range.imp ?_
    intro count more hlt mask hmask other hother
    have hweight := beq_iff_eq.mp (List.mem_filter.mp hmask).2
    have hweight' := beq_iff_eq.mp (List.mem_filter.mp hother).2
    exact .inl (by omega)

/-! ### What a pattern gives up -/

/-- The positions where a pattern has a wildcard and the key has none. -/
def excess : {kinds : List Kind} → (key pattern : Pattern kinds) → Nat
  | _, nil, nil => 0
  | _, cons slot rest, cons slot' rest' =>
      (if slot.isSome && slot'.isNone then 1 else 0) + 2 * rest.excess rest'

theorem excess_lt {kinds : List Kind} (key pattern : Pattern kinds) :
    key.excess pattern < 2 ^ kinds.length := by
  induction key with
  | nil => cases pattern; simp [excess]
  | cons slot rest ih =>
      cases pattern with
      | cons slot' rest' =>
          have := ih rest'
          simp only [excess, List.length_cons, Nat.pow_succ]
          split <;> omega

/-- A pattern that covers a key is the key without the positions of its excess. -/
theorem masked_excess {kinds : List Kind} {key pattern : Pattern kinds}
    (h : pattern.covers key = true) : key.masked (key.excess pattern) = pattern := by
  induction key with
  | nil => cases pattern; rfl
  | cons slot rest ih =>
      cases pattern with
      | cons slot' rest' =>
          simp only [covers, Slot.covers, Bool.and_eq_true, Bool.or_eq_true, beq_iff_eq] at h
          rw [excess, masked_bit _ _ (bit_lt_two _), ih h.2]
          cases slot <;> cases slot' <;> simp_all

/-- The wildcards of a pattern that covers a key are those of the key and its excess. -/
theorem mask_eq {kinds : List Kind} {key pattern : Pattern kinds}
    (h : pattern.covers key = true) : pattern.mask = key.excess pattern + key.mask := by
  induction key with
  | nil => cases pattern; rfl
  | cons slot rest ih =>
      cases pattern with
      | cons slot' rest' =>
          simp only [covers, Slot.covers, Bool.and_eq_true, Bool.or_eq_true, beq_iff_eq] at h
          rw [mask, mask, excess, ih h.2]
          cases slot <;> cases slot' <;> simp_all <;> omega

theorem wildcards_eq {kinds : List Kind} {key pattern : Pattern kinds}
    (h : pattern.covers key = true) :
    pattern.wildcards = weight kinds.length (key.excess pattern) + key.wildcards := by
  induction key with
  | nil => cases pattern; rfl
  | cons slot rest ih =>
      cases pattern with
      | cons slot' rest' =>
          simp only [covers, Slot.covers, Bool.and_eq_true, Bool.or_eq_true, beq_iff_eq] at h
          rw [wildcards, wildcards, excess, List.length_cons,
            weight_bit (bit_lt_two _), ih h.2]
          cases slot <;> cases slot' <;> simp_all <;> omega

theorem covers_masked {kinds : List Kind} (key : Pattern kinds) (mask : Nat) :
    (key.masked mask).covers key = true := by
  induction key generalizing mask with
  | nil => rfl
  | cons slot rest ih =>
      simp only [masked, covers, ih, Bool.and_true]
      split <;> simp [Slot.covers]

/-- The excess has no more positions than any set that leads to the pattern, and is no greater. -/
theorem excess_masked_le {kinds : List Kind} (key : Pattern kinds) (mask : Nat) :
    weight kinds.length (key.excess (key.masked mask)) ≤ weight kinds.length mask ∧
      key.excess (key.masked mask) ≤ mask := by
  induction key generalizing mask with
  | nil => simp [weight, excess, masked]
  | cons slot rest ih =>
      obtain ⟨hweight, hle⟩ := ih (mask / 2)
      rw [masked, excess, List.length_cons, weight_bit (bit_lt_two _), weight]
      cases slot <;> by_cases hbit : mask % 2 = 1 <;> simp [hbit] <;> omega

/-- Patterns that cover a key come in the order of what they give up. -/
theorem before_iff (h : pattern.covers key = true) (hother : other.covers key = true) :
    Before pattern other ↔ Earlier kinds.length (key.excess pattern) (key.excess other) := by
  unfold Before Earlier
  rw [wildcards_eq h, wildcards_eq hother, mask_eq h, mask_eq hother]
  omega

end Pattern

open Pattern

namespace Table

variable {kinds : List Kind} {α : Type} {table : Table kinds α} {key : Pattern kinds} {value : α}

/-- The first hit along a list is the hit with no other before it. -/
theorem findSome?_eq_some_of_pairwise {ι β : Type} {r : ι → ι → Prop} (hirrefl : ∀ i, ¬r i i)
    (hasymm : ∀ i j, r i j → ¬r j i) {l : List ι} (h : l.Pairwise r) {f : ι → Option β} {b : β} :
    l.findSome? f = some b ↔ ∃ i ∈ l, f i = some b ∧ ∀ j ∈ l, r j i → f j = none := by
  rw [List.findSome?_eq_some_iff]
  constructor
  · rintro ⟨before, i, after, rfl, hi, hbefore⟩
    refine ⟨i, by simp, hi, fun j hj hji => ?_⟩
    have hafter := (List.pairwise_append.mp h).2.1
    rcases List.mem_append.mp hj with hj | hj
    · exact hbefore j hj
    · rcases List.mem_cons.mp hj with rfl | hj
      · exact absurd hji (hirrefl _)
      · exact absurd hji (hasymm _ _ ((List.pairwise_cons.mp hafter).1 j hj))
  · rintro ⟨i, hi, hvalue, hfirst⟩
    obtain ⟨before, after, rfl⟩ := List.append_of_mem hi
    refine ⟨before, i, after, rfl, hvalue, fun j hj => hfirst j (by simp [hj]) ?_⟩
    exact (List.pairwise_append.mp h).2.2 j hj i List.mem_cons_self

/-- **A key is decided by the first of the written patterns that cover it.** -/
theorem resolve?_eq_some_iff :
    table.resolve? key = some value ↔
      ∃ pattern, table.stored? pattern = some value ∧ pattern.covers key = true ∧
        ∀ other, (table.stored? other).isSome → other.covers key = true → other ≠ pattern →
          Before pattern other := by
  rw [resolve?, findSome?_eq_some_of_pairwise (fun i h => by unfold Earlier at h; omega)
    (fun i j h h' => by unfold Earlier at h h'; omega) (pairwise_masks kinds.length)]
  simp only [mem_masks]
  constructor
  · rintro ⟨mask, -, hvalue, hfirst⟩
    -- the set of positions that leads to the pattern is its excess
    have hexcess : key.excess (key.masked mask) = mask := by
      have hle := excess_masked_le key mask
      by_contra hne
      have hearlier : Earlier kinds.length (key.excess (key.masked mask)) mask := by
        unfold Earlier
        omega
      have hnone := hfirst _ (excess_lt _ _) hearlier
      rw [masked_excess (covers_masked key mask), hvalue] at hnone
      cases hnone
    refine ⟨key.masked mask, hvalue, covers_masked key mask, fun other hother hcovers hne => ?_⟩
    rw [before_iff (covers_masked key mask) hcovers, hexcess]
    by_contra hnot
    have hdiffer : key.excess other ≠ mask := by
      intro heq
      rw [← heq, masked_excess hcovers] at hne
      exact hne rfl
    have hearlier : Earlier kinds.length (key.excess other) mask := by
      unfold Earlier at hnot ⊢
      omega
    have hnone := hfirst _ (excess_lt _ _) hearlier
    rw [masked_excess hcovers] at hnone
    rw [hnone] at hother
    cases hother
  · rintro ⟨pattern, hvalue, hcovers, hfirst⟩
    refine ⟨key.excess pattern, excess_lt _ _, by rw [masked_excess hcovers, hvalue],
      fun mask _ hearlier => ?_⟩
    by_contra hsome
    have hle := excess_masked_le key mask
    have hother := hfirst (key.masked mask) (Option.isSome_iff_ne_none.mpr hsome)
      (covers_masked key mask)
    by_cases heq : key.masked mask = pattern
    · rw [heq] at hle
      unfold Earlier at hearlier
      omega
    · have hbefore := (before_iff hcovers (covers_masked key mask)).mp (hother heq)
      unfold Earlier at hearlier hbefore
      omega

/-- A key is not found if no written pattern covers it. -/
theorem resolve?_eq_none_iff :
    table.resolve? key = none ↔
      ∀ pattern, (table.stored? pattern).isSome → pattern.covers key = false := by
  rw [resolve?, List.findSome?_eq_none_iff]
  simp only [mem_masks]
  constructor
  · intro h pattern hstored
    by_contra hcovers
    have hnone := h _ (excess_lt key pattern)
    rw [masked_excess (Bool.not_eq_false _ ▸ hcovers)] at hnone
    rw [hnone] at hstored
    cases hstored
  · intro h mask _
    by_contra hsome
    have hcovers := h _ (Option.isSome_iff_ne_none.mpr hsome)
    rw [covers_masked] at hcovers
    cases hcovers

end Table

end MarkovPlanning
