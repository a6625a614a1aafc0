/-
Keys with wildcards.

A pattern has one slot for each position of a key, and a slot holds an entity or
stands for every entity of its family.  The positions are numbered from zero, and
a set of positions is a number with one bit per position.

A key is looked for under the patterns obtained by giving up some of its
positions.  `masks` lists the sets of positions to give up: fewer positions first,
and of two sets of one size the smaller number first.
-/
import MarkovPlanning.Entity.Basic

namespace MarkovPlanning

/-- One slot per position; an empty slot is the wildcard. -/
inductive Pattern : List Kind → Type where
  | nil : Pattern []
  | cons {kind : Kind} {kinds : List Kind} (slot : Option (Entity kind)) (rest : Pattern kinds) :
      Pattern (kind :: kinds)

namespace Pattern

variable {kinds : List Kind}

/-- The pattern with wildcards at the positions of `mask` as well. -/
def masked : {kinds : List Kind} → Pattern kinds → (mask : Nat) → Pattern kinds
  | _, nil, _ => nil
  | _, cons slot rest, mask =>
      cons (if mask % 2 = 1 then none else slot) (rest.masked (mask / 2))

/-- The positions of the wildcards. -/
def mask : {kinds : List Kind} → Pattern kinds → Nat
  | _, nil => 0
  | _, cons slot rest => (if slot.isNone then 1 else 0) + 2 * rest.mask

/-- Whether a slot lets another one through: the wildcard lets everything through. -/
def Slot.covers {kind : Kind} (slot other : Option (Entity kind)) : Bool :=
  slot.isNone || slot == other

/-- Whether each slot is a wildcard or holds what the other pattern holds there. -/
def covers : {kinds : List Kind} → Pattern kinds → Pattern kinds → Bool
  | _, nil, nil => true
  | _, cons slot rest, cons other others => Slot.covers slot other && rest.covers others

/-- The pattern with one more slot after the others. -/
def snoc {kind : Kind} : {kinds : List Kind} → Pattern kinds → Option (Entity kind) →
    Pattern (kinds ++ [kind])
  | _, nil, last => cons last nil
  | _, cons slot rest, last => cons slot (rest.snoc last)

/-! ### Sets of positions -/

/-- The number of positions in a set of positions among the first `arity`. -/
def weight : (arity mask : Nat) → Nat
  | 0, _ => 0
  | arity + 1, mask => mask % 2 + weight arity (mask / 2)

/-- The sets of positions of a key of length `arity`, in the order in which they are given up. -/
def masks (arity : Nat) : List Nat :=
  (List.range (arity + 1)).flatMap fun count =>
    (List.range (1 <<< arity)).filter fun mask => weight arity mask == count

example : masks 2 = [0b00, 0b01, 0b10, 0b11] := by decide

example : masks 3 = [0b000, 0b001, 0b010, 0b100, 0b011, 0b101, 0b110, 0b111] := by decide

example : masks 4 = [0b0000, 0b0001, 0b0010, 0b0100, 0b1000, 0b0011, 0b0101, 0b0110, 0b1001,
    0b1010, 0b1100, 0b0111, 0b1011, 0b1101, 0b1110, 0b1111] := by decide

/-! ### Order -/

/-- Patterns are compared slot by slot; the wildcard comes before every entity. -/
protected def compare : {kinds : List Kind} → Pattern kinds → Pattern kinds → Ordering
  | _, nil, nil => .eq
  | _, cons slot rest, cons other others => (Ord.compare slot other).then (rest.compare others)

instance : Ord (Pattern kinds) := ⟨Pattern.compare⟩

theorem compare_cons {kind : Kind} (a b : Option (Entity kind)) (r q : Pattern kinds) :
    compare (cons a r) (cons b q) = (compare a b).then (compare r q) := rfl

theorem compare_swap {kinds : List Kind} (p q : Pattern kinds) :
    (compare q p).swap = compare p q := by
  induction p with
  | nil => cases q; rfl
  | cons slot rest ih =>
    cases q with
    | cons other others =>
      rw [compare_cons, compare_cons, Ordering.swap_then, ih,
        ← (Std.OrientedCmp.eq_swap : compare slot other = _)]

theorem eq_of_compare {kinds : List Kind} {p q : Pattern kinds} (h : compare p q = .eq) :
    p = q := by
  induction p with
  | nil => cases q; rfl
  | cons slot rest ih =>
    cases q with
    | cons other others =>
      rw [compare_cons, Ordering.then_eq_eq, Std.LawfulEqOrd.compare_eq_iff_eq] at h
      rw [h.1, ih h.2]

theorem compare_self {kinds : List Kind} (p : Pattern kinds) : compare p p = .eq := by
  induction p with
  | nil => rfl
  | cons slot rest ih =>
    rw [compare_cons, (Std.ReflCmp.compare_self : compare slot slot = _), ih]
    rfl

theorem compare_lt_trans {kinds : List Kind} {p q r : Pattern kinds} (hpq : compare p q = .lt)
    (hqr : compare q r = .lt) : compare p r = .lt := by
  induction p with
  | nil => cases q; cases hpq
  | cons a p ih =>
    cases q with
    | cons b q =>
      cases r with
      | cons c r =>
        rw [compare_cons, Label.then_eq_lt, Std.LawfulEqOrd.compare_eq_iff_eq] at *
        rcases hpq with hab | ⟨rfl, hpq⟩
        · rcases hqr with hbc | ⟨rfl, -⟩
          · exact .inl (Std.TransCmp.lt_trans hab hbc)
          · exact .inl hab
        · rcases hqr with hbc | ⟨rfl, hqr⟩
          · exact .inl hbc
          · exact .inr ⟨rfl, ih hpq hqr⟩

instance : Std.OrientedOrd (Pattern kinds) where
  eq_swap := (compare_swap _ _).symm

instance : Std.TransOrd (Pattern kinds) where
  isLE_trans {p q r} hpq hqr := by
    rcases hpq' : compare p q with _ | _ | _
    · rcases hqr' : compare q r with _ | _ | _
      · rw [compare_lt_trans hpq' hqr']; rfl
      · rw [← eq_of_compare hqr', hpq']; rfl
      · simp [hqr'] at hqr
    · rwa [eq_of_compare hpq']
    · simp [hpq'] at hpq

instance : Std.LawfulEqOrd (Pattern kinds) where
  eq_of_compare := eq_of_compare

instance : DecidableEq (Pattern kinds) := fun p q =>
  decidable_of_iff (compare p q = .eq) Std.LawfulEqOrd.compare_eq_iff_eq

end Pattern

end MarkovPlanning
