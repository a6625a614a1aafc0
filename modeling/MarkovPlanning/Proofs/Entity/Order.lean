/-
Walks in the order of the entities.

A collection is always walked in increasing order, whatever it is kept in.  A finite set has only
one such walk (`Walks.unique`), so everything that is found by walking is a matter of the set: the
entity at a position is the one that so many members come before (`Walks.getElem?_eq_some_iff`),
and the first one with a name is the least (`Walks.find?_eq_some_iff`).
-/
import MarkovPlanning.Entity.Collection
import Mathlib

namespace MarkovPlanning

variable {kind : Kind}

namespace Entity

/-- The order of a walk: by hash, then by name, then by members. -/
def Precedes (a b : Entity kind) : Prop := compare a b = .lt

instance : DecidableRel (@Precedes kind) :=
  fun a b => inferInstanceAs (Decidable (compare a b = .lt))

theorem precedes_of_hash {a b : Entity kind} (h : compare a.hash b.hash = .lt) : Precedes a b := by
  show (compare a.hash b.hash).then _ = .lt
  rw [h]
  rfl

theorem not_precedes_self (a : Entity kind) : ¬Precedes a a := by
  intro h
  have heq : compare a a = .eq := Std.ReflCmp.compare_self
  cases heq.symm.trans h

theorem Precedes.trans {a b c : Entity kind} (hab : Precedes a b) (hbc : Precedes b c) :
    Precedes a c :=
  Std.TransCmp.lt_trans hab hbc

theorem Precedes.asymm {a b : Entity kind} (h : Precedes a b) : ¬Precedes b a :=
  fun h' => not_precedes_self a (h.trans h')

instance : Std.Irrefl (@Precedes kind) := ⟨not_precedes_self⟩

instance : Std.Antisymm (@Precedes kind) := ⟨fun _ _ h h' => absurd h' h.asymm⟩

end Entity

open Entity

/-- A walk meets the members of a set in increasing order, and nothing else. -/
structure Walks (walk : List (Entity kind)) (members : Finset (Entity kind)) : Prop where
  ordered : walk.Pairwise Precedes
  mem : ∀ entity, entity ∈ walk ↔ entity ∈ members

namespace Walks

variable {walk walk' : List (Entity kind)} {members : Finset (Entity kind)} {entity : Entity kind}

/-- **A set has one walk.** -/
theorem unique (h : Walks walk members) (h' : Walks walk' members) : walk = walk' :=
  h.ordered.eq_of_mem_iff h'.ordered fun entity => (h.mem entity).trans (h'.mem entity).symm

theorem nodup (h : Walks walk members) : walk.Nodup := by
  refine List.Pairwise.imp ?_ h.ordered
  rintro a _ hlt rfl
  exact not_precedes_self a hlt

theorem length_eq (h : Walks walk members) : walk.length = members.card := by
  have hmembers : walk.toFinset = members := by
    ext entity
    rw [List.mem_toFinset, h.mem]
  rw [← hmembers, List.toFinset_card_of_nodup h.nodup]

/-- What comes before an entity on the walk is what precedes it. -/
theorem card_precedes {before after : List (Entity kind)}
    (h : Walks (before ++ entity :: after) members) :
    {other ∈ members | Precedes other entity}.card = before.length := by
  have hordered := List.pairwise_append.mp h.ordered
  have hafter := List.pairwise_cons.mp hordered.2.1
  have hbefore : {other ∈ members | Precedes other entity} = before.toFinset := by
    ext other
    rw [Finset.mem_filter, ← h.mem, List.mem_append, List.mem_cons, List.mem_toFinset]
    constructor
    · rintro ⟨hother | rfl | hother, hlt⟩
      · exact hother
      · exact absurd hlt (not_precedes_self _)
      · exact absurd hlt (hafter.1 other hother).asymm
    · exact fun hother => ⟨.inl hother, hordered.2.2 other hother entity List.mem_cons_self⟩
  rw [hbefore, List.toFinset_card_of_nodup (List.Nodup.of_append_left h.nodup)]

/-- **At a position stands the member that so many others precede.** -/
theorem getElem?_eq_some_iff (h : Walks walk members) {index : Nat} :
    walk[index]? = some entity ↔
      entity ∈ members ∧ {other ∈ members | Precedes other entity}.card = index := by
  constructor
  · intro hget
    obtain ⟨hlt, rfl⟩ := List.getElem?_eq_some_iff.mp hget
    refine ⟨(h.mem _).mp (List.getElem_mem hlt), ?_⟩
    have hsplit : walk = walk.take index ++ walk[index] :: walk.drop (index + 1) := by
      rw [List.getElem_cons_drop, List.take_append_drop]
    rw [(hsplit ▸ h : Walks (walk.take index ++ walk[index] :: walk.drop (index + 1))
      members).card_precedes, List.length_take_of_le hlt.le]
  · rintro ⟨hmem, rfl⟩
    obtain ⟨before, after, rfl⟩ := List.append_of_mem ((h.mem entity).mpr hmem)
    rw [h.card_precedes]
    simp

theorem getElem?_eq_none_iff (h : Walks walk members) {index : Nat} :
    walk[index]? = none ↔ members.card ≤ index := by
  rw [List.getElem?_eq_none_iff, h.length_eq]

/-- **The first member with a property is the least one.** -/
theorem find?_eq_some_iff (h : Walks walk members) {p : Entity kind → Bool} :
    walk.find? p = some entity ↔
      entity ∈ members ∧ p entity = true ∧
        ∀ other ∈ members, p other = true → other ≠ entity → Precedes entity other := by
  rw [List.find?_eq_some_iff_append]
  constructor
  · rintro ⟨hp, before, after, rfl, hbefore⟩
    refine ⟨(h.mem _).mp (by simp), hp, fun other hother hp' hne => ?_⟩
    rcases List.mem_append.mp ((h.mem other).mpr hother) with hmem | hmem
    · exact absurd (hbefore other hmem) (by simp [hp'])
    · have hafter := (List.pairwise_append.mp h.ordered).2.1
      exact (List.pairwise_cons.mp hafter).1 other ((List.mem_cons.mp hmem).resolve_left hne)
  · rintro ⟨hmem, hp, hleast⟩
    obtain ⟨before, after, rfl⟩ := List.append_of_mem ((h.mem entity).mpr hmem)
    refine ⟨hp, before, after, rfl, fun other hother => ?_⟩
    have hlt : Precedes other entity :=
      (List.pairwise_append.mp h.ordered).2.2 other hother entity List.mem_cons_self
    by_contra hp'
    refine (hleast other ((h.mem other).mp (by simp [hother])) (by simpa using hp') ?_).asymm hlt
    rintro rfl
    exact not_precedes_self _ hlt

theorem find?_eq_none_iff (h : Walks walk members) {p : Entity kind → Bool} :
    walk.find? p = none ↔ ∀ entity ∈ members, p entity = false := by
  simp only [List.find?_eq_none, h.mem, Bool.not_eq_true]

end Walks

end MarkovPlanning
