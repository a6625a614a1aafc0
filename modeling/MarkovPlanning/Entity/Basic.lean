/-
States, actions and observations.

An entity is a label together with the family it belongs to, and it carries the
hash of its label so that comparing two entities rarely has to look further.  The
carried hash is determined by the label, so entities with one label are equal
(`Entity.ext`), and their order is the order of the labels
(`Entity.compare_eq`).  Everything that has to be true of a key of a sorted
container follows from that.
-/
import MarkovPlanning.Entity.Label
import MarkovPlanning.Text.Quoted

namespace MarkovPlanning

/-- The three families of entities. -/
inductive Kind where
  | state
  | action
  | observation
deriving DecidableEq, Repr, Inhabited

/-- The family in words. -/
def Kind.name : Kind → String
  | state => "state"
  | action => "action"
  | observation => "observation"

/-- A named entity of a family, or a tuple of entities of that family. -/
structure Entity (kind : Kind) where
  label : Label
  /-- The hash of the label, kept so that it is computed once. -/
  hash : UInt32 := label.hash
  hash_eq : hash = label.hash := by rfl

abbrev State := Entity .state
abbrev Action := Entity .action
abbrev Observation := Entity .observation

namespace Entity

variable {kind : Kind}

/-- Two entities with one label are equal. -/
@[ext]
theorem ext {a b : Entity kind} (h : a.label = b.label) : a = b := by
  obtain ⟨la, ha, ha'⟩ := a
  obtain ⟨lb, hb, hb'⟩ := b
  subst ha' hb'
  obtain rfl : la = lb := h
  rfl

/-- The entity with a name. -/
def named (kind : Kind) (name : String) : Entity kind where
  label := .name name

/-- The tuple of some entities.  A tuple of nothing is the entity with the empty name. -/
def joint (factors : List (Entity kind)) : Entity kind where
  label := Label.ofParts (factors.map label)

instance : Inhabited (Entity kind) := ⟨named kind ""⟩

/-- The name of a named entity, or the names in a tuple separated by single blanks. -/
def name (entity : Entity kind) : String := entity.label.text

/-- The members of a tuple; a named entity has none. -/
def factors (entity : Entity kind) : List (Entity kind) :=
  entity.label.parts.map fun part => { label := part }

def isFactored (entity : Entity kind) : Bool := !entity.label.parts.isEmpty

/-- The family and the quoted name. -/
def describe (entity : Entity kind) : String :=
  kind.name ++ "(" ++ Text.quoted entity.name ++ ")"

/-- The family and the hash, which need not tell entities apart. -/
def hashTag (entity : Entity kind) : String :=
  kind.name ++ "#" ++ toString entity.hash.toNat

/-! ### Order -/

instance : Ord (Entity kind) where
  compare a b := (compare a.hash b.hash).then (Label.compareWithin a.label b.label)

theorem compare_eq (a b : Entity kind) : compare a b = compare a.label b.label := by
  change (compare a.hash b.hash).then _ = _
  rw [Label.compare_def, a.hash_eq, b.hash_eq]

instance : Std.OrientedOrd (Entity kind) where
  eq_swap {a b} := by rw [compare_eq, compare_eq]; exact Std.OrientedCmp.eq_swap

instance : Std.TransOrd (Entity kind) where
  isLE_trans {a b c} hab hbc := by
    rw [compare_eq] at *
    exact Std.TransCmp.isLE_trans hab hbc

instance : Std.LawfulEqOrd (Entity kind) where
  eq_of_compare {a b} h := by
    rw [compare_eq] at h
    exact Entity.ext (Std.LawfulEqCmp.eq_of_compare h)

instance : DecidableEq (Entity kind) := fun a b =>
  decidable_of_iff (compare a b = .eq) Std.LawfulEqOrd.compare_eq_iff_eq

end Entity

end MarkovPlanning
