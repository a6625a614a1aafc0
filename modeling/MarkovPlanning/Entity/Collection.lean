/-
Finite sets of entities, and finite maps from entities.

Both are the library's ordered containers over the order of `Entity`, which begins
with the hash.  Two collections with the same members are equal, so nothing that
is computed from a collection can depend on the order in which it was filled, and
a walk over one meets every member once, in increasing order.  A look-up by name
is such a walk: it finds the least member of that name.
-/
import MarkovPlanning.Error
import Std.Data.ExtTreeMap
import Std.Data.ExtTreeSet

namespace MarkovPlanning

/-- A finite set of entities of one family. -/
abbrev Collection (kind : Kind) := Std.ExtTreeSet (Entity kind)

/-- A finite map from the entities of one family. -/
abbrev EntityMap (kind : Kind) (β : Type) := Std.ExtTreeMap (Entity kind) β

namespace Collection

variable {kind : Kind}

/-- The collection of the members of a list. -/
def ofList (entities : List (Entity kind)) : Collection kind :=
  Std.ExtTreeSet.ofList entities

/-- The collection of the entities with given names. -/
def ofNames (kind : Kind) (names : List String) : Collection kind :=
  ofList (names.map (Entity.named kind))

/-- Takes a member out and hands it over with what is left. -/
def remove (entities : Collection kind) (entity : Entity kind) :
    Except LookupFault (Entity kind × Collection kind) :=
  if entity ∈ entities then
    .ok (entity, entities.erase entity)
  else
    .error (.notFound kind entity.name)

/-- The member at a position of the walk. -/
def nth (entities : Collection kind) (index : Nat) : Except LookupFault (Entity kind) :=
  match entities.toList[index]? with
  | some entity => .ok entity
  | none => .error (.indexOutOfRange index entities.size)

/-- The first member of the walk that has a given name. -/
def find (entities : Collection kind) (name : String) : Except LookupFault (Entity kind) :=
  match entities.toList.find? (·.name == name) with
  | some entity => .ok entity
  | none => .error (.notFound kind name)

/-- The members in words. -/
def describe (entities : Collection kind) : String :=
  "[" ++ ", ".intercalate (entities.toList.map Entity.describe) ++ "]"

end Collection

end MarkovPlanning
