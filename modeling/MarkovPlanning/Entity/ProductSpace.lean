/-
Spaces whose members are tuples.

A product space keeps one list of entities per factor.  Its product holds a joint
entity for every choice of one member from each factor.  The product is formed on
request, by going through the factors depth first, and every edit makes it stale,
so a product that can be had is always the product of the factors as they stand.

An edit gives its answer and the space it leaves behind, which is there after a
refusal as well.
-/
import MarkovPlanning.Entity.Buckets

namespace MarkovPlanning

/-- Factors, the product that was formed last, and whether a factor was edited since. -/
structure ProductSpace (kind : Kind) where
  factors : List (List (Entity kind))
  formed : Buckets kind := {}
  stale : Bool := true

namespace ProductSpace

variable {kind : Kind}

/-- A space of so many empty factors, at least one. -/
def ofSize (kind : Kind) (size : Nat) : ProductSpace kind where
  factors := List.replicate (max size 1) []

/-- The members of one factor. -/
def factor (space : ProductSpace kind) (index : Nat) : Except LookupFault (List (Entity kind)) :=
  match space.factors[index]? with
  | some members => .ok members
  | none => .error (.indexOutOfRange index space.factors.length)

/-- One member of one factor. -/
def member (space : ProductSpace kind) (index position : Nat) :
    Except LookupFault (Entity kind) := do
  let members ← space.factor index
  match members[position]? with
  | some entity => .ok entity
  | none => .error (.indexOutOfRange position members.length)

/-! ### Edits -/

/-- Other factors, of which no product was formed. -/
def refactored (space : ProductSpace kind) (factors : List (List (Entity kind))) :
    ProductSpace kind :=
  { space with factors, stale := true }

/-- Adds a factor after the others. -/
def addFactor (space : ProductSpace kind) (members : List (Entity kind)) :
    Except DefinitionFault Unit × ProductSpace kind :=
  if members.isEmpty then (.error (.noMembers kind), space)
  else (.ok (), space.refactored (space.factors ++ [members]))

/-- Adds a member to a factor. -/
def add (space : ProductSpace kind) (index : Nat) (entity : Entity kind) :
    Except LookupFault Unit × ProductSpace kind :=
  match space.factor index with
  | .error fault => (.error fault, space)
  | .ok members => (.ok (), space.refactored (space.factors.set index (members ++ [entity])))

/-- Takes the first occurrence of a member out of a factor. -/
def remove (space : ProductSpace kind) (index : Nat) (entity : Entity kind) :
    Except LookupFault (Entity kind) × ProductSpace kind :=
  match space.factor index with
  | .error fault => (.error fault, space)
  | .ok members =>
    if entity ∈ members then
      (.ok entity, space.refactored (space.factors.set index (members.erase entity)))
    else (.error (.notFound kind entity.name), space)

/-- Replaces the members of a factor. -/
def replace (space : ProductSpace kind) (index : Nat) (members : List (Entity kind)) :
    Except Error Unit × ProductSpace kind :=
  if members.isEmpty then (.error (.definition (.noMembers kind)), space)
  else
    match space.factor index with
    | .error fault => (.error (.lookup fault), space)
    | .ok _ => (.ok (), space.refactored (space.factors.set index members))

/-! ### The product -/

/-- Adds the joint of every tuple that goes on from the entities chosen so far with one member of
each factor that is left. -/
def expand : (left : List (List (Entity kind))) → (chosen : List (Entity kind)) → Buckets kind →
    Buckets kind
  | [], chosen, product => product.add (.joint chosen)
  | factor :: left, chosen, product =>
    factor.foldl (fun product entity => expand left (chosen ++ [entity]) product) product

/-- Forms the product of the factors. -/
def form (space : ProductSpace kind) : Except DefinitionFault Unit × ProductSpace kind :=
  match space.factors.findIdx? List.isEmpty with
  | some empty => (.error (.emptyFactor kind empty), space)
  | none => (.ok (), { space with formed := expand space.factors [] {}, stale := false })

/-- The product, if it was formed since the last edit. -/
def product (space : ProductSpace kind) : Except DefinitionFault (Buckets kind) :=
  if space.stale then .error (.staleProduct kind) else .ok space.formed

/-- The first member of the product that has a given name. -/
def find (space : ProductSpace kind) (name : String) : Except Error (Entity kind) := do
  let product ← space.product
  product.find name

end ProductSpace

end MarkovPlanning
