/-
How a collection is laid out.

Members that share a hash are kept together in a bucket, in increasing order, and
the buckets are kept by hash.  A member is looked for by bisection in the bucket
of its hash, and what the bisection gives for an entity that is not there is the
position at which it belongs.  The number of members is kept beside the buckets
and never counted.
-/
import MarkovPlanning.Entity.Collection

namespace MarkovPlanning

/-- Buckets of entities by hash, and how many entities there are in all. -/
structure Buckets (kind : Kind) where
  byHash : Std.ExtTreeMap UInt32 (Array (Entity kind)) := ∅
  size : Nat := 0

namespace Buckets

variable {kind : Kind}

/-! ### Bisection -/

/-- A place in a bucket of a given size. -/
inductive Place (size : Nat) where
  /-- The entity stands at a position. -/
  | found (position : Nat) (hlt : position < size)
  /-- The entity is missing, and belongs before a position or at the end. -/
  | missing (position : Nat) (hle : position ≤ size)

/-- The place of an entity in the part of a bucket from `low` up to `high`. -/
def bisect (bucket : Array (Entity kind)) (entity : Entity kind) (low high : Nat)
    (hlow : low ≤ high) (hhigh : high ≤ bucket.size) : Place bucket.size :=
  if h : low < high then
    let middle := low + (high - low) / 2
    match compare bucket[middle] entity with
    | .lt => bisect bucket entity (middle + 1) high (by omega) hhigh
    | .eq => .found middle (by omega)
    | .gt => bisect bucket entity low middle (by omega) (by omega)
  else .missing low (Nat.le_trans hlow hhigh)
termination_by high - low

/-- The place of an entity in a bucket. -/
def place (bucket : Array (Entity kind)) (entity : Entity kind) : Place bucket.size :=
  bisect bucket entity 0 bucket.size (Nat.zero_le _) (Nat.le_refl _)

/-- The bucket with an entity put in its place, unless it stands there already. -/
def putIn? (bucket : Array (Entity kind)) (entity : Entity kind) :
    Option (Array (Entity kind)) :=
  match place bucket entity with
  | .found _ _ => none
  | .missing position hle => some (bucket.insertIdx position entity hle)

/-- The entity that stands in a bucket, and the bucket without it. -/
def takeOut? (bucket : Array (Entity kind)) (entity : Entity kind) :
    Option (Entity kind × Array (Entity kind)) :=
  match place bucket entity with
  | .found position hlt => some (bucket[position], bucket.eraseIdx position hlt)
  | .missing _ _ => none

/-! ### Changes -/

/-- Adds an entity, unless it is there.  A hash without a bucket gets an empty one first. -/
def add (buckets : Buckets kind) (entity : Entity kind) : Buckets kind :=
  let opened := buckets.byHash.insertIfNew entity.hash #[]
  match putIn? (opened.getD entity.hash #[]) entity with
  | none => { buckets with byHash := opened }
  | some bucket =>
    { byHash := opened.insert entity.hash bucket, size := buckets.size + 1 }

/-- Takes a member out and hands it over.  A bucket goes with its last member. -/
def remove (buckets : Buckets kind) (entity : Entity kind) :
    Except LookupFault (Entity kind) × Buckets kind :=
  match (buckets.byHash[entity.hash]?).bind (takeOut? · entity) with
  | none => (.error (.notFound kind entity.name), buckets)
  | some (removed, bucket) =>
    (.ok removed,
      { byHash :=
          if bucket.isEmpty then buckets.byHash.erase entity.hash
          else buckets.byHash.insert entity.hash bucket
        size := buckets.size - 1 })

/-- The buckets of the entities of a list, added one by one. -/
def ofList (entities : List (Entity kind)) : Buckets kind := entities.foldl add {}

/-! ### Questions -/

/-- The members, bucket by bucket. -/
def toList (buckets : Buckets kind) : List (Entity kind) :=
  buckets.byHash.toList.flatMap fun entry => entry.2.toList

def isEmpty (buckets : Buckets kind) : Bool := buckets.size == 0

/-- Whether bisection finds an entity in the bucket of its hash. -/
def contains (buckets : Buckets kind) (entity : Entity kind) : Bool :=
  (buckets.byHash[entity.hash]?).any fun bucket =>
    match place bucket entity with
    | .found _ _ => true
    | .missing _ _ => false

/-- The member that an entity stands for in tables: the one that is equal to it. -/
def resolve? (buckets : Buckets kind) (entity : Entity kind) : Option (Entity kind) := do
  let bucket ← buckets.byHash[entity.hash]?
  bucket.find? (· == entity)

/-- The member at a position of the walk. -/
def nth (buckets : Buckets kind) (index : Nat) : Except LookupFault (Entity kind) :=
  match buckets.toList[index]? with
  | some entity => .ok entity
  | none => .error (.indexOutOfRange index buckets.size)

/-- The first member of the walk that has a given name. -/
def find (buckets : Buckets kind) (name : String) : Except LookupFault (Entity kind) :=
  match buckets.toList.find? (·.name == name) with
  | some entity => .ok entity
  | none => .error (.notFound kind name)

/-- The members as a set. -/
def collection (buckets : Buckets kind) : Collection kind := .ofList buckets.toList

end Buckets

end MarkovPlanning
