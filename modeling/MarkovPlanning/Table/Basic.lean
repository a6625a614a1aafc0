/-
Sparse tables whose keys may hold wildcards.

A table keeps one value per pattern, the one written last.  A key is resolved by
trying the patterns that cover it, from the one with the fewest wildcards; the
first that was written decides.  Tables that hold the same values under the same
patterns are equal, in whatever order they were written.
-/
import MarkovPlanning.Table.Pattern
import Std.Data.ExtTreeMap

namespace MarkovPlanning

/-- Values under patterns. -/
structure Table (kinds : List Kind) (α : Type) where
  entries : Std.ExtTreeMap (Pattern kinds) α := ∅

namespace Table

variable {kinds : List Kind} {α : Type}

/-- Writes a value under a pattern, in place of what was there. -/
def insert (table : Table kinds α) (pattern : Pattern kinds) (value : α) : Table kinds α where
  entries := table.entries.insert pattern value

/-- The value under exactly this pattern. -/
def stored? (table : Table kinds α) (pattern : Pattern kinds) : Option α :=
  table.entries[pattern]?

/-- The value under the first written pattern among those that give up positions of `key`. -/
def resolve? (table : Table kinds α) (key : Pattern kinds) : Option α :=
  (Pattern.masks kinds.length).findSome? fun mask => table.stored? (key.masked mask)

/-- The number of patterns written. -/
def size (table : Table kinds α) : Nat := table.entries.size

def isEmpty (table : Table kinds α) : Bool := table.entries.isEmpty

/-- What is written, in the order of the patterns. -/
def toList (table : Table kinds α) : List (Pattern kinds × α) := table.entries.toList

/-- The table of a list of writes. -/
def ofList (writes : List (Pattern kinds × α)) : Table kinds α :=
  writes.foldl (fun table write => table.insert write.1 write.2) {}

/-- The same values for keys with one more position, which is left open. -/
def widen (table : Table kinds α) (kind : Kind) : Table (kinds ++ [kind]) α :=
  ofList (table.toList.map fun entry => (entry.1.snoc none, entry.2))

end Table

end MarkovPlanning
