/-
Sums over collections and maps.

A walk over a collection meets every member once, so the sum along the walk is the
sum over the finite set of the members.  A map is walked along its own keys, which
need not be the states of a process; but a sum in which every value is a factor
only depends on the values that are not zero, so it may as well be taken over any
set that holds their keys.
-/
import MarkovPlanning.Proofs.Exact
import MarkovPlanning.Belief.AlphaVector
import Mathlib

namespace MarkovPlanning

variable {kind : Kind} {β γ : Type}

/-! ### Collections -/

namespace Collection

theorem nodup_toList (entities : Collection kind) : entities.toList.Nodup := by
  refine List.Pairwise.imp ?_ entities.distinct_toList
  intro a b h heq
  subst heq
  exact h Std.ReflCmp.compare_self

theorem exists_mem {entities : Collection kind} (h : entities ≠ ∅) :
    ∃ entity, entity ∈ entities := by
  by_contra hno
  exact h (Std.ExtTreeSet.eq_empty_iff_forall_not_mem.mpr fun entity hentity =>
    hno ⟨entity, hentity⟩)

/-- What is asked of all members can be decided by a walk. -/
instance {entities : Collection kind} {p : Entity kind → Prop} [DecidablePred p] :
    Decidable (∀ entity ∈ entities, p entity) :=
  decidable_of_iff (∀ entity ∈ entities.toList, p entity)
    (by simp only [Std.ExtTreeSet.mem_toList])

/-- The members of a collection. -/
def members (entities : Collection kind) : Finset (Entity kind) :=
  entities.toList.toFinset

theorem mem_members {entities : Collection kind} {entity : Entity kind} :
    entity ∈ entities.members ↔ entity ∈ entities := by
  unfold members
  rw [List.mem_toFinset, Std.ExtTreeSet.mem_toList]

theorem sum_toList [AddCommMonoid β] (entities : Collection kind) (f : Entity kind → β) :
    (entities.toList.map f).sum = ∑ entity ∈ entities.members, f entity :=
  (List.sum_toFinset f (nodup_toList entities)).symm

end Collection

/-! ### Maps -/

namespace EntityMap

theorem nodup_keys (values : EntityMap kind β) : (values.toList.map Prod.fst).Nodup := by
  rw [Std.ExtTreeMap.map_fst_toList_eq_keys]
  refine List.Pairwise.imp ?_ values.distinct_keys
  intro a b h heq
  subst heq
  exact h Std.ReflCmp.compare_self

theorem getD_of_mem_toList {values : EntityMap kind β} {entity : Entity kind} {value : β}
    (h : (entity, value) ∈ values.toList) (fallback : β) :
    values.getD entity fallback = value := by
  rw [Std.ExtTreeMap.getD_eq_getD_getElem?,
    Std.ExtTreeMap.mem_toList_iff_getElem?_eq_some.mp h, Option.getD_some]

/-- The sum along a map of its values, each with a factor, over any set outside of which the map
is zero. -/
theorem sum_toList {K : Type} [Field K] (values : EntityMap kind K) (f : Entity kind → K)
    {set : Finset (Entity kind)} (h : ∀ entity, entity ∉ set → values.getD entity 0 = 0) :
    (values.toList.map fun entry => entry.2 * f entry.1).sum
      = ∑ entity ∈ set, values.getD entity 0 * f entity := by
  have hterms : values.toList.map (fun entry => entry.2 * f entry.1)
      = (values.toList.map Prod.fst).map fun entity => values.getD entity 0 * f entity := by
    rw [List.map_map]
    refine List.map_congr_left fun entry hentry => ?_
    show _ = values.getD entry.1 0 * f entry.1
    rw [getD_of_mem_toList hentry]
  have habsent : ∀ entity ∉ (values.toList.map Prod.fst).toFinset,
      values.getD entity 0 = 0 := by
    intro entity hentity
    rw [List.mem_toFinset, Std.ExtTreeMap.map_fst_toList_eq_keys, Std.ExtTreeMap.mem_keys]
      at hentity
    exact Std.ExtTreeMap.getD_eq_fallback hentity
  rw [hterms, ← List.sum_toFinset _ (nodup_keys values)]
  -- both sets may be enlarged to their union by keys with value zero
  calc ∑ entity ∈ (values.toList.map Prod.fst).toFinset, values.getD entity 0 * f entity
      = ∑ entity ∈ (values.toList.map Prod.fst).toFinset ∪ set,
          values.getD entity 0 * f entity :=
        Finset.sum_subset Finset.subset_union_left fun entity _ hno => by
          rw [habsent entity hno, zero_mul]
    _ = ∑ entity ∈ set, values.getD entity 0 * f entity :=
        (Finset.sum_subset Finset.subset_union_right fun entity _ hno => by
          rw [h entity hno, zero_mul]).symm

/-- Only the entities that were written get an entry. -/
theorem mem_foldl_insert {f : Entity kind → β} {entity : Entity kind} :
    ∀ {entities : List (Entity kind)} {values : EntityMap kind β},
      entity ∈ entities.foldl (fun values entity => values.insert entity (f entity)) values
        ↔ entity ∈ entities ∨ entity ∈ values := by
  intro entities
  induction entities with
  | nil => intro values; simp
  | cons first rest ih =>
      intro values
      rw [List.foldl_cons, ih, Std.ExtTreeMap.mem_insert, List.mem_cons, or_left_comm, or_assoc,
        Std.LawfulEqCmp.compare_eq_iff_eq, eq_comm (a := first)]

/-- Writing what a function says of some entities makes a map agree with it there, and nowhere
else does it change. -/
theorem getD_foldl_insert (f : Entity kind → β) (entity : Entity kind) (fallback : β) :
    ∀ (entities : List (Entity kind)) (values : EntityMap kind β),
      (entities.foldl (fun values entity => values.insert entity (f entity)) values).getD
          entity fallback
        = if entity ∈ entities then f entity else values.getD entity fallback := by
  intro entities
  induction entities with
  | nil => intro values; rfl
  | cons first rest ih =>
      intro values
      rw [List.foldl_cons, ih]
      by_cases hrest : entity ∈ rest
      · rw [if_pos hrest, if_pos (List.mem_cons_of_mem _ hrest)]
      · rw [if_neg hrest, Std.ExtTreeMap.getD_insert]
        by_cases hfirst : entity = first
        · subst hfirst
          rw [if_pos Std.ReflCmp.compare_self, if_pos List.mem_cons_self]
        · rw [if_neg fun h => hfirst (Std.LawfulEqCmp.eq_of_compare h).symm,
            if_neg (by simp [hfirst, hrest])]

/-- Writing what a function says of the keys of a map gives the map, if the function says what the
map does. -/
theorem foldl_insert_eq {values : EntityMap kind β} {entities : List (Entity kind)}
    {f : Entity kind → β} (hmem : ∀ entity, entity ∈ values ↔ entity ∈ entities)
    (hvalue : ∀ (entity : Entity kind) (value : β), values[entity]? = some value →
      f entity = value) :
    entities.foldl (fun values entity => values.insert entity (f entity)) ∅ = values := by
  refine Std.ExtTreeMap.ext_getElem? fun entity => ?_
  have hfold : entity ∈ entities.foldl
      (fun (values : EntityMap kind β) entity => values.insert entity (f entity)) ∅ ↔
        entity ∈ entities :=
    mem_foldl_insert.trans (or_iff_left Std.ExtTreeMap.not_mem_empty)
  by_cases hentity : entity ∈ entities
  · obtain ⟨value, hget⟩ := Option.isSome_iff_exists.mp
      (Std.ExtTreeMap.isSome_getElem?_iff_mem.mpr ((hmem entity).mpr hentity))
    rw [Std.ExtTreeMap.getElem?_eq_some_getD (hfold.mpr hentity),
      getD_foldl_insert f entity (f entity), if_pos hentity, hget, hvalue entity value hget]
  · rw [Std.ExtTreeMap.getElem?_eq_none (mt hfold.mp hentity),
      Std.ExtTreeMap.getElem?_eq_none (mt (hmem entity).mp hentity)]

theorem foldl_insert_eq_insertMany (entries : List (Entity kind × β)) (values : EntityMap kind β) :
    entries.foldl (fun values entry => values.insert entry.1 entry.2) values
      = values.insertMany entries := by
  induction entries generalizing values with
  | nil => rw [List.foldl_nil, Std.ExtTreeMap.insertMany_nil]
  | cons entry rest ih => rw [List.foldl_cons, ih, Std.ExtTreeMap.insertMany_cons]

/-- A map that was written from a list in which no key comes twice has the entries of the list. -/
theorem getElem?_foldl_insert {entries : List (Entity kind × β)} {entity : Entity kind} {value : β}
    (hdistinct : entries.Pairwise fun a b => ¬compare a.1 b.1 = .eq) :
    (entries.foldl (fun values entry => values.insert entry.1 entry.2)
        (∅ : EntityMap kind β))[entity]? = some value ↔ (entity, value) ∈ entries := by
  rw [foldl_insert_eq_insertMany]
  constructor
  · intro hget
    by_cases hkey : entity ∈ entries.map Prod.fst
    · obtain ⟨⟨_, value'⟩, hentry, rfl⟩ := List.mem_map.mp hkey
      rw [Std.ExtTreeMap.getElem?_insertMany_list_of_mem Std.ReflCmp.compare_self hdistinct hentry,
        Option.some.injEq] at hget
      exact hget ▸ hentry
    · rw [Std.ExtTreeMap.getElem?_insertMany_list_of_contains_eq_false,
        Std.ExtTreeMap.getElem?_empty] at hget
      · cases hget
      · rw [List.contains_eq_mem, decide_eq_false hkey]
  · exact Std.ExtTreeMap.getElem?_insertMany_list_of_mem Std.ReflCmp.compare_self hdistinct

/-- **Writing the entries of a map one after the other gives the map.** -/
theorem foldl_insert_toList (values : EntityMap kind β) :
    values.toList.foldl (fun values entry => values.insert entry.1 entry.2) ∅ = values := by
  refine Std.ExtTreeMap.ext_getElem? fun entity => Option.ext fun value => ?_
  rw [getElem?_foldl_insert values.distinct_keys_toList,
    Std.ExtTreeMap.mem_toList_iff_getElem?_eq_some]

end EntityMap

end MarkovPlanning
