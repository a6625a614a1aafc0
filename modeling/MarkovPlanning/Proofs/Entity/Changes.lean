/-
What a collection answers after any number of changes.

The entities that were added and not removed since are the members (`Change.Present`).  One change
of the buckets is one change of the members (`Holds.change`), so after any changes the buckets
hold exactly these (`holds_run`), and each answer can be said in terms of the members alone
(`Answers`): nothing of the order of the changes is left, and the hashes are seen only in the
order of a walk.
-/
import MarkovPlanning.Proofs.Entity.Buckets
import Mathlib

namespace MarkovPlanning

open Entity

variable {kind : Kind}

/-- A call that may change a collection. -/
inductive Change (kind : Kind) where
  | add (entity : Entity kind)
  | remove (entity : Entity kind)
  | replace (entities : List (Entity kind))
  | clear

/-- One of some calls is the last one, or the last one comes after it. -/
theorem concat_eq_append_cons_iff {β : Type} {calls before after : List β} {last call : β} :
    calls ++ [last] = before ++ call :: after ↔
      (calls = before ∧ last = call ∧ after = []) ∨
        ∃ rest, calls = before ++ call :: rest ∧ after = rest ++ [last] := by
  constructor
  · intro h
    rcases List.eq_nil_or_concat after with rfl | ⟨rest, final, rfl⟩
    · obtain ⟨hcalls, hlast⟩ := List.append_inj' h rfl
      exact .inl ⟨hcalls, List.singleton_inj.mp hlast, rfl⟩
    · rw [List.concat_eq_append, ← List.cons_append, ← List.append_assoc] at h
      obtain ⟨hcalls, hlast⟩ := List.append_inj' h rfl
      obtain rfl : last = final := List.singleton_inj.mp hlast
      exact .inr ⟨rest, hcalls, List.concat_eq_append⟩
  · rintro (⟨rfl, rfl, rfl⟩ | ⟨rest, rfl, rfl⟩)
    · rfl
    · rw [List.append_assoc, List.cons_append]

/-! ### Members -/

namespace Change

/-- A change after which an entity is there. -/
def Brings (entity : Entity kind) : Change kind → Prop
  | add added => added = entity
  | remove _ => False
  | replace entities => entity ∈ entities
  | clear => False

/-- A change after which an entity is not there. -/
def Drops (entity : Entity kind) : Change kind → Prop
  | add _ => False
  | remove removed => removed = entity
  | replace entities => entity ∉ entities
  | clear => True

/-- An entity that was added and not removed since. -/
def Present (changes : List (Change kind)) (entity : Entity kind) : Prop :=
  ∃ before change after, changes = before ++ change :: after ∧ change.Brings entity ∧
    ∀ later ∈ after, ¬later.Drops entity

/-- The members after one more change. -/
def applied (members : Finset (Entity kind)) : Change kind → Finset (Entity kind)
  | add entity => insert entity members
  | remove entity => members.erase entity
  | replace entities => entities.toFinset
  | clear => ∅

/-- The members after some changes. -/
def members (changes : List (Change kind)) : Finset (Entity kind) := changes.foldl applied ∅

variable {changes : List (Change kind)} {last : Change kind} {entity : Entity kind}

theorem mem_applied {members : Finset (Entity kind)} :
    entity ∈ applied members last ↔
      last.Brings entity ∨ entity ∈ members ∧ ¬last.Drops entity := by
  cases last with
  | add added => simp [applied, Brings, Drops, eq_comm]
  | remove removed => simp [applied, Brings, Drops, and_comm, eq_comm]
  | replace entities => simp [applied, Brings, Drops]
  | clear => simp [applied, Brings, Drops]

theorem not_present_nil : ¬Present [] entity := by
  rintro ⟨before, change, after, h, -⟩
  simp at h

theorem present_concat :
    Present (changes ++ [last]) entity ↔
      last.Brings entity ∨ Present changes entity ∧ ¬last.Drops entity := by
  constructor
  · rintro ⟨before, change, after, h, hbrings, hkept⟩
    rcases concat_eq_append_cons_iff.mp h with ⟨rfl, rfl, rfl⟩ | ⟨rest, rfl, rfl⟩
    · exact .inl hbrings
    · exact .inr ⟨⟨before, change, rest, rfl, hbrings, fun later hlater =>
        hkept later (List.mem_append_left _ hlater)⟩, hkept last (by simp)⟩
  · rintro (hbrings | ⟨⟨before, change, after, rfl, hbrings, hkept⟩, hlast⟩)
    · exact ⟨changes, last, [], rfl, hbrings, by simp⟩
    · refine ⟨before, change, after ++ [last], by simp, hbrings, fun later hlater => ?_⟩
      rcases List.mem_append.mp hlater with hlater | hlater
      · exact hkept later hlater
      · obtain rfl := List.mem_singleton.mp hlater
        exact hlast

/-- **The members are the entities that were added and not removed since.** -/
theorem mem_members : entity ∈ members changes ↔ Present changes entity := by
  induction changes using List.reverseRecOn with
  | nil => exact iff_of_false (Finset.notMem_empty entity) not_present_nil
  | append_singleton changes last ih =>
      rw [members, List.foldl_concat, mem_applied, present_concat, ← members, ih]

end Change

/-! ### Buckets -/

namespace Buckets

variable {buckets : Buckets kind} {members : Finset (Entity kind)}

/-- The buckets after one call. -/
def change (buckets : Buckets kind) : Change kind → Buckets kind
  | .add entity => buckets.add entity
  | .remove entity => (buckets.remove entity).2
  | .replace entities => ofList entities
  | .clear => {}

/-- The buckets after some calls. -/
def run (changes : List (Change kind)) : Buckets kind := changes.foldl change {}

theorem Holds.foldl_add (h : Holds buckets members) (entities : List (Entity kind)) :
    Holds (entities.foldl Buckets.add buckets) (members ∪ entities.toFinset) := by
  induction entities generalizing buckets members with
  | nil => simpa using h
  | cons entity rest ih =>
      have hrest := ih (h.add entity)
      rwa [Finset.insert_union, ← Finset.union_insert, ← List.toFinset_cons] at hrest

/-- The buckets of a list hold its entities. -/
theorem holds_ofList (entities : List (Entity kind)) :
    Holds (ofList entities) entities.toFinset := by
  have h := Holds.empty.foldl_add entities
  rwa [Finset.empty_union] at h

/-- **A change of the buckets is a change of the members.** -/
theorem Holds.change (h : Holds buckets members) (change : Change kind) :
    Holds (buckets.change change) (Change.applied members change) := by
  cases change with
  | add entity => exact h.add entity
  | remove entity =>
      show Holds (buckets.remove entity).2 (members.erase entity)
      by_cases hmem : entity ∈ members
      · obtain ⟨after, hremove, hafter⟩ := h.remove_of_mem hmem
        rw [hremove]
        exact hafter
      · rw [h.remove_of_notMem hmem, Finset.erase_eq_of_notMem hmem]
        exact h
  | replace entities => exact holds_ofList entities
  | clear => exact Holds.empty

/-- **The buckets hold the entities that were added and not removed since.** -/
theorem holds_run (changes : List (Change kind)) :
    Holds (run changes) (Change.members changes) := by
  induction changes using List.reverseRecOn with
  | nil => exact Holds.empty
  | append_singleton changes last ih =>
      rw [run, Change.members, List.foldl_concat, List.foldl_concat]
      exact ih.change last

/-! ### Answers -/

/-- Buckets from which every question is answered as for a set. -/
structure Answers (buckets : Buckets kind) (members : Finset (Entity kind)) : Prop where
  /-- A walk meets the members in increasing order. -/
  walks : Walks buckets.toList members
  size_eq : buckets.size = members.card
  isEmpty_iff : buckets.isEmpty = true ↔ members = ∅
  contains_iff : ∀ entity, buckets.contains entity = true ↔ entity ∈ members
  resolve_iff : ∀ entity found,
    buckets.resolve? entity = some found ↔ found = entity ∧ entity ∈ members
  /-- At a position stands the member that so many others precede. -/
  nth_iff : ∀ index entity, buckets.nth index = .ok entity ↔
    entity ∈ members ∧ {other ∈ members | Precedes other entity}.card = index
  nth_error_iff : ∀ index fault, buckets.nth index = .error fault ↔
    members.card ≤ index ∧ fault = .indexOutOfRange index members.card
  /-- The least member of a name is found. -/
  find_iff : ∀ name entity, buckets.find name = .ok entity ↔
    entity ∈ members ∧ entity.name = name ∧
      ∀ other ∈ members, other.name = name → other ≠ entity → Precedes entity other
  find_error_iff : ∀ name fault, buckets.find name = .error fault ↔
    (∀ entity ∈ members, entity.name ≠ name) ∧ fault = .notFound kind name
  remove_member : ∀ entity ∈ members, (buckets.remove entity).1 = .ok entity
  /-- What is not there is not removed, and nothing changes. -/
  remove_other : ∀ entity ∉ members,
    buckets.remove entity = (.error (.notFound kind entity.name), buckets)
  /-- No bucket is empty, or in disorder, or under a hash that is not that of its members. -/
  filed : ∀ hash bucket, buckets.byHash[hash]? = some bucket → Filed hash bucket

theorem nth_eq_ok_iff {index : Nat} {entity : Entity kind} :
    buckets.nth index = .ok entity ↔ buckets.toList[index]? = some entity := by
  unfold nth
  cases buckets.toList[index]? with
  | some other => simp
  | none => simp

theorem nth_eq_error_iff {index : Nat} {fault : LookupFault} :
    buckets.nth index = .error fault ↔
      buckets.toList[index]? = none ∧ fault = .indexOutOfRange index buckets.size := by
  unfold nth
  cases buckets.toList[index]? with
  | some other => simp
  | none => simp [eq_comm]

theorem find_eq_ok_iff {name : String} {entity : Entity kind} :
    buckets.find name = .ok entity ↔ buckets.toList.find? (·.name == name) = some entity := by
  unfold find
  cases buckets.toList.find? (·.name == name) with
  | some other => simp
  | none => simp

theorem find_eq_error_iff {name : String} {fault : LookupFault} :
    buckets.find name = .error fault ↔
      buckets.toList.find? (·.name == name) = none ∧ fault = .notFound kind name := by
  unfold find
  cases buckets.toList.find? (·.name == name) with
  | some other => simp
  | none => simp [eq_comm]

theorem Holds.answers (h : Holds buckets members) : Answers buckets members where
  walks := h.walks
  size_eq := h.size_eq
  isEmpty_iff := h.isEmpty_iff
  contains_iff _ := h.contains_iff
  resolve_iff entity found := by
    rw [h.resolve?_eq]
    split
    · rename_i hmem
      rw [Option.some_inj, and_iff_left hmem, eq_comm]
    · rename_i hmem
      exact iff_of_false nofun fun hfound => hmem hfound.2
  nth_iff index entity := by rw [nth_eq_ok_iff, h.walks.getElem?_eq_some_iff]
  nth_error_iff index fault := by
    rw [nth_eq_error_iff, h.walks.getElem?_eq_none_iff, h.size_eq]
  find_iff name entity := by
    rw [find_eq_ok_iff, h.walks.find?_eq_some_iff]
    simp only [beq_iff_eq]
  find_error_iff name fault := by
    rw [find_eq_error_iff, h.walks.find?_eq_none_iff]
    simp only [beq_eq_false_iff_ne]
  remove_member entity hmem := by
    obtain ⟨after, hremove, -⟩ := h.remove_of_mem hmem
    rw [hremove]
  remove_other _ hmem := h.remove_of_notMem hmem
  filed := h.filed

/-- **After any changes a collection is the set of the entities that were added and not removed
since.**  Every answer is one about this set, and collections of the same entities are the same
down to their layout, whatever changes led there. -/
theorem run_answers (changes : List (Change kind)) :
    ∃ members : Finset (Entity kind),
      (∀ entity, entity ∈ members ↔ Change.Present changes entity) ∧
        Answers (run changes) members ∧
          ∀ changes' : List (Change kind),
            (∀ entity, Change.Present changes' entity ↔ entity ∈ members) →
              run changes' = run changes := by
  refine ⟨Change.members changes, fun entity => Change.mem_members, (holds_run changes).answers,
    fun changes' hsame => ?_⟩
  have hmembers : Change.members changes' = Change.members changes := by
    ext entity
    rw [Change.mem_members, hsame]
  exact (hmembers ▸ holds_run changes').unique (holds_run changes)

/-- An entity that comes and goes leaves no trace in the bucket it shared with another one. -/
theorem run_answers_of_colliding :
    let first : State := .named .state "Aa"
    let second : State := .named .state "BB"
    first.hash = second.hash ∧
      run [.add second, .add first, .add second, .remove first] = run [.add second] := by
  intro first second
  obtain ⟨members, hmembers, -, hunique⟩ := run_answers [.add second]
  refine ⟨by decide +kernel, hunique _ fun entity => ?_⟩
  have hsame : Change.members [.add second, .add first, .add second, .remove first]
      = Change.members [.add second] := by decide +kernel
  rw [hmembers, ← Change.mem_members, ← Change.mem_members, hsame]

end Buckets

end MarkovPlanning
