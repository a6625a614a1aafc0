/-
What buckets hold.

`Holds` ties buckets to a finite set: every bucket has members, they have its hash and stand in
increasing order, and together they are the set, whose size is kept beside them.  Bisection needs
the order and keeps it: it finds an entity that is there, and the gap where one that is not there
belongs (`fits_place`).  So adding and removing an entity adds and removes a member
(`Holds.add`, `Holds.remove_of_mem`), and nothing changes when there is nothing to do.

A set can be held in one way only (`Holds.unique`), so the order in which the members came cannot
be seen, not even in the layout.
-/
import MarkovPlanning.Entity.Buckets
import MarkovPlanning.Proofs.Entity.Order
import MarkovPlanning.Proofs.Entity.Sum
import Mathlib

namespace MarkovPlanning.Buckets

open Entity

variable {kind : Kind}

/-! ### One bucket -/

section
variable {bucket : Array (Entity kind)} {entity : Entity kind}

/-- A bucket in increasing order. -/
def Ascending (bucket : Array (Entity kind)) : Prop := bucket.toList.Pairwise Precedes

theorem ascending_iff : Ascending bucket ↔
    ∀ (i j : Nat) (hi : i < bucket.size) (hj : j < bucket.size), i < j →
      Precedes bucket[i] bucket[j] :=
  List.pairwise_iff_getElem

theorem Ascending.precedes (h : Ascending bucket) {i j : Nat} (hi : i < bucket.size)
    (hj : j < bucket.size) (hij : i < j) : Precedes bucket[i] bucket[j] :=
  ascending_iff.mp h i j hi hj hij

/-- A place that is right: the entity stands there, or everything before it comes before the
entity and everything else after it. -/
def Place.Fits (bucket : Array (Entity kind)) (entity : Entity kind) : Place bucket.size → Prop
  | .found position _ => bucket[position] = entity
  | .missing position _ =>
    (∀ (i : Nat) (h : i < bucket.size), i < position → Precedes bucket[i] entity) ∧
      ∀ (i : Nat) (h : i < bucket.size), position ≤ i → Precedes entity bucket[i]

theorem fits_bisect (hascending : Ascending bucket) (low high : Nat) (hlow : low ≤ high)
    (hhigh : high ≤ bucket.size)
    (hbefore : ∀ (i : Nat) (h : i < bucket.size), i < low → Precedes bucket[i] entity)
    (hafter : ∀ (i : Nat) (h : i < bucket.size), high ≤ i → Precedes entity bucket[i]) :
    Place.Fits bucket entity (bisect bucket entity low high hlow hhigh) := by
  fun_induction bisect bucket entity low high hlow hhigh with
  | case1 low high hlow hhigh hlt middle hcompare ih =>
      -- the entity belongs after the middle, and so after all that comes before it
      refine ih (fun i hi hle => ?_) hafter
      rcases Nat.lt_or_eq_of_le (Nat.le_of_lt_succ hle) with hbelow | rfl
      · exact (hascending.precedes hi _ hbelow).trans hcompare
      · exact hcompare
  | case2 low high hlow hhigh hlt middle hcompare =>
      exact Std.LawfulEqCmp.eq_of_compare hcompare
  | case3 low high hlow hhigh hlt middle hcompare ih =>
      have hmiddle : Precedes entity bucket[middle] := Std.OrientedCmp.lt_of_gt hcompare
      refine ih hbefore fun i hi hle => ?_
      rcases Nat.lt_or_eq_of_le hle with habove | rfl
      · exact hmiddle.trans (hascending.precedes _ hi habove)
      · exact hmiddle
  | case4 low high hlow hhigh hge =>
      exact ⟨hbefore, fun i hi hle => hafter i hi (by omega)⟩

/-- **Bisection finds the place of an entity.** -/
theorem fits_place (h : Ascending bucket) (entity : Entity kind) :
    (place bucket entity).Fits bucket entity :=
  fits_bisect h 0 bucket.size _ _ (fun _ _ hlt => absurd hlt (Nat.not_lt_zero _))
    fun _ hi hle => absurd hi (Nat.not_lt.mpr hle)

theorem mem_of_found {position : Nat} {hlt : position < bucket.size}
    (h : Place.Fits bucket entity (.found position hlt)) : entity ∈ bucket := by
  rw [← show bucket[position] = entity from h]
  exact Array.getElem_mem hlt

theorem notMem_of_missing {position : Nat} {hle : position ≤ bucket.size}
    (h : Place.Fits bucket entity (.missing position hle)) : entity ∉ bucket := by
  intro hmem
  obtain ⟨i, hi, heq⟩ := Array.mem_iff_getElem.mp hmem
  rcases Nat.lt_or_ge i position with hlt | hge
  · exact not_precedes_self entity (heq ▸ h.1 i hi hlt)
  · exact not_precedes_self entity (heq ▸ h.2 i hi hge)

namespace Ascending

/-- No entity stands at two positions. -/
theorem injective (h : Ascending bucket) {i j : Nat} (hi : i < bucket.size)
    (hj : j < bucket.size) (heq : bucket[i] = bucket[j]) : i = j := by
  rcases Nat.lt_trichotomy i j with hlt | rfl | hlt
  · exact absurd (heq ▸ h.precedes hi hj hlt) (not_precedes_self _)
  · rfl
  · exact absurd (heq ▸ h.precedes hj hi hlt) (not_precedes_self _)

theorem place_of_mem (h : Ascending bucket) (hmem : entity ∈ bucket) :
    ∃ position, ∃ hlt : position < bucket.size,
      place bucket entity = .found position hlt ∧ bucket[position] = entity := by
  have hfits := fits_place h entity
  cases hplace : place bucket entity with
  | found position hlt => exact ⟨position, hlt, rfl, by rwa [hplace] at hfits⟩
  | missing position hle =>
      rw [hplace] at hfits
      exact absurd hmem (notMem_of_missing hfits)

theorem place_of_notMem (h : Ascending bucket) (hmem : entity ∉ bucket) :
    ∃ position hle, place bucket entity = .missing position hle ∧
      Place.Fits bucket entity (.missing position hle) := by
  have hfits := fits_place h entity
  cases hplace : place bucket entity with
  | found position hlt =>
      rw [hplace] at hfits
      exact absurd (mem_of_found hfits) hmem
  | missing position hle => exact ⟨position, hle, rfl, by rwa [hplace] at hfits⟩

/-- A bucket stays in order when an entity is put where it belongs. -/
theorem insertIdx (h : Ascending bucket) {position : Nat} {hle : position ≤ bucket.size}
    (hfits : Place.Fits bucket entity (.missing position hle)) :
    Ascending (bucket.insertIdx position entity hle) := by
  rw [ascending_iff]
  intro i j hi hj hij
  rw [Array.size_insertIdx] at hi hj
  simp only [Array.getElem_insertIdx]
  split_ifs
  · exact h.precedes _ _ hij
  · exact hfits.1 i _ ‹_›
  · exact h.precedes _ _ (by omega)
  · omega
  · omega
  · exact hfits.2 (j - 1) _ (by omega)
  · omega
  · omega
  · exact h.precedes _ _ (by omega)

theorem eraseIdx (h : Ascending bucket) {position : Nat} (hlt : position < bucket.size) :
    Ascending (bucket.eraseIdx position hlt) := by
  unfold Ascending
  rw [Array.toList_eraseIdx]
  exact h.sublist (List.eraseIdx_sublist _ _)

theorem mem_eraseIdx (h : Ascending bucket) {position : Nat} (hlt : position < bucket.size)
    {other : Entity kind} :
    other ∈ bucket.eraseIdx position hlt ↔ other ≠ bucket[position] ∧ other ∈ bucket := by
  rw [Array.mem_eraseIdx_iff_getElem]
  constructor
  · rintro ⟨i, hi, hne, rfl⟩
    exact ⟨fun heq => hne (h.injective hi hlt heq), Array.getElem_mem hi⟩
  · rintro ⟨hne, hmem⟩
    obtain ⟨i, hi, rfl⟩ := Array.mem_iff_getElem.mp hmem
    exact ⟨i, hi, fun heq => hne (getElem_congr_idx heq), rfl⟩

theorem putIn?_of_mem (h : Ascending bucket) (hmem : entity ∈ bucket) :
    putIn? bucket entity = none := by
  obtain ⟨position, hlt, hplace, -⟩ := h.place_of_mem hmem
  unfold putIn?
  rw [hplace]

theorem putIn?_of_notMem (h : Ascending bucket) (hmem : entity ∉ bucket) :
    ∃ after, putIn? bucket entity = some after ∧ Ascending after ∧
      ∀ other, other ∈ after ↔ other = entity ∨ other ∈ bucket := by
  obtain ⟨position, hle, hplace, hfits⟩ := h.place_of_notMem hmem
  unfold putIn?
  rw [hplace]
  exact ⟨_, rfl, h.insertIdx hfits, fun other => Array.mem_insertIdx⟩

theorem takeOut?_of_notMem (h : Ascending bucket) (hmem : entity ∉ bucket) :
    takeOut? bucket entity = none := by
  obtain ⟨position, hle, hplace, -⟩ := h.place_of_notMem hmem
  unfold takeOut?
  rw [hplace]

theorem takeOut?_of_mem (h : Ascending bucket) (hmem : entity ∈ bucket) :
    ∃ after, takeOut? bucket entity = some (entity, after) ∧ Ascending after ∧
      ∀ other, other ∈ after ↔ other ≠ entity ∧ other ∈ bucket := by
  obtain ⟨position, hlt, hplace, rfl⟩ := h.place_of_mem hmem
  unfold takeOut?
  rw [hplace]
  exact ⟨_, rfl, h.eraseIdx hlt, fun other => h.mem_eraseIdx hlt⟩

/-- Two buckets in order with the same members are the same. -/
theorem unique {bucket' : Array (Entity kind)} (h : Ascending bucket)
    (h' : Ascending bucket') (hmem : ∀ entity, entity ∈ bucket ↔ entity ∈ bucket') :
    bucket = bucket' :=
  Array.toList_inj.mp (List.Pairwise.eq_of_mem_iff h h' fun entity => by
    rw [Array.mem_toList_iff, Array.mem_toList_iff, hmem])

end Ascending

end

/-! ### All buckets -/

/-- A bucket that may be kept under a hash. -/
structure Filed (hash : UInt32) (bucket : Array (Entity kind)) : Prop where
  ne_empty : bucket ≠ #[]
  hash_eq : ∀ entity ∈ bucket, entity.hash = hash
  ascending : Ascending bucket

/-- Buckets that hold the members of a set. -/
structure Holds (buckets : Buckets kind) (members : Finset (Entity kind)) : Prop where
  filed : ∀ hash bucket, buckets.byHash[hash]? = some bucket → Filed hash bucket
  /-- An entity is a member if it is in the bucket of its hash. -/
  mem : ∀ entity, entity ∈ buckets.byHash.getD entity.hash #[] ↔ entity ∈ members
  size_eq : buckets.size = members.card

namespace Holds

variable {buckets buckets' : Buckets kind} {members : Finset (Entity kind)} {entity : Entity kind}

theorem empty : Holds ({} : Buckets kind) ∅ where
  filed _ _ h := by simp at h
  mem _ := by simp
  size_eq := rfl

theorem ascending (h : Holds buckets members) (hash : UInt32) :
    Ascending (buckets.byHash.getD hash #[]) := by
  rw [Std.ExtTreeMap.getD_eq_getD_getElem?]
  cases hget : buckets.byHash[hash]? with
  | none => exact List.Pairwise.nil
  | some bucket => exact (h.filed hash bucket hget).ascending

theorem hash_eq (h : Holds buckets members) {hash : UInt32}
    (hmem : entity ∈ buckets.byHash.getD hash #[]) : entity.hash = hash := by
  rw [Std.ExtTreeMap.getD_eq_getD_getElem?] at hmem
  cases hget : buckets.byHash[hash]? with
  | none => simp [hget] at hmem
  | some bucket =>
      rw [hget, Option.getD_some] at hmem
      exact (h.filed hash bucket hget).hash_eq entity hmem

theorem hash_mem (h : Holds buckets members) (hmem : entity ∈ members) :
    entity.hash ∈ buckets.byHash := by
  by_contra hno
  have hentity := (h.mem entity).mpr hmem
  rw [Std.ExtTreeMap.getD_eq_fallback hno] at hentity
  simp at hentity

/-- **A set is held in one way.** -/
theorem unique (h : Holds buckets members) (h' : Holds buckets' members) : buckets = buckets' := by
  -- a bucket has a member, so there is one under the same hash on the other side
  have hsame (buckets buckets' : Buckets kind) (h : Holds buckets members)
      (h' : Holds buckets' members) (hash : UInt32) (bucket : Array (Entity kind))
      (hget : buckets.byHash[hash]? = some bucket) : buckets'.byHash[hash]? = some bucket := by
    have hfiled := h.filed hash bucket hget
    obtain ⟨first, hfirst⟩ := Array.exists_mem_of_ne_empty _ hfiled.ne_empty
    have hmem : ∀ entity, entity.hash = hash → (entity ∈ bucket ↔ entity ∈ members) := by
      rintro entity rfl
      rw [← h.mem entity, Std.ExtTreeMap.getD_eq_getD_getElem?, hget, Option.getD_some]
    have hhash := h'.hash_mem ((hmem first (hfiled.hash_eq first hfirst)).mp hfirst)
    rw [hfiled.hash_eq first hfirst] at hhash
    obtain ⟨bucket', hget'⟩ : ∃ bucket', buckets'.byHash[hash]? = some bucket' :=
      ⟨_, Std.ExtTreeMap.getElem?_eq_some_getElem hhash⟩
    have hfiled' := h'.filed hash bucket' hget'
    rw [hget', hfiled.ascending.unique hfiled'.ascending fun entity => ?_]
    constructor
    · intro hentity
      have heq := hfiled.hash_eq entity hentity
      have hmem' := (h'.mem entity).mpr ((hmem entity heq).mp hentity)
      rwa [heq, Std.ExtTreeMap.getD_eq_getD_getElem?, hget', Option.getD_some] at hmem'
    · intro hentity
      have heq := hfiled'.hash_eq entity hentity
      rw [hmem entity heq, ← h'.mem entity, heq, Std.ExtTreeMap.getD_eq_getD_getElem?, hget',
        Option.getD_some]
      exact hentity
  have hbyHash : buckets.byHash = buckets'.byHash := by
    refine Std.ExtTreeMap.ext_getElem? fun hash => Option.ext fun bucket => ?_
    exact ⟨hsame _ _ h h' hash bucket, hsame _ _ h' h hash bucket⟩
  have hsize : buckets.size = buckets'.size := h.size_eq.trans h'.size_eq.symm
  cases buckets
  cases buckets'
  simp_all

/-! ### Changes -/

/-- A bucket is replaced, and its entities are replaced among the members. -/
theorem insert (h : Holds buckets members) {after : Finset (Entity kind)}
    {bucket : Array (Entity kind)} {size : Nat} (hfiled : Filed entity.hash bucket)
    (hmem : ∀ other, other.hash = entity.hash → (other ∈ bucket ↔ other ∈ after))
    (hother : ∀ other, other.hash ≠ entity.hash → (other ∈ members ↔ other ∈ after))
    (hsize : size = after.card) :
    Holds { byHash := buckets.byHash.insert entity.hash bucket, size } after where
  filed hash bucket' hget := by
    rw [Std.ExtTreeMap.getElem?_insert] at hget
    split at hget
    · rename_i heq
      obtain rfl := Std.LawfulEqCmp.eq_of_compare heq
      obtain rfl := Option.some.inj hget
      exact hfiled
    · exact h.filed hash bucket' hget
  mem other := by
    rw [Std.ExtTreeMap.getD_insert]
    by_cases heq : other.hash = entity.hash
    · rw [heq, if_pos Std.ReflCmp.compare_self, hmem other heq]
    · rw [if_neg (fun hcompare => heq (Std.LawfulEqCmp.eq_of_compare hcompare).symm), h.mem,
        hother other heq]
  size_eq := hsize

/-- A bucket is dropped, and its entities are no members any more. -/
theorem erase (h : Holds buckets members) {after : Finset (Entity kind)} {size : Nat}
    (hmem : ∀ other, other.hash = entity.hash → other ∉ after)
    (hother : ∀ other, other.hash ≠ entity.hash → (other ∈ members ↔ other ∈ after))
    (hsize : size = after.card) :
    Holds { byHash := buckets.byHash.erase entity.hash, size } after where
  filed hash bucket hget := by
    rw [Std.ExtTreeMap.getElem?_erase] at hget
    split at hget
    · cases hget
    · exact h.filed hash bucket hget
  mem other := by
    rw [Std.ExtTreeMap.getD_erase]
    by_cases heq : other.hash = entity.hash
    · rw [heq, if_pos Std.ReflCmp.compare_self]
      exact iff_of_false (Array.not_mem_empty other) (hmem other heq)
    · rw [if_neg (fun hcompare => heq (Std.LawfulEqCmp.eq_of_compare hcompare).symm), h.mem,
        hother other heq]
  size_eq := hsize

/-- Nothing is added that is there. -/
theorem add_eq_self (h : Holds buckets members) (hmem : entity ∈ members) :
    buckets.add entity = buckets := by
  have hopened : buckets.byHash.insertIfNew entity.hash #[] = buckets.byHash := by
    refine Std.ExtTreeMap.ext_getElem? fun hash => ?_
    rw [Std.ExtTreeMap.getElem?_insertIfNew, if_neg fun hnew => hnew.2 (h.hash_mem hmem)]
  have hput := (h.ascending entity.hash).putIn?_of_mem ((h.mem entity).mpr hmem)
  unfold Buckets.add
  dsimp only
  rw [hopened, hput]

/-- **Adding an entity adds a member.** -/
theorem add (h : Holds buckets members) (entity : Entity kind) :
    Holds (buckets.add entity) (Insert.insert entity members) := by
  by_cases hmem : entity ∈ members
  · rw [h.add_eq_self hmem, Finset.insert_eq_of_mem hmem]
    exact h
  -- opening an empty bucket shows neither in what is found nor in what is written over it
  have hbucket : (buckets.byHash.insertIfNew entity.hash #[]).getD entity.hash #[]
      = buckets.byHash.getD entity.hash #[] := by
    rw [Std.ExtTreeMap.getD_insertIfNew]
    split
    · rename_i hnew
      rw [Std.ExtTreeMap.getD_eq_fallback hnew.2]
    · rfl
  have hopened (bucket : Array (Entity kind)) :
      (buckets.byHash.insertIfNew entity.hash #[]).insert entity.hash bucket
        = buckets.byHash.insert entity.hash bucket := by
    refine Std.ExtTreeMap.ext_getElem? fun hash => ?_
    rw [Std.ExtTreeMap.getElem?_insert, Std.ExtTreeMap.getElem?_insert,
      Std.ExtTreeMap.getElem?_insertIfNew]
    split
    · rfl
    · rename_i hne
      rw [if_neg fun hnew => hne hnew.1]
  obtain ⟨after, hput, hascending, hafter⟩ :=
    (h.ascending entity.hash).putIn?_of_notMem (mt (h.mem entity).mp hmem)
  unfold Buckets.add
  dsimp only
  rw [hbucket, hput]
  dsimp only
  rw [hopened]
  refine h.insert ⟨?_, fun other hother => ?_, hascending⟩ (fun other heq => ?_)
    (fun other hne => ?_) ?_
  · exact Array.ne_empty_of_mem ((hafter entity).mpr (.inl rfl))
  · rcases (hafter other).mp hother with rfl | hother
    · rfl
    · exact h.hash_eq hother
  · rw [hafter, Finset.mem_insert, ← h.mem other, heq]
  · rw [Finset.mem_insert, or_iff_right]
    rintro rfl
    exact hne rfl
  · rw [Finset.card_insert_of_notMem hmem, h.size_eq]

/-- What is not there cannot be removed. -/
theorem remove_of_notMem (h : Holds buckets members) (hmem : entity ∉ members) :
    buckets.remove entity = (.error (.notFound kind entity.name), buckets) := by
  have htake : (buckets.byHash[entity.hash]?).bind (takeOut? · entity) = none := by
    have hbucket := (h.ascending entity.hash).takeOut?_of_notMem (mt (h.mem entity).mp hmem)
    rw [Std.ExtTreeMap.getD_eq_getD_getElem?] at hbucket
    cases hget : buckets.byHash[entity.hash]? with
    | none => rfl
    | some bucket =>
        rw [hget, Option.getD_some] at hbucket
        exact hbucket
  unfold remove
  rw [htake]

/-- **Removing a member hands it over and leaves the others.** -/
theorem remove_of_mem (h : Holds buckets members) (hmem : entity ∈ members) :
    ∃ after, buckets.remove entity = (.ok entity, after) ∧
      Holds after (members.erase entity) := by
  obtain ⟨rest, htake, hascending, hrest⟩ :=
    (h.ascending entity.hash).takeOut?_of_mem ((h.mem entity).mpr hmem)
  have hget : buckets.byHash[entity.hash]? = some (buckets.byHash.getD entity.hash #[]) :=
    Std.ExtTreeMap.getElem?_eq_some_getD (h.hash_mem hmem)
  have hsize : buckets.size - 1 = (members.erase entity).card := by
    rw [Finset.card_erase_of_mem hmem, h.size_eq]
  have hother (other : Entity kind) (hne : other.hash ≠ entity.hash) :
      other ∈ members ↔ other ∈ members.erase entity := by
    rw [Finset.mem_erase, and_iff_right]
    rintro rfl
    exact hne rfl
  have hbucket (other : Entity kind) (heq : other.hash = entity.hash) :
      other ∈ rest ↔ other ∈ members.erase entity := by
    rw [hrest, Finset.mem_erase, ← h.mem other, heq]
  unfold remove
  rw [hget, Option.bind_some, htake]
  refine ⟨_, rfl, ?_⟩
  split
  · -- that was the last one of its bucket
    rename_i hempty
    refine h.erase (fun other heq hmem => ?_) hother hsize
    rw [← hbucket other heq, Array.isEmpty_iff.mp hempty] at hmem
    exact Array.not_mem_empty other hmem
  · rename_i hne
    refine h.insert ⟨fun heq => hne (heq ▸ rfl), fun other hmem => ?_, hascending⟩ hbucket hother
      hsize
    exact h.hash_eq ((hrest other).mp hmem).2

/-! ### Questions -/

theorem contains_iff (h : Holds buckets members) :
    buckets.contains entity = true ↔ entity ∈ members := by
  rw [← h.mem entity, Std.ExtTreeMap.getD_eq_getD_getElem?]
  unfold contains
  cases hget : buckets.byHash[entity.hash]? with
  | none => exact iff_of_false Bool.false_ne_true (Array.not_mem_empty entity)
  | some bucket =>
      have hascending := (h.filed _ bucket hget).ascending
      rw [Option.any_some, Option.getD_some]
      by_cases hmem : entity ∈ bucket
      · obtain ⟨position, _, hplace, -⟩ := hascending.place_of_mem hmem
        rw [hplace]
        exact iff_of_true rfl hmem
      · obtain ⟨position, _, hplace, -⟩ := hascending.place_of_notMem hmem
        rw [hplace]
        exact iff_of_false Bool.false_ne_true hmem

theorem resolve?_eq (h : Holds buckets members) (entity : Entity kind) :
    buckets.resolve? entity = if entity ∈ members then some entity else none := by
  have hscan (bucket : Array (Entity kind)) :
      bucket.find? (· == entity) = if entity ∈ bucket then some entity else none := by
    split
    · rename_i hmem
      have hsome : (bucket.find? (· == entity)).isSome := by
        rw [Array.find?_isSome]
        exact ⟨entity, hmem, beq_self_eq_true entity⟩
      obtain ⟨found, hfind⟩ := Option.isSome_iff_exists.mp hsome
      have hfound : (found == entity) = true := Array.find?_some (p := (· == entity)) hfind
      rw [hfind, beq_iff_eq.mp hfound]
    · rename_i hmem
      rw [Array.find?_eq_none]
      rintro other hother heq
      exact hmem (beq_iff_eq.mp heq ▸ hother)
  simp only [← h.mem entity, Std.ExtTreeMap.getD_eq_getD_getElem?]
  rw [← hscan]
  unfold resolve?
  cases buckets.byHash[entity.hash]? with
  | none => rfl
  | some bucket => rfl

/-- **The walk from bucket to bucket is the walk of the set.** -/
theorem walks (h : Holds buckets members) : Walks buckets.toList members where
  ordered := by
    unfold toList
    rw [List.pairwise_flatMap]
    constructor
    · rintro ⟨hash, bucket⟩ hentry
      exact (h.filed hash bucket (Std.ExtTreeMap.mem_toList_iff_getElem?_eq_some.mp
        hentry)).ascending
    · refine Std.ExtTreeMap.ordered_keys_toList.imp_of_mem ?_
      rintro ⟨hash, bucket⟩ ⟨hash', bucket'⟩ hentry hentry' hlt a ha b hb
      rw [Std.ExtTreeMap.mem_toList_iff_getElem?_eq_some] at hentry hentry'
      refine precedes_of_hash ?_
      rw [(h.filed hash bucket hentry).hash_eq a (Array.mem_toList_iff.mp ha),
        (h.filed hash' bucket' hentry').hash_eq b (Array.mem_toList_iff.mp hb)]
      exact hlt
  mem entity := by
    rw [← h.mem, toList, List.mem_flatMap]
    constructor
    · rintro ⟨⟨hash, bucket⟩, hentry, hmem⟩
      rw [Std.ExtTreeMap.mem_toList_iff_getElem?_eq_some] at hentry
      rw [Array.mem_toList_iff] at hmem
      rw [(h.filed hash bucket hentry).hash_eq entity hmem, Std.ExtTreeMap.getD_eq_getD_getElem?,
        hentry]
      exact hmem
    · intro hmem
      have hhash := h.hash_mem ((h.mem entity).mp hmem)
      exact ⟨(entity.hash, buckets.byHash.getD entity.hash #[]),
        Std.ExtTreeMap.mem_toList_iff_getElem?_eq_some.mpr
          (Std.ExtTreeMap.getElem?_eq_some_getD hhash), Array.mem_toList_iff.mpr hmem⟩

theorem isEmpty_iff (h : Holds buckets members) : buckets.isEmpty = true ↔ members = ∅ := by
  rw [Buckets.isEmpty, beq_iff_eq, h.size_eq, Finset.card_eq_zero]

/-! ### Against the set of the members -/

theorem mem_collection (h : Holds buckets members) :
    entity ∈ buckets.collection ↔ entity ∈ members := by
  rw [← h.walks.mem, collection, Collection.ofList, Std.ExtTreeSet.mem_ofList,
    List.contains_iff_mem]

theorem toList_collection (h : Holds buckets members) :
    buckets.collection.toList = buckets.toList := by
  refine Walks.unique ⟨buckets.collection.ordered_toList, fun entity => ?_⟩ h.walks
  rw [Std.ExtTreeSet.mem_toList, h.mem_collection]

theorem size_collection (h : Holds buckets members) : buckets.collection.size = buckets.size := by
  rw [← Std.ExtTreeSet.length_toList, h.toList_collection, h.walks.length_eq, h.size_eq]

/-- **Positions are the same in the buckets and in the set.** -/
theorem nth_collection (h : Holds buckets members) (index : Nat) :
    buckets.collection.nth index = buckets.nth index := by
  cases hget : buckets.toList[index]? <;>
    simp only [Collection.nth, Buckets.nth, h.toList_collection, h.size_collection, hget]

theorem find_collection (h : Holds buckets members) (name : String) :
    buckets.collection.find name = buckets.find name := by
  cases hfind : buckets.toList.find? (·.name == name) <;>
    simp only [Collection.find, Buckets.find, h.toList_collection, hfind]

theorem collection_add (h : Holds buckets members) (entity : Entity kind) :
    (buckets.add entity).collection = buckets.collection.insert entity := by
  refine Std.ExtTreeSet.ext_mem fun other => ?_
  rw [(h.add entity).mem_collection, Finset.mem_insert, Std.ExtTreeSet.mem_insert,
    h.mem_collection, Std.LawfulEqCmp.compare_eq_iff_eq, eq_comm]

/-- **A removal from the buckets is one from the set.** -/
theorem remove_collection (h : Holds buckets members) (entity : Entity kind) :
    buckets.collection.remove entity
      = (buckets.remove entity).1.map fun removed =>
          (removed, (buckets.remove entity).2.collection) := by
  unfold Collection.remove
  by_cases hmem : entity ∈ members
  · obtain ⟨after, hremove, hafter⟩ := h.remove_of_mem hmem
    rw [hremove, if_pos (h.mem_collection.mpr hmem)]
    have herase : buckets.collection.erase entity = after.collection := by
      refine Std.ExtTreeSet.ext_mem fun other => ?_
      rw [hafter.mem_collection, Finset.mem_erase, Std.ExtTreeSet.mem_erase, h.mem_collection,
        ne_eq, Std.LawfulEqCmp.compare_eq_iff_eq, eq_comm]
    rw [herase]
    rfl
  · rw [h.remove_of_notMem hmem, if_neg (mt h.mem_collection.mp hmem)]
    rfl

end Holds

end MarkovPlanning.Buckets
