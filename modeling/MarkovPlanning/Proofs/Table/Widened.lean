/-
Tables with one more position.

A table becomes one for longer keys by writing each of its values again, under its pattern with a
wildcard at the end.  Such patterns cover a longer key if they covered what comes before its last
position, and they stand in the order they stood in before, each with one wildcard more
(`Pattern.before_snoc_none`).  So the longer key is decided by the value that decided the shorter
one (`Table.resolve?_widen`), in whatever order the values were written again.

The range of a table of rewards is not read off the table.  It is kept along with it, and after any
edits it reaches from the least to the greatest of the numbers that were written since the table was
cleared, those included that were written over (`RewardTable.spans_run`).
-/
import MarkovPlanning.Proofs.Entity.Changes
import MarkovPlanning.Proofs.Reordered
import MarkovPlanning.Proofs.Table.History
import Mathlib

namespace MarkovPlanning

variable {kind : Kind} {kinds : List Kind} {α : Type}

/-! ### Longer patterns -/

namespace Pattern

variable {pattern other key : Pattern kinds} {slot slot' : Option (Entity kind)}

/-- A longer pattern has a last slot. -/
theorem exists_snoc {kinds : List Kind} (pattern : Pattern (kinds ++ [kind])) :
    ∃ (before : Pattern kinds) (last : Option (Entity kind)), pattern = before.snoc last := by
  induction kinds with
  | nil =>
      match pattern with
      | cons last nil => exact ⟨nil, last, rfl⟩
  | cons first kinds ih =>
      match pattern with
      | cons slot rest =>
          obtain ⟨before, last, rfl⟩ := ih rest
          exact ⟨cons slot before, last, rfl⟩

theorem snoc_inj {kinds : List Kind} {pattern other : Pattern kinds}
    {slot slot' : Option (Entity kind)} :
    pattern.snoc slot = other.snoc slot' ↔ pattern = other ∧ slot = slot' := by
  induction pattern with
  | nil =>
      cases other
      simp [snoc]
  | cons first rest ih =>
      cases other with
      | cons first' rest' => simp [snoc, ih, and_assoc]

theorem covers_snoc {kinds : List Kind} {pattern key : Pattern kinds}
    {slot slot' : Option (Entity kind)} :
    (pattern.snoc slot).covers (key.snoc slot')
      = (pattern.covers key && Slot.covers slot slot') := by
  induction pattern with
  | nil =>
      cases key
      simp [snoc, covers]
  | cons first rest ih =>
      cases key with
      | cons first' rest' => simp [snoc, covers, ih, Bool.and_assoc]

/-- What ends with a wildcard covers a longer key if it covers what comes before. -/
theorem covers_snoc_none : (pattern.snoc none).covers (key.snoc slot) = pattern.covers key := by
  rw [covers_snoc]
  exact Bool.and_true _

theorem wildcards_snoc_none {kinds : List Kind} (pattern : Pattern kinds) :
    (pattern.snoc (none : Option (Entity kind))).wildcards = pattern.wildcards + 1 := by
  induction pattern with
  | nil => rfl
  | cons slot rest ih => rw [snoc, wildcards, ih, wildcards, Nat.add_assoc]

theorem mask_snoc_none {kinds : List Kind} (pattern : Pattern kinds) :
    (pattern.snoc (none : Option (Entity kind))).mask = pattern.mask + 2 ^ kinds.length := by
  induction pattern with
  | nil => rfl
  | cons slot rest ih =>
      rw [snoc, mask, ih, mask, List.length_cons, Nat.pow_succ]
      omega

/-- **A wildcard at the end of all patterns leaves them in order.** -/
theorem before_snoc_none :
    Before (pattern.snoc (none : Option (Entity kind))) (other.snoc none) ↔
      Before pattern other := by
  unfold Before
  rw [wildcards_snoc_none, wildcards_snoc_none, mask_snoc_none, mask_snoc_none]
  omega

end Pattern

/-! ### Longer tables -/

namespace Table

/-- If no pattern is written twice, a table holds what was written. -/
theorem stored?_ofList {writes : List (Pattern kinds × α)} (h : (writes.map Prod.fst).Nodup)
    {pattern : Pattern kinds} {value : α} :
    (ofList writes).stored? pattern = some value ↔ (pattern, value) ∈ writes := by
  induction writes using List.reverseRecOn generalizing value with
  | nil => exact iff_of_false (by simp [ofList, stored?_empty]) List.not_mem_nil
  | append_singleton writes last ih =>
      rw [List.map_append] at h
      have hlast : last.1 ∉ writes.map Prod.fst := fun hmem =>
        List.disjoint_of_nodup_append h hmem (List.mem_singleton_self _)
      rw [ofList, List.foldl_concat, ← ofList, stored?_insert, List.mem_append,
        List.mem_singleton]
      split
      · next heq =>
          subst heq
          have hnew : (last.1, value) ∉ writes :=
            fun hmem => hlast (List.mem_map.mpr ⟨_, hmem, rfl⟩)
          rw [or_iff_right hnew, Option.some_inj, Prod.ext_iff, and_iff_right rfl, eq_comm]
      · next hne =>
          rw [ih h.of_append_left, or_iff_left]
          rintro rfl
          exact hne rfl

theorem mem_toList {table : Table kinds α} {pattern : Pattern kinds} {value : α} :
    (pattern, value) ∈ table.toList ↔ table.stored? pattern = some value :=
  Std.ExtTreeMap.mem_toList_iff_getElem?_eq_some

theorem nodup_toList (table : Table kinds α) : (table.toList.map Prod.fst).Nodup := by
  rw [toList, Std.ExtTreeMap.map_fst_toList_eq_keys]
  refine List.Pairwise.imp ?_ table.entries.distinct_keys
  rintro pattern _ hne rfl
  exact hne Std.ReflCmp.compare_self

/-- The table for longer keys that results from writing some entries again, in their order. -/
def widened (kind : Kind) (entries : List (Pattern kinds × α)) : Table (kinds ++ [kind]) α :=
  ofList (entries.map fun entry => (entry.1.snoc none, entry.2))

variable {table : Table kinds α} {entries : List (Pattern kinds × α)}

theorem sameWrites_widened (h : entries.Perm table.toList) :
    SameWrites (table.toList.map fun entry => (entry.1.snoc (none : Option (Entity kind)), entry.2))
      (entries.map fun entry => (entry.1.snoc none, entry.2)) where
  perm := h.symm.map _
  once := by
    have hinjective : Function.Injective
        fun pattern : Pattern kinds => pattern.snoc (none : Option (Entity kind)) :=
      fun _ _ heq => (Pattern.snoc_inj.mp heq).1
    have hnodup := table.nodup_toList.map hinjective
    rw [List.map_map] at hnodup ⊢
    exact hnodup

/-- **The order in which the entries are written again leaves no trace.** -/
theorem widened_eq (h : entries.Perm table.toList) : widened kind entries = table.widen kind :=
  (ofList_congr (sameWrites_widened h)).symm

/-- A longer table holds the values of the shorter one under patterns that end with a wildcard,
and nothing else. -/
theorem stored?_widen {pattern : Pattern kinds} {slot : Option (Entity kind)} {value : α} :
    (table.widen kind).stored? (pattern.snoc slot) = some value ↔
      table.stored? pattern = some value ∧ slot = none := by
  rw [widen, stored?_ofList (sameWrites_widened (.refl _)).once, List.mem_map]
  constructor
  · rintro ⟨⟨pattern', value'⟩, hmem, heq⟩
    obtain ⟨hpattern, rfl⟩ := Prod.ext_iff.mp heq
    obtain ⟨rfl, rfl⟩ := Pattern.snoc_inj.mp hpattern
    exact ⟨mem_toList.mp hmem, rfl⟩
  · rintro ⟨hstored, rfl⟩
    exact ⟨(pattern, value), mem_toList.mpr hstored, rfl⟩

theorem isSome_stored?_widen {pattern : Pattern kinds} {slot : Option (Entity kind)} :
    ((table.widen kind).stored? (pattern.snoc slot)).isSome ↔
      (table.stored? pattern).isSome ∧ slot = none := by
  simp only [Option.isSome_iff_exists, stored?_widen, exists_and_right]

/-- **A longer key is decided by what decides the shorter one.** -/
theorem resolve?_widen (table : Table kinds α) (key : Pattern kinds) (slot : Option (Entity kind)) :
    (table.widen kind).resolve? (key.snoc slot) = table.resolve? key := by
  refine Option.ext fun value => ?_
  rw [resolve?_eq_some_iff, resolve?_eq_some_iff]
  constructor
  · rintro ⟨pattern, hstored, hcovers, hfirst⟩
    obtain ⟨pattern, last, rfl⟩ := pattern.exists_snoc
    obtain ⟨hshorter, rfl⟩ := stored?_widen.mp hstored
    rw [Pattern.covers_snoc_none] at hcovers
    refine ⟨pattern, hshorter, hcovers, fun other hother hcovers' hne => ?_⟩
    have hbefore := hfirst (other.snoc none) (isSome_stored?_widen.mpr ⟨hother, rfl⟩)
      (Pattern.covers_snoc_none.trans hcovers') fun heq => hne (Pattern.snoc_inj.mp heq).1
    exact Pattern.before_snoc_none.mp hbefore
  · rintro ⟨pattern, hstored, hcovers, hfirst⟩
    refine ⟨pattern.snoc none, stored?_widen.mpr ⟨hstored, rfl⟩,
      Pattern.covers_snoc_none.trans hcovers, fun other hother hcovers' hne => ?_⟩
    obtain ⟨other, last, rfl⟩ := other.exists_snoc
    obtain ⟨hshorter, rfl⟩ := isSome_stored?_widen.mp hother
    rw [Pattern.covers_snoc_none] at hcovers'
    refine Pattern.before_snoc_none.mpr (hfirst other hshorter hcovers' ?_)
    rintro rfl
    exact hne rfl

end Table

/-! ### Ranges -/

section
variable {edits : List (Edit kinds Float)} {pattern : Pattern kinds} {reward : Float}

namespace Edit

/-- The numbers that were written since everything was dropped, whether they were written over or
not. -/
def numbers (edits : List (Edit kinds Float)) : Set Float :=
  {reward | reward ≤ reward ∧
    ∃ pattern before after, edits = before ++ write pattern reward :: after ∧ clear ∉ after}

theorem numbers_nil : numbers ([] : List (Edit kinds Float)) = ∅ := by
  refine Set.eq_empty_of_forall_notMem ?_
  rintro reward ⟨-, pattern, before, after, h, -⟩
  simp at h

theorem numbers_clear : numbers (edits ++ [clear]) = ∅ := by
  refine Set.eq_empty_of_forall_notMem ?_
  rintro reward ⟨-, pattern, before, after, h, hclear⟩
  rcases concat_eq_append_cons_iff.mp h with ⟨-, hlast, -⟩ | ⟨rest, -, rfl⟩
  · cases hlast
  · simp at hclear

theorem mem_numbers_write {number : Float} :
    number ∈ numbers (edits ++ [write pattern reward]) ↔
      number ∈ numbers edits ∨ number = reward ∧ reward ≤ reward := by
  constructor
  · rintro ⟨hnumber, pattern', before, after, h, hclear⟩
    rcases concat_eq_append_cons_iff.mp h with ⟨-, hlast, -⟩ | ⟨rest, rfl, rfl⟩
    · cases hlast
      exact .inr ⟨rfl, hnumber⟩
    · exact .inl ⟨hnumber, pattern', before, rest, rfl,
        fun hmem => hclear (List.mem_append_left _ hmem)⟩
  · rintro (⟨hnumber, pattern', before, after, rfl, hclear⟩ | ⟨rfl, hnumber⟩)
    · exact ⟨hnumber, pattern', before, after ++ [write pattern reward], by simp,
        by simpa using hclear⟩
    · exact ⟨hnumber, pattern, edits, [], rfl, List.not_mem_nil⟩

end Edit

namespace Bounds

/-- A value of a set that comes first in it, or nothing if the set has no values. -/
def First (r : Float → Float → Prop) (seen : Set Float) : Option Float → Prop
  | some best => best ∈ seen ∧ ∀ value ∈ seen, r best value
  | none => seen = ∅

/-- A choice between two values that keeps the first one unless the second is a number that comes
before it. -/
structure Chooses (choose : Float → Float → Float) (r : Float → Float → Prop) : Prop where
  refl : ∀ value, value ≤ value → r value value
  trans : ∀ value value' value'', r value value' → r value' value'' → r value value''
  number : ∀ best value, best ≤ best → value ≤ value →
    choose best value = best ∧ r best value ∨ choose best value = value ∧ r value best
  other : ∀ best value, best ≤ best → ¬value ≤ value → choose best value = best

theorem chooses_lesser : Chooses Scalar.lesser (· ≤ ·) where
  refl _ h := h
  trans _ _ _ := Scalar.le_trans
  number best value hbest hvalue := by
    show (if value < best then value else if best ≤ best then best else value) = best ∧ _ ∨
      (if value < best then value else if best ≤ best then best else value) = value ∧ _
    rw [if_pos hbest]
    split
    · next hlt => exact .inr ⟨rfl, Scalar.le_of_lt hlt⟩
    · next hlt => exact .inl ⟨rfl, Scalar.le_of_not_lt hvalue hbest hlt⟩
  other best value hbest hvalue := by
    show (if value < best then value else if best ≤ best then best else value) = best
    rw [if_neg fun hlt => hvalue (Scalar.le_self_of_le (Scalar.le_of_lt hlt)).1, if_pos hbest]

theorem chooses_greater : Chooses Scalar.greater (· ≥ ·) where
  refl _ h := h
  trans _ _ _ h h' := Scalar.le_trans h' h
  number best value hbest hvalue := by
    show (if best < value then value else if best ≤ best then best else value) = best ∧ _ ∨
      (if best < value then value else if best ≤ best then best else value) = value ∧ _
    rw [if_pos hbest]
    split
    · next hlt => exact .inr ⟨rfl, Scalar.le_of_lt hlt⟩
    · next hlt => exact .inl ⟨rfl, Scalar.le_of_not_lt hbest hvalue hlt⟩
  other best value hbest hvalue := by
    show (if best < value then value else if best ≤ best then best else value) = best
    rw [if_neg fun hlt => hvalue (Scalar.le_self_of_lt hlt), if_pos hbest]

/-- **One more value moves the end of a range only if it is a number beyond it.** -/
theorem First.joined {choose : Float → Float → Float} {r : Float → Float → Prop}
    (hchoose : Chooses choose r) {seen seen' : Set Float} {best : Option Float} {value : Float}
    (hnumbers : ∀ number ∈ seen, number ≤ number)
    (hseen' : ∀ number, number ∈ seen' ↔ number ∈ seen ∨ number = value ∧ value ≤ value)
    (h : First r seen best) : First r seen' (pick choose best value) := by
  by_cases hvalue : value ≤ value
  · cases best with
    | none =>
        obtain rfl : seen = ∅ := h
        rw [Bounds.pick, if_pos hvalue]
        refine ⟨(hseen' value).mpr (.inr ⟨rfl, hvalue⟩), fun number hnumber => ?_⟩
        obtain ⟨rfl, -⟩ := ((hseen' number).mp hnumber).resolve_left (Set.notMem_empty number)
        exact hchoose.refl number hvalue
    | some best =>
        obtain ⟨hmem, hfirst⟩ := h
        have hbest := hnumbers best hmem
        rw [Bounds.pick]
        rcases hchoose.number best value hbest hvalue with ⟨hkeep, hr⟩ | ⟨hgive, hr⟩
        · rw [hkeep]
          refine ⟨(hseen' best).mpr (.inl hmem), fun number hnumber => ?_⟩
          rcases (hseen' number).mp hnumber with hnumber | ⟨rfl, -⟩
          · exact hfirst number hnumber
          · exact hr
        · rw [hgive]
          refine ⟨(hseen' value).mpr (.inr ⟨rfl, hvalue⟩), fun number hnumber => ?_⟩
          rcases (hseen' number).mp hnumber with hnumber | ⟨rfl, -⟩
          · exact hchoose.trans _ _ _ hr (hfirst number hnumber)
          · exact hchoose.refl number hvalue
  · -- what is no number is not seen
    have hsame : seen' = seen := by
      ext number
      rw [hseen', or_iff_left fun hnew => hvalue hnew.2]
    cases best with
    | none => rwa [pick, if_neg hvalue, hsame]
    | some best =>
        obtain ⟨hmem, hfirst⟩ := h
        rw [Bounds.pick, hchoose.other best value (hnumbers best hmem) hvalue, hsame]
        exact ⟨hmem, hfirst⟩

/-- A range reaches from the least to the greatest value of a set. -/
structure Spans (bounds : Bounds Float) (seen : Set Float) : Prop where
  least : First (· ≤ ·) seen bounds.least
  greatest : First (· ≥ ·) seen bounds.greatest

/-- The ends of a range are the least and the greatest value, or the two infinities in the wrong
order if there are no values. -/
theorem Spans.ends {bounds : Bounds Float} {seen : Set Float} (h : bounds.Spans seen) :
    IsLeast seen bounds.min ∧ IsGreatest seen bounds.max ∨
      seen = ∅ ∧ bounds.min = Scalar.infinity ∧ bounds.max = -Scalar.infinity := by
  obtain ⟨least, greatest⟩ := bounds
  obtain ⟨hleast, hgreatest⟩ := h
  cases least with
  | none =>
      obtain rfl : seen = ∅ := hleast
      cases greatest with
      | none => exact .inr ⟨rfl, rfl, by decide⟩
      | some top => exact absurd hgreatest.1 (Set.notMem_empty top)
  | some bottom =>
      cases greatest with
      | none =>
          obtain rfl : seen = ∅ := hgreatest
          exact absurd hleast.1 (Set.notMem_empty bottom)
      | some top => exact .inl ⟨hleast, hgreatest⟩

end Bounds

/-- **The range of a table is that of the numbers written since it was cleared.** -/
theorem RewardTable.spans_run (edits : List (Edit kinds Float)) :
    (run edits).bounds.Spans (Edit.numbers edits) := by
  induction edits using List.reverseRecOn with
  | nil => exact ⟨Edit.numbers_nil, Edit.numbers_nil⟩
  | append_singleton edits last ih =>
      rw [run, List.foldl_concat, ← run]
      cases last with
      | write pattern reward =>
          have hnumbers : ∀ number ∈ Edit.numbers edits, number ≤ number := fun _ h => h.1
          exact ⟨ih.least.joined Bounds.chooses_lesser hnumbers fun _ => Edit.mem_numbers_write,
            ih.greatest.joined Bounds.chooses_greater hnumbers fun _ => Edit.mem_numbers_write⟩
      | clear => exact ⟨Edit.numbers_clear, Edit.numbers_clear⟩

end

/-! ### Rewards of actions -/

namespace ActionRewards

/-- The rewards for states that follow, with the entries of the table taken in a given order. -/
def widened {α : Type} (rewards : ActionRewards α)
    (entries : List (Pattern [.state, .action] × α)) : TransitionRewards α where
  table := .widened .state entries
  bounds := rewards.bounds

/-- **Rewards of actions are the same as rewards of transitions.**  After any edits, and in
whatever order the entries of the table are taken, every action is worth in every state what it was
worth before, whatever state follows.  The range is kept: it reaches from the least to the greatest
number that was written since the table was cleared, those included that were written over, and
from the infinity above all numbers to the one below if there was none. -/
theorem widened_answers (edits : List (Edit [.state, .action] Float))
    (entries : List (Pattern [.state, .action] × Float))
    (horder : entries.Perm (RewardTable.run edits).table.toList) :
    let rewards : ActionRewards Float := RewardTable.run edits
    let lifted : TransitionRewards Float := rewards.widened entries
    rewards.toTransitionRewards = lifted ∧
    (∀ state action next,
      lifted.reward state action next = rewards.reward state action) ∧
    lifted.bounds.min = rewards.bounds.min ∧ lifted.bounds.max = rewards.bounds.max ∧
    (IsLeast (Edit.numbers edits) rewards.bounds.min ∧
        IsGreatest (Edit.numbers edits) rewards.bounds.max ∨
      Edit.numbers edits = ∅ ∧ rewards.bounds.min = Scalar.infinity ∧
        rewards.bounds.max = -Scalar.infinity) := by
  intro rewards lifted
  have htable : lifted.table = rewards.table.widen .state := Table.widened_eq horder
  refine ⟨congrArg (RewardTable.mk · rewards.bounds) htable.symm, ?_, rfl, rfl,
    (RewardTable.spans_run edits).ends⟩
  intro state action next
  show (lifted.table.resolve? _).getD 0 = (rewards.table.resolve? _).getD 0
  rw [htable]
  exact congrArg (Option.getD · 0) (Table.resolve?_widen rewards.table
    (.cons (some state) (.cons (some action) .nil)) (some next))

/-- Rewards of which one is dropped, one is written over and one is no number. -/
def overwritten : List (Edit [.state, .action] Float) := [
  .write (.cons none (.cons none .nil)) (-3),
  .clear,
  .write (.cons (some Edit.twin) (.cons none .nil)) 7,
  .write (.cons none (.cons (some (.named .action "stay")) .nil)) (0 / 0),
  .write (.cons (some Edit.twin) (.cons none .nil)) 4]

/-- A value that was written over still counts for the range, and the entries may be taken the
other way round. -/
theorem widened_answers_overwritten :
    let rewards : ActionRewards Float := RewardTable.run overwritten
    let entries := rewards.table.toList.reverse
    let lifted : TransitionRewards Float := rewards.widened entries
    entries.Perm rewards.table.toList ∧
      (∀ next, lifted.reward Edit.twin (.named .action "move") next = 4) ∧
      IsLeast (Edit.numbers overwritten) 4 ∧ IsGreatest (Edit.numbers overwritten) 7 := by
  intro rewards entries lifted
  have horder : entries.Perm rewards.table.toList := List.reverse_perm _
  obtain ⟨-, hreward, -, -, hends⟩ := widened_answers overwritten entries horder
  have hleast : rewards.bounds.min = 4 := by decide +kernel
  have hgreatest : rewards.bounds.max = 7 := by decide +kernel
  have htwin : rewards.reward Edit.twin (.named .action "move") = 4 := by decide +kernel
  refine ⟨horder, fun next => (hreward _ _ next).trans htwin, ?_⟩
  rcases hends with hends | ⟨-, hnone, -⟩
  · exact hleast ▸ hgreatest ▸ hends
  · exact absurd (hleast.symm.trans hnone) (by decide +kernel)

end ActionRewards

end MarkovPlanning
