/-
Tables after any number of edits.

A table is written to and cleared any number of times.  What it holds is the value written last
under each pattern since it was last cleared (`Table.stored?_run`), and a look-up finds the value
of the pattern that decides the key among these.  The tables of probabilities and of rewards are
such tables, the former with every value brought into the unit interval
(`ProbabilityTable.get_run`, `RewardTable.get_run`).

So neither the order in which different patterns were written nor a pattern that does not cover
the key can be seen in a look-up (`Edit.answers_decided`).
-/
import MarkovPlanning.Proofs.Double
import MarkovPlanning.Proofs.Table.Resolution
import MarkovPlanning.Table.Probability
import MarkovPlanning.Table.Reward
import Mathlib

namespace MarkovPlanning

/-- A change to a table: a value is written under a pattern, or everything is dropped. -/
inductive Edit (kinds : List Kind) (α : Type) where
  | write (pattern : Pattern kinds) (value : α)
  | clear

variable {kinds : List Kind} {α : Type}

/-! ### What edits leave -/

namespace Edit

variable {edits : List (Edit kinds α)} {pattern other : Pattern kinds} {value value' : α}

/-- The value written last under a pattern, if nothing was dropped since. -/
def Kept (edits : List (Edit kinds α)) (pattern : Pattern kinds) (value : α) : Prop :=
  ∃ before after, edits = before ++ write pattern value :: after ∧
    clear ∉ after ∧ ∀ later, write pattern later ∉ after

/-- The kept pattern that decides a key: it covers the key, and all others that do come after
it. -/
structure Decides (edits : List (Edit kinds α)) (key pattern : Pattern kinds) (value : α) :
    Prop where
  kept : Kept edits pattern value
  covers : pattern.covers key = true
  first : ∀ other value', Kept edits other value' → other.covers key = true → other ≠ pattern →
    pattern.Before other

/-- No kept pattern covers the key. -/
def Undecided (edits : List (Edit kinds α)) (key : Pattern kinds) : Prop :=
  ∀ pattern value, Kept edits pattern value → pattern.covers key = false

/-- Edits in another order, in which writes under different patterns may have changed places. -/
inductive Reordered : List (Edit kinds α) → List (Edit kinds α) → Prop
  | refl (edits : List (Edit kinds α)) : Reordered edits edits
  | swap (before after : List (Edit kinds α)) {pattern other : Pattern kinds}
      (value value' : α) : pattern ≠ other →
      Reordered (before ++ write pattern value :: write other value' :: after)
        (before ++ write other value' :: write pattern value :: after)
  | trans {edits edits' edits'' : List (Edit kinds α)} :
      Reordered edits edits' → Reordered edits' edits'' → Reordered edits edits''

theorem mem_of_kept (h : Kept edits pattern value) : write pattern value ∈ edits := by
  obtain ⟨before, after, rfl, -⟩ := h
  simp

theorem not_kept_nil : ¬Kept [] pattern value := by
  rintro ⟨before, after, h, -⟩
  simp at h

theorem not_kept_clear : ¬Kept (edits ++ [clear]) pattern value := by
  rintro ⟨before, after, h, hclear, -⟩
  rcases List.eq_nil_or_concat after with rfl | ⟨after, last, rfl⟩
  · have := List.append_inj_right' h rfl
    cases this
  · rw [List.concat_eq_append, ← List.cons_append, ← List.append_assoc] at h
    have := List.append_inj_right' h rfl
    simp_all

/-- A write is kept until there is another one under its pattern. -/
theorem kept_write :
    Kept (edits ++ [write other value']) pattern value ↔
      if other = pattern then value' = value else Kept edits pattern value := by
  constructor
  · rintro ⟨before, after, h, hclear, hlater⟩
    rcases List.eq_nil_or_concat after with rfl | ⟨after, last, rfl⟩
    · have hlast := List.append_inj_right' h rfl
      simp only [List.cons.injEq, write.injEq, and_true] at hlast
      rw [if_pos hlast.1, hlast.2]
    · rw [List.concat_eq_append, ← List.cons_append, ← List.append_assoc] at h
      obtain ⟨rfl, hlast⟩ := List.append_inj' h rfl
      obtain rfl : write other value' = last := List.singleton_inj.mp hlast
      rw [List.concat_eq_append] at hclear hlater
      have hne : other ≠ pattern := by
        rintro rfl
        exact hlater value' (by simp)
      rw [if_neg hne]
      exact ⟨before, after, rfl, fun hmem => hclear (by simp [hmem]),
        fun later hmem => hlater later (by simp [hmem])⟩
  · split
    · next heq =>
        rintro rfl
        subst heq
        exact ⟨edits, [], rfl, by simp, by simp⟩
    · next hne =>
        rintro ⟨before, after, rfl, hclear, hlater⟩
        refine ⟨before, after ++ [write other value'], by simp, by simpa using hclear, ?_⟩
        intro later hmem
        rcases List.mem_append.mp hmem with hmem | hmem
        · exact hlater later hmem
        · simp only [List.mem_singleton, write.injEq] at hmem
          exact hne hmem.1.symm

end Edit

/-! ### Tables -/

namespace Table

variable {table : Table kinds α} {edits : List (Edit kinds α)} {pattern other : Pattern kinds}
  {value : α}

theorem stored?_empty : ({} : Table kinds α).stored? pattern = none :=
  Std.ExtTreeMap.getElem?_empty

theorem stored?_insert :
    (table.insert other value).stored? pattern
      = if other = pattern then some value else table.stored? pattern := by
  rw [stored?, insert, Std.ExtTreeMap.getElem?_insert]
  simp only [Std.LawfulEqCmp.compare_eq_iff_eq]
  rfl

/-- One edit of a table. -/
def edit (table : Table kinds α) : Edit kinds α → Table kinds α
  | .write pattern value => table.insert pattern value
  | .clear => {}

/-- The table after some edits. -/
def run (edits : List (Edit kinds α)) : Table kinds α := edits.foldl edit {}

theorem run_concat (edits : List (Edit kinds α)) (last : Edit kinds α) :
    run (edits ++ [last]) = (run edits).edit last := by
  rw [run, List.foldl_append]
  rfl

/-- **A table holds what was kept.** -/
theorem stored?_run : (run edits).stored? pattern = some value ↔ Edit.Kept edits pattern value := by
  induction edits using List.reverseRecOn generalizing value with
  | nil => exact iff_of_false (by simp [run, stored?_empty]) Edit.not_kept_nil
  | append_singleton edits last ih =>
      rw [run_concat]
      cases last with
      | write other value' =>
          rw [edit, stored?_insert, Edit.kept_write]
          split
          · exact Option.some_inj
          · exact ih
      | clear => exact iff_of_false (by simp [edit, stored?_empty]) Edit.not_kept_clear

theorem isSome_stored?_run :
    ((run edits).stored? pattern).isSome ↔ ∃ value, Edit.Kept edits pattern value := by
  simp only [Option.isSome_iff_exists, stored?_run]

variable {key : Pattern kinds}

/-- **A look-up finds the value that decides the key.** -/
theorem resolve?_run :
    (run edits).resolve? key = some value ↔
      ∃ pattern, Edit.Decides edits key pattern value := by
  simp only [resolve?_eq_some_iff, stored?_run, isSome_stored?_run]
  constructor
  · rintro ⟨pattern, hkept, hcovers, hfirst⟩
    exact ⟨pattern, hkept, hcovers, fun other value' hother => hfirst other ⟨value', hother⟩⟩
  · rintro ⟨pattern, hkept, hcovers, hfirst⟩
    exact ⟨pattern, hkept, hcovers, fun other ⟨value', hother⟩ => hfirst other value' hother⟩

theorem resolve?_run_eq_none : (run edits).resolve? key = none ↔ Edit.Undecided edits key := by
  simp only [resolve?_eq_none_iff, isSome_stored?_run]
  exact ⟨fun h pattern value hkept => h pattern ⟨value, hkept⟩,
    fun h pattern ⟨value, hkept⟩ => h pattern value hkept⟩

/-- What is done to the values of a table is done to what is found in it. -/
theorem resolve?_eq_map {β : Type} {table' : Table kinds β} (f : α → β)
    (h : ∀ pattern, table'.stored? pattern = (table.stored? pattern).map f) :
    table'.resolve? key = (table.resolve? key).map f := by
  simp only [resolve?, List.map_findSome?, h]
  rfl

/-- Tables that hold the same are the same to a look-up. -/
theorem resolve?_congr {table' : Table kinds α}
    (h : ∀ pattern, table'.stored? pattern = table.stored? pattern) :
    table'.resolve? key = table.resolve? key := by
  simp only [resolve?, h]

/-- **The order of writes under different patterns cannot be seen.** -/
theorem stored?_reordered {edits' : List (Edit kinds α)} (h : Edit.Reordered edits edits') :
    (run edits').stored? pattern = (run edits).stored? pattern := by
  induction h with
  | refl => rfl
  | trans _ _ ih ih' => rw [ih', ih]
  | @swap before after pattern₁ pattern₂ value value' hne =>
      -- the rest of the edits does the same to tables that hold the same
      have hrest (table table' : Table kinds α)
          (h : ∀ pattern, table'.stored? pattern = table.stored? pattern) :
          (after.foldl edit table').stored? pattern = (after.foldl edit table).stored? pattern := by
        induction after generalizing table table' with
        | nil => exact h pattern
        | cons first after ih =>
            refine ih _ _ fun pattern => ?_
            cases first with
            | write other value => simp only [edit, stored?_insert, h]
            | clear => rfl
      simp only [run, List.foldl_append, List.foldl_cons]
      refine hrest _ _ fun pattern => ?_
      simp only [edit, stored?_insert]
      split <;> split <;> simp_all

/-- A write under a pattern that does not cover a key cannot be seen at the key. -/
theorem resolve?_insert_of_not_covers (h : pattern.covers key = false) :
    (table.insert pattern value).resolve? key = table.resolve? key := by
  have hmasked (mask : Nat) :
      (table.insert pattern value).stored? (key.masked mask) = table.stored? (key.masked mask) := by
    rw [stored?_insert, if_neg]
    rintro rfl
    rw [Pattern.covers_masked] at h
    cases h
  simp only [resolve?, hmasked]

end Table

/-! ### Probabilities and rewards -/

variable [Scalar α]

namespace ProbabilityTable

/-- One edit of a table of probabilities. -/
def edit (table : ProbabilityTable kinds α) : Edit kinds α → ProbabilityTable kinds α
  | .write pattern probability => table.insert pattern probability
  | .clear => {}

/-- The table after some edits. -/
def run (edits : List (Edit kinds α)) : ProbabilityTable kinds α := edits.foldl edit {}

theorem stored?_run (edits : List (Edit kinds α)) (pattern : Pattern kinds) :
    (run edits).table.stored? pattern
      = ((Table.run edits).stored? pattern).map Scalar.clamp01 := by
  induction edits using List.reverseRecOn with
  | nil => simp [run, Table.run, Table.stored?_empty]
  | append_singleton edits last ih =>
      rw [Table.run_concat, run, List.foldl_append]
      show ((run edits).edit last).table.stored? pattern = _
      cases last with
      | write other probability =>
          simp only [edit, insert, Table.edit, Table.stored?_insert, ih]
          split <;> rfl
      | clear => simp [edit, Table.edit, Table.stored?_empty]

/-- **A probability is what decides its key, brought into the unit interval.** -/
theorem get_run (edits : List (Edit kinds α)) (key : Pattern kinds) :
    (run edits).get key = (((Table.run edits).resolve? key).map Scalar.clamp01).getD 0 := by
  rw [get, Table.resolve?_eq_map Scalar.clamp01 (stored?_run edits)]

end ProbabilityTable

namespace RewardTable

/-- One edit of a table of rewards. -/
def edit (rewards : RewardTable kinds α) : Edit kinds α → RewardTable kinds α
  | .write pattern reward => rewards.insert pattern reward
  | .clear => {}

/-- The table after some edits. -/
def run (edits : List (Edit kinds α)) : RewardTable kinds α := edits.foldl edit {}

theorem table_run (edits : List (Edit kinds α)) : (run edits).table = Table.run edits := by
  induction edits using List.reverseRecOn with
  | nil => rfl
  | append_singleton edits last ih =>
      rw [Table.run_concat, run, List.foldl_append, ← ih]
      cases last <;> rfl

/-- **A reward is what decides its key.** -/
theorem get_run (edits : List (Edit kinds α)) (key : Pattern kinds) :
    (run edits).get key = ((Table.run edits).resolve? key).getD 0 := by
  rw [get, table_run]

end RewardTable

/-! ### Look-ups after edits -/

/-- The hashes in the slots of a pattern. -/
def Pattern.hashes : {kinds : List Kind} → Pattern kinds → List (Option UInt32)
  | _, .nil => []
  | _, .cons slot rest => slot.map Entity.hash :: rest.hashes

namespace Edit

/-- What is found at a key: in a plain table, in one of probabilities and in one of rewards. -/
def answers (edits : List (Edit kinds α)) (key : Pattern kinds) : Option α × α × α :=
  ((Table.run edits).resolve? key, (ProbabilityTable.run edits).get key,
    (RewardTable.run edits).get key)

/-- What is written under a pattern: in a plain table, in one of probabilities and in one of
rewards. -/
def entries (edits : List (Edit kinds α)) (pattern : Pattern kinds) :
    Option α × Option α × Option α :=
  ((Table.run edits).stored? pattern, (ProbabilityTable.run edits).table.stored? pattern,
    (RewardTable.run edits).table.stored? pattern)

theorem answers_eq (edits : List (Edit kinds α)) (key : Pattern kinds) :
    answers edits key =
      ((Table.run edits).resolve? key,
        (((Table.run edits).resolve? key).map Scalar.clamp01).getD 0,
        ((Table.run edits).resolve? key).getD 0) := by
  rw [answers, ProbabilityTable.get_run, RewardTable.get_run]

theorem entries_eq (edits : List (Edit kinds α)) (pattern : Pattern kinds) :
    entries edits pattern =
      ((Table.run edits).stored? pattern,
        ((Table.run edits).stored? pattern).map Scalar.clamp01,
        (Table.run edits).stored? pattern) := by
  rw [entries, ProbabilityTable.stored?_run, RewardTable.table_run]

/-- **A key is decided by the kept pattern with the fewest wildcards.**  Whatever was written and
cleared before, the value last written under the pattern that decides the key is what is found at
it, brought into the unit interval if it is a probability, and nothing is found, or zero, if there
is no such pattern.  The key may have wildcards of its own.

The order of writes under different patterns makes no difference, nor does a pattern that does not
cover the key.  Entities that share a hash but not a name have entries of their own.  If all that
was written are numbers, every probability lies in the unit interval. -/
theorem answers_decided (edits : List (Edit kinds Float)) (key : Pattern kinds) :
    ((∃ pattern value, Decides edits key pattern value) ∨ Undecided edits key) ∧
    (∀ pattern value, Decides edits key pattern value →
      answers edits key = (some value, Scalar.clamp01 value, value)) ∧
    (Undecided edits key → answers edits key = (none, 0, 0)) ∧
    (∀ edits', Reordered edits edits' → answers edits' key = answers edits key) ∧
    (∀ pattern value, pattern.covers key = false →
      answers (edits ++ [write pattern value]) key = answers edits key) ∧
    (∀ pattern value, pattern.hashes = key.hashes → pattern ≠ key →
      entries (edits ++ [write pattern value]) key = entries edits key) ∧
    ((∀ pattern value, write pattern value ∈ edits → value ≤ value) →
      0 ≤ (ProbabilityTable.run edits).get key ∧ (ProbabilityTable.run edits).get key ≤ 1) := by
  refine ⟨?_, ?_, ?_, ?_, ?_, ?_, ?_⟩
  · cases hfound : (Table.run edits).resolve? key with
    | some value =>
        obtain ⟨pattern, hdecides⟩ := Table.resolve?_run.mp hfound
        exact .inl ⟨pattern, value, hdecides⟩
    | none => exact .inr (Table.resolve?_run_eq_none.mp hfound)
  · intro pattern value hdecides
    rw [answers_eq, Table.resolve?_run.mpr ⟨pattern, hdecides⟩]
    rfl
  · intro hundecided
    rw [answers_eq, Table.resolve?_run_eq_none.mpr hundecided]
    rfl
  · intro edits' hreordered
    rw [answers_eq, answers_eq,
      Table.resolve?_congr fun pattern => Table.stored?_reordered hreordered]
  · intro pattern value hcovers
    rw [answers_eq, answers_eq, Table.run_concat, Table.edit,
      Table.resolve?_insert_of_not_covers hcovers]
  · intro pattern value _ hne
    rw [entries_eq, entries_eq, Table.run_concat, Table.edit, Table.stored?_insert, if_neg hne]
  · intro hnumbers
    rw [ProbabilityTable.get_run]
    cases hfound : (Table.run edits).resolve? key with
    | none => exact ⟨by decide, by decide⟩
    | some value =>
        obtain ⟨pattern, hdecides⟩ := Table.resolve?_run.mp hfound
        exact Scalar.clamp01_mem (hnumbers pattern value (mem_of_kept hdecides.kept))

/-- A state whose name has the hash of another name, `BB`. -/
def twin : State := .named .state "Aa"

/-- A key of a table of transitions. -/
def stay (state : State) : Pattern [.state, .action, .state] :=
  .cons (some state) (.cons (some (.named .action "stay")) (.cons (some state) .nil))

/-- Any way from any state to `twin`. -/
def arrive : Pattern [.state, .action, .state] :=
  .cons none (.cons none (.cons (some twin) .nil))

/-- Any way from `twin`. -/
def leave : Pattern [.state, .action, .state] :=
  .cons (some twin) (.cons none (.cons none .nil))

/-- Two patterns with as many wildcards, one of them written again after a value that is dropped,
and the exact key of a state that shares its hash. -/
def rewritten : List (Edit [.state, .action, .state] Float) :=
  [.write (stay twin) 0.75, .clear, .write leave 0.25, .write arrive 0.125, .write arrive 2,
    .write (stay (.named .state "BB")) 0.5]

/-- The pattern that gives up the first two positions comes before the one that gives up the last
two, and its value is brought into the unit interval. -/
theorem answers_decided_twin :
    (stay (.named .state "BB")).hashes = (stay twin).hashes ∧
      Decides rewritten (stay twin) arrive 2 ∧
      answers rewritten (stay twin) = (some 2, Scalar.clamp01 2, 2) ∧
      entries (rewritten ++ [.write (stay (.named .state "BB")) 1]) (stay twin)
        = entries rewritten (stay twin) := by
  have hhashes : (stay (.named .state "BB")).hashes = (stay twin).hashes := by decide +kernel
  have hdropped : ((Table.run rewritten).stored? (stay twin)).isNone = true := by decide +kernel
  have hdecides : Decides rewritten (stay twin) arrive 2 := by
    refine ⟨⟨rewritten.take 4, rewritten.drop 5, rfl, by simp [rewritten], ?_⟩,
      by decide +kernel, ?_⟩
    · intro later hmem
      simp only [rewritten, List.drop, List.mem_singleton, write.injEq] at hmem
      exact absurd hmem.1 (by decide +kernel)
    · intro other value' hkept hcovers hne
      have hmem := mem_of_kept hkept
      simp only [rewritten, List.mem_cons, write.injEq, reduceCtorEq, List.not_mem_nil, or_false,
        false_or] at hmem
      rcases hmem with ⟨rfl, -⟩ | ⟨rfl, -⟩ | ⟨rfl, -⟩ | ⟨rfl, -⟩ | ⟨rfl, -⟩
      · rw [← Table.stored?_run, Option.isNone_iff_eq_none.mp hdropped] at hkept
        cases hkept
      · exact .inr ⟨by decide, by decide⟩
      · exact absurd rfl hne
      · exact absurd rfl hne
      · exact absurd hcovers (by decide +kernel)
  obtain ⟨-, hanswer, -, -, -, hentries, -⟩ := answers_decided rewritten (stay twin)
  exact ⟨hhashes, hdecides, hanswer arrive 2 hdecides,
    hentries _ 1 hhashes (by decide +kernel)⟩

end Edit

end MarkovPlanning
