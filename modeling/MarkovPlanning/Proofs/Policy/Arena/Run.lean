/-
A policy tree executes its histories.

The cursor of a tree is an index, and all that a step reads is the node there.  What it stands for
is the history observed since the tree was made or put back (`observed`), and the two never come
apart, however the tree is followed and changed in between: the cursor is at the node of what was
observed as long as no leaf was passed, and nowhere afterwards (`tracks_run`, `passed_iff`).  So
what the cursor answers is what the tree answers for that history (`Tracks.executes`).
-/
import MarkovPlanning.Proofs.Entity.Changes
import MarkovPlanning.Proofs.Policy.Arena
import Mathlib

namespace MarkovPlanning.PolicyArena

open Histories

/-! ### Calls -/

/-- A call that may change a tree or its cursor. -/
inductive Call where
  | set (history : List Observation) (action : Action)
  | next (observation : Observation)
  | reset

/-- The answer to a call, with the action if it gives one, and the arena after it. -/
def perform (arena : PolicyArena) : Call → Except PolicyFault (Option Action) × PolicyArena
  | .set history action =>
    ((arena.set history action).1.map fun _ => none, (arena.set history action).2)
  | .next observation => ((arena.next observation).1.map some, (arena.next observation).2)
  | .reset => (.ok none, arena.reset)

/-- An arena and what was observed, after one more call. -/
def observe (seen : PolicyArena × List Observation) (call : Call) :
    PolicyArena × List Observation :=
  let (answer, after) := seen.1.perform call
  match call, answer with
  | .next observation, .ok _ => (after, seen.2 ++ [observation])
  | .reset, _ => (after, [])
  | _, _ => (after, seen.2)

/-- The arena after some calls. -/
def run (arena : PolicyArena) (calls : List Call) : PolicyArena :=
  (calls.foldl observe (arena, [])).1

/-- The observations of the successful steps since the tree was made or put back last. -/
def observed (arena : PolicyArena) (calls : List Call) : List Observation :=
  (calls.foldl observe (arena, [])).2

/-- A step that succeeds after some calls. -/
def Steps (arena : PolicyArena) (calls : List Call) (observation : Observation) : Prop :=
  ∃ action, ((arena.run calls).next observation).1 = .ok action

/-- A history whose node has no children. -/
def AtLeaf (arena : PolicyArena) (history : List Observation) : Prop :=
  ∃ index, arena.locate history = .ok index ∧ edgesAt arena.nodes index = []

/-- A leaf was passed, and the tree was not put back since. -/
def Passed (arena : PolicyArena) (calls : List Call) : Prop :=
  ∃ before observation after, calls = before ++ .next observation :: after ∧
    arena.Steps before observation ∧ (arena.run before).AtLeaf (arena.observed before) ∧
      .reset ∉ after

/-! ### What a step does -/

/-- A tree whose cursor stands for a history: it answers as the tree does for that history, and a
step moves on in the tree. -/
structure Executes (observations : Collection .observation) (horizon : Nat) (arena : PolicyArena)
    (history : List Observation) : Prop where
  current_iff : ∀ action, arena.current = .ok action ↔ arena.get history = .ok action
  leaf_iff : arena.AtLeaf history ↔ history.length + 1 = horizon ∨ observations = ∅
  /-- At a leaf any observation uses the tree up. -/
  next_leaf : ∀ action observation, arena.get history = .ok action → arena.AtLeaf history →
    arena.next observation = (.ok action, { arena with cursor := none })
  /-- Anywhere else an observation leads to the history that is longer by it. -/
  next_branch : ∀ action observation, arena.get history = .ok action → ¬arena.AtLeaf history →
    observation ∈ observations → ∃ index, arena.locate (history ++ [observation]) = .ok index ∧
      arena.next observation = (.ok action, { arena with cursor := some index })
  /-- Unless it is unknown, and then nothing changes. -/
  next_unknown : ∀ action observation, arena.get history = .ok action → ¬arena.AtLeaf history →
    observation ∉ observations → arena.next observation = (.error (.noBranch observation), arena)
  /-- Nothing changes without an action either. -/
  next_unset : ∀ observation, (∀ action, arena.get history ≠ .ok action) →
    arena.next observation = (.error .unsetNode, arena)

/-- The cursor stands for a history, and nowhere if the tree has no place for it. -/
structure Tracks (observations : Collection .observation) (horizon : Nat) (arena : PolicyArena)
    (history : List Observation) : Prop where
  shaped : Shaped observations horizon arena
  cursor_iff : ∀ index, arena.cursor = some index ↔
    (upTo observations.toList (horizon - 1))[index]? = some history

variable {observations : Collection .observation} {horizon index : Nat} {arena : PolicyArena}
  {history : List Observation}

theorem get_eq_ok_iff (h : arena.locate history = .ok index) {action : Action} :
    arena.get history = .ok action ↔ actionAt? arena.nodes index = some action := by
  rw [get, h]
  simp only [bind, Except.bind]
  cases actionAt? arena.nodes index <;> simp

theorem current_eq_ok_iff (h : arena.cursor = some index) {action : Action} :
    arena.current = .ok action ↔ actionAt? arena.nodes index = some action := by
  rw [current, h]
  dsimp only
  cases actionAt? arena.nodes index <;> simp

theorem atLeaf_iff (h : arena.locate history = .ok index) :
    arena.AtLeaf history ↔ edgesAt arena.nodes index = [] := by
  unfold AtLeaf
  rw [h]
  exact ⟨fun ⟨_, hindex, hedges⟩ => Except.ok.inj hindex ▸ hedges, fun hedges => ⟨_, rfl, hedges⟩⟩

/-- What a step does with an action under the cursor. -/
theorem next_eq (hcursor : arena.cursor = some index) {action : Action}
    (hcurrent : arena.current = .ok action) (observation : Observation) :
    arena.next observation =
      if (edgesAt arena.nodes index).isEmpty then (.ok action, { arena with cursor := none })
      else
        match child? arena.nodes index observation with
        | some child => (.ok action, { arena with cursor := some child })
        | none => (.error (.noBranch observation), arena) := by
  rw [next, hcursor]
  generalize arena.current = answer at hcurrent ⊢
  subst hcurrent
  rfl

theorem current_of_exhausted (hcursor : arena.cursor = none) :
    arena.current = .error .exhausted := by
  rw [current, hcursor]

theorem next_of_exhausted (hcursor : arena.cursor = none) (observation : Observation) :
    arena.next observation = (.error .exhausted, arena) := by
  rw [next, hcursor]

namespace Shaped

variable (h : Shaped observations horizon arena)
  (hindex : (upTo observations.toList (horizon - 1))[index]? = some history)
include h hindex

/-- What a history goes on with. -/
theorem extends_iff {observation : Observation} :
    history ++ [observation] ∈ upTo observations.toList (horizon - 1) ↔
      history.length + 1 < horizon ∧ observation ∈ observations := by
  have hmem := (h.mem_upTo_iff.mp (List.mem_of_getElem? hindex)).2
  rw [h.mem_upTo_iff, List.length_append, List.length_singleton, List.forall_mem_append,
    List.forall_mem_singleton, and_iff_right hmem]

theorem edgesAt_eq_nil_iff :
    edgesAt arena.nodes index = [] ↔ history.length + 1 = horizon ∨ observations = ∅ := by
  have hlength := (h.mem_upTo_iff.mp (List.mem_of_getElem? hindex)).1
  rw [h.stands.edgesAt_eq_nil_iff hindex]
  simp only [h.extends_iff hindex]
  constructor
  · intro hno
    by_contra! hnot
    obtain ⟨observation, hobservation⟩ := Collection.exists_mem hnot.2
    exact hno observation ⟨by omega, hobservation⟩
  · rintro (heq | rfl) observation ⟨hlt, hobservation⟩
    · exact hlt.ne heq
    · exact Std.ExtTreeSet.not_mem_empty hobservation

end Shaped

namespace Tracks

variable (h : Tracks observations horizon arena history)
include h

/-- **The cursor answers as the tree does for the history it stands for.** -/
theorem executes (hcursor : arena.cursor = some index) :
    Executes observations horizon arena history := by
  have hindex := (h.cursor_iff index).mp hcursor
  have hlocate : arena.locate history = .ok index := h.shaped.locate_eq_ok_iff.mpr hindex
  have hcurrent : ∀ action, arena.current = .ok action ↔ arena.get history = .ok action :=
    fun action => (current_eq_ok_iff hcursor).trans (get_eq_ok_iff hlocate).symm
  have hleaf := atLeaf_iff hlocate
  have hedges := h.shaped.edgesAt_eq_nil_iff hindex
  refine ⟨hcurrent, hleaf.trans hedges, ?_, ?_, ?_, ?_⟩
  · intro action observation hget hatLeaf
    rw [next_eq hcursor ((hcurrent action).mpr hget),
      if_pos (List.isEmpty_iff.mpr (hleaf.mp hatLeaf))]
  · intro action observation hget hinner hobservation
    have hshort : history.length + 1 < horizon := by
      have hlength := (h.shaped.mem_upTo_iff.mp (List.mem_of_getElem? hindex)).1
      have hne : history.length + 1 ≠ horizon := fun heq =>
        hinner (hleaf.mpr (hedges.mpr (.inl heq)))
      omega
    obtain ⟨child, hchild⟩ := List.mem_iff_getElem?.mp
      ((h.shaped.extends_iff hindex).mpr ⟨hshort, hobservation⟩)
    refine ⟨child, h.shaped.locate_eq_ok_iff.mpr hchild, ?_⟩
    rw [next_eq hcursor ((hcurrent action).mpr hget),
      if_neg (List.isEmpty_iff.not.mpr (hleaf.not.mp hinner)),
      (h.shaped.stands.child?_eq_some_iff hindex).mpr hchild]
  · intro action observation hget hinner hunknown
    have hnone : child? arena.nodes index observation = none := by
      rw [Option.eq_none_iff_forall_ne_some]
      intro child hsome
      have hchild := (h.shaped.stands.child?_eq_some_iff hindex).mp hsome
      exact hunknown ((h.shaped.extends_iff hindex).mp (List.mem_of_getElem? hchild)).2
    rw [next_eq hcursor ((hcurrent action).mpr hget),
      if_neg (List.isEmpty_iff.not.mpr (hleaf.not.mp hinner)), hnone]
  · intro observation hunset
    have hnone : actionAt? arena.nodes index = none :=
      Option.eq_none_iff_forall_ne_some.mpr fun action haction =>
        hunset action ((get_eq_ok_iff hlocate).mpr haction)
    simp [next, current, hcursor, hnone]

/-- The ways a step can go: it fails and changes nothing, it passes a leaf, or it moves on. -/
theorem next_cases (observation : Observation) :
    (∃ fault, arena.next observation = (.error fault, arena)) ∨
    (∃ action, arena.next observation = (.ok action, { arena with cursor := none }) ∧
      arena.AtLeaf history ∧
      history ++ [observation] ∉ upTo observations.toList (horizon - 1)) ∨
    ∃ action index, arena.next observation = (.ok action, { arena with cursor := some index }) ∧
      ¬arena.AtLeaf history ∧
      (upTo observations.toList (horizon - 1))[index]? = some (history ++ [observation]) := by
  cases hcursor : arena.cursor with
  | none => exact .inl ⟨_, next_of_exhausted hcursor observation⟩
  | some index =>
      have hexecutes := h.executes hcursor
      by_cases hunset : ∀ action, arena.get history ≠ .ok action
      · exact .inl ⟨_, hexecutes.next_unset observation hunset⟩
      push Not at hunset
      obtain ⟨action, hget⟩ := hunset
      by_cases hatLeaf : arena.AtLeaf history
      · refine .inr (.inl ⟨action, hexecutes.next_leaf action observation hget hatLeaf,
          hatLeaf, fun hmem => ?_⟩)
        obtain ⟨hlength, hknown⟩ :=
          (h.shaped.extends_iff ((h.cursor_iff index).mp hcursor)).mp hmem
        rcases hexecutes.leaf_iff.mp hatLeaf with heq | rfl
        · exact hlength.ne heq
        · exact Std.ExtTreeSet.not_mem_empty hknown
      · by_cases hknown : observation ∈ observations
        · obtain ⟨child, hchild, hnext⟩ :=
            hexecutes.next_branch action observation hget hatLeaf hknown
          exact .inr (.inr ⟨action, child, hnext, hatLeaf, h.shaped.locate_eq_ok_iff.mp hchild⟩)
        · exact .inl ⟨_, hexecutes.next_unknown action observation hget hatLeaf hknown⟩

/-- **A step of the tree is a step of the history.** -/
theorem next (observation : Observation) :
    Tracks observations horizon (arena.next observation).2
      (observe (arena, history) (.next observation)).2 := by
  obtain ⟨fault, hnext⟩ | ⟨action, hnext, -, hoff⟩ | ⟨action, child, hnext, -, hchild⟩ :=
    h.next_cases observation
  · simp only [observe, perform, hnext, Except.map]
    exact h
  · simp only [observe, perform, hnext, Except.map]
    exact ⟨h.shaped.move none, fun other => iff_of_false nofun fun hother =>
      hoff (List.mem_of_getElem? hother)⟩
  · simp only [observe, perform, hnext, Except.map]
    refine ⟨h.shaped.move _, fun other => ?_⟩
    rw [Option.some_inj]
    exact ⟨fun heq => heq ▸ hchild, h.shaped.stands.index_eq hchild⟩

/-- Setting an action moves nothing. -/
theorem set (target : List Observation) (action : Action) :
    Tracks observations horizon (arena.set target action).2 history := by
  unfold PolicyArena.set
  split
  · exact h
  · exact ⟨h.shaped.modify _ _, h.cursor_iff⟩

theorem reset : Tracks observations horizon arena.reset [] where
  shaped := h.shaped.move (some 0)
  cursor_iff other := by
    have hroot := h.shaped.stands.root
    show some 0 = some other ↔ _
    rw [Option.some_inj]
    exact ⟨fun heq => heq ▸ hroot, h.shaped.stands.index_eq hroot⟩

end Tracks

/-! ### Any calls -/

theorem fst_observe (seen : PolicyArena × List Observation) (call : Call) :
    (observe seen call).1 = (seen.1.perform call).2 := by
  unfold observe
  cases call with
  | set => rfl
  | next observation => cases h : (seen.1.perform (.next observation)).1 <;> simp [h]
  | reset => rfl

theorem run_concat (calls : List Call) (last : Call) :
    arena.run (calls ++ [last]) = ((arena.run calls).perform last).2 := by
  rw [run, List.foldl_concat, fst_observe, run]

theorem observed_concat (calls : List Call) (last : Call) :
    arena.observed (calls ++ [last])
      = (observe (arena.run calls, arena.observed calls) last).2 := by
  rw [observed, List.foldl_concat, run, observed]

section
variable (h : blank observations horizon = .ok arena) (calls : List Call)
include h

/-- **The cursor stands for what was observed.** -/
theorem tracks_run : Tracks observations horizon (arena.run calls) (arena.observed calls) := by
  induction calls using List.reverseRecOn with
  | nil =>
      obtain ⟨hshaped, hcursor, -⟩ := shaped_of_blank h
      have hroot := hshaped.stands.root
      refine ⟨hshaped, fun index => ?_⟩
      show arena.cursor = some index ↔ _
      rw [hcursor, Option.some_inj]
      exact ⟨fun heq => heq ▸ hroot, hshaped.stands.index_eq hroot⟩
  | append_singleton calls last ih =>
      rw [run_concat, observed_concat]
      cases last with
      | set target action => exact ih.set target action
      | next observation => exact ih.next observation
      | reset => exact ih.reset

end

theorem passed_concat {calls : List Call} {last : Call} :
    arena.Passed (calls ++ [last]) ↔
      (∃ observation, last = .next observation ∧ arena.Steps calls observation ∧
        (arena.run calls).AtLeaf (arena.observed calls)) ∨
      arena.Passed calls ∧ last ≠ .reset := by
  constructor
  · rintro ⟨before, observation, after, hcalls, hsteps, hleaf, hreset⟩
    rcases concat_eq_append_cons_iff.mp hcalls with ⟨rfl, hlast, rfl⟩ | ⟨rest, rfl, rfl⟩
    · exact .inl ⟨observation, hlast, hsteps, hleaf⟩
    · obtain ⟨hrest, hlast⟩ := not_or.mp (List.mem_append.not.mp hreset)
      exact .inr ⟨⟨before, observation, rest, rfl, hsteps, hleaf, hrest⟩, fun heq =>
        hlast (heq ▸ List.mem_singleton_self _)⟩
  · rintro (⟨observation, rfl, hsteps, hleaf⟩ |
      ⟨⟨before, observation, after, rfl, hsteps, hleaf, hreset⟩, hlast⟩)
    · exact ⟨calls, observation, [], rfl, hsteps, hleaf, List.not_mem_nil⟩
    · exact ⟨before, observation, after ++ [last], by simp, hsteps, hleaf, by
        simp [hreset, hlast.symm]⟩

/-- **The cursor is gone if and only if a leaf was passed.** -/
theorem passed_iff (h : blank observations horizon = .ok arena) (calls : List Call) :
    arena.Passed calls ↔ (arena.run calls).cursor = none := by
  induction calls using List.reverseRecOn with
  | nil =>
      obtain ⟨-, hcursor, -⟩ := shaped_of_blank h
      refine iff_of_false ?_ ?_
      · rintro ⟨before, observation, after, hcalls, -⟩
        simp at hcalls
      · show arena.cursor ≠ none
        rw [hcursor]
        exact nofun
  | append_singleton calls last ih =>
      rw [passed_concat, ih, run_concat]
      cases last with
      | set target action =>
          have hcursor : ((arena.run calls).set target action).2.cursor
              = (arena.run calls).cursor := by
            unfold set
            split <;> rfl
          simp [perform, hcursor]
      | reset => simp [perform, reset]
      | next observation =>
          obtain ⟨fault, hnext⟩ | ⟨action, hnext, hleaf, -⟩ | ⟨action, child, hnext, hleaf, -⟩ :=
            (tracks_run h calls).next_cases observation
          · simp [perform, Steps, hnext]
          · simp [perform, Steps, hnext, hleaf]
          · -- a tree that moves on has a cursor, so no leaf was passed before
            have hcursor : (arena.run calls).cursor ≠ none := by
              intro hnone
              rw [next_of_exhausted hnone] at hnext
              cases congrArg Prod.fst hnext
            simp [perform, Steps, hnext, hleaf, hcursor]

/-- **A policy tree executes its histories.**  As long as no leaf was passed the cursor stands for
what was observed: it answers as the tree does for this history, and a step goes on from there.
Once a leaf was passed every call for an action fails. -/
theorem run_executes (h : blank observations horizon = .ok arena) (calls : List Call) :
    (¬arena.Passed calls →
      Executes observations horizon (arena.run calls) (arena.observed calls)) ∧
    (arena.Passed calls → (arena.run calls).current = .error .exhausted ∧
      ∀ observation,
        (arena.run calls).next observation = (.error .exhausted, arena.run calls)) := by
  rw [passed_iff h]
  constructor
  · intro hcursor
    obtain ⟨index, hindex⟩ := Option.ne_none_iff_exists'.mp hcursor
    exact (tracks_run h calls).executes hindex
  · intro hcursor
    exact ⟨current_of_exhausted hcursor, next_of_exhausted hcursor⟩

/-- A floor is mopped, and swept if it was wet.  After that the tree is used up. -/
theorem run_executes_mopping :
    let observations : Collection .observation := .ofNames .observation ["dry", "wet"]
    let wet : Observation := .named .observation "wet"
    let mop : Action := .named .action "mop"
    let sweep : Action := .named .action "sweep"
    ∃ arena, blank observations 2 = .ok arena ∧
      let followed := arena.run [.set [] mop, .next wet, .set [wet] sweep]
      followed.current = .ok sweep ∧
        followed.next wet = (.ok sweep, { followed with cursor := none }) ∧
        (followed.next wet).2.current = .error .exhausted := by
  intro observations wet mop sweep
  obtain ⟨arena, harena⟩ : ∃ arena, blank observations 2 = .ok arena := ⟨_, rfl⟩
  refine ⟨arena, harena, ?_⟩
  intro followed
  let calls : List Call := [.set [] mop, .next wet, .set [wet] sweep]
  have hopen : ¬arena.Passed calls := by
    rw [passed_iff harena]
    cases harena
    decide +kernel
  have hobserved : arena.observed calls = [wet] := by
    cases harena
    decide +kernel
  have hget : followed.get [wet] = .ok sweep := by
    cases harena
    decide +kernel
  have hexecutes := (run_executes harena calls).1 hopen
  rw [← hobserved] at hget
  have hleaf := hexecutes.leaf_iff.mpr (.inl (by rw [hobserved]; rfl))
  have hnext := hexecutes.next_leaf sweep wet hget hleaf
  refine ⟨(hexecutes.current_iff sweep).mpr hget, hnext, ?_⟩
  have hpassed : arena.Passed (calls ++ [.next wet]) :=
    ⟨calls, wet, [], rfl, ⟨sweep, congrArg Prod.fst hnext⟩, hleaf, List.not_mem_nil⟩
  have hexhausted := ((run_executes harena (calls ++ [.next wet])).2 hpassed).1
  rwa [run_concat] at hexhausted

end MarkovPlanning.PolicyArena
