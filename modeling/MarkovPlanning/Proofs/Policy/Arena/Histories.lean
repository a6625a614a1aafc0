/-
A policy tree is a map from histories to actions.

The nodes of a tree stand for the histories shorter than its horizon, one for each
(`Shaped.existsUnique_locate`).  A call that sets an action changes the node of its history and no
other, so for the tree as a map it is an update at one key (`Shaped.get_set`).  A call for a
history that has no node fails and changes nothing (`Shaped.set_eq_error`), and the cursor is no
part of the map (`get_eq_of_nodes`).

So a step leaves each history with the action it had, unless it gives it another one
(`Shaped.get_perform`), and after any calls a history has the action that it was given last
(`get_run`).
-/
import MarkovPlanning.Proofs.Policy.Arena.Run
import Mathlib

namespace MarkovPlanning.PolicyArena

open Histories

/-- A history of known observations that is shorter than the horizon. -/
structure Belongs (observations : Collection .observation) (horizon : Nat)
    (history : List Observation) : Prop where
  short : history.length < horizon
  known : ∀ observation ∈ history, observation ∈ observations

/-- A call that succeeds in setting the action after a history. -/
def Gives (arena : PolicyArena) (call : Call) (history : List Observation) (action : Action) :
    Prop :=
  call = .set history action ∧ (arena.set history action).1 = .ok ()

/-- An action that was set after a history by one of some calls, the last one to succeed in setting
an action there. -/
def GivenLast (arena : PolicyArena) (calls : List Call) (history : List Observation)
    (action : Action) : Prop :=
  ∃ before call after, calls = before ++ call :: after ∧
    (arena.run before).Gives call history action ∧
      ∀ middle later rest, after = middle ++ later :: rest →
        ∀ other, ¬(arena.run (before ++ call :: middle)).Gives later history other

variable {observations : Collection .observation} {horizon index : Nat} {arena : PolicyArena}
  {history target : List Observation} {action : Action} {calls : List Call}

/-! ### One call -/

theorem set_eq_of_locate (h : arena.locate target = .ok index) (action : Action) :
    arena.set target action = (.ok (), { arena with
      nodes := arena.nodes.modify index fun node => { node with action := some action } }) := by
  rw [set, h]

/-- What is looked up depends on the nodes alone. -/
theorem get_eq_of_nodes {other : PolicyArena} (h : arena.nodes = other.nodes) :
    arena.get = other.get := by
  funext history
  rw [get, get, locate, locate, h]

theorem nodes_next (observation : Observation) :
    (arena.next observation).2.nodes = arena.nodes := by
  unfold next
  repeat' split
  all_goals rfl

namespace Shaped

variable (h : Shaped observations horizon arena)
include h

theorem exists_locate_iff_belongs :
    (∃ index, arena.locate history = .ok index) ↔ Belongs observations horizon history :=
  h.exists_locate_iff.trans ⟨fun ⟨hshort, hknown⟩ => ⟨hshort, hknown⟩,
    fun hbelongs => ⟨hbelongs.short, hbelongs.known⟩⟩

theorem locate_eq_error (hnot : ¬Belongs observations horizon history) :
    arena.locate history = .error (.outsideTree history) := by
  rw [← h.exists_locate_iff_belongs] at hnot
  unfold locate at hnot ⊢
  cases hwalk : walk? arena.nodes 0 history with
  | none => rfl
  | some index => exact absurd ⟨index, by rw [hwalk]⟩ hnot

/-- No two histories share a node. -/
theorem locate_inj (hindex : arena.locate history = .ok index)
    (hindex' : arena.locate target = .ok index) : history = target :=
  Option.some.inj ((h.locate_eq_ok_iff.mp hindex).symm.trans (h.locate_eq_ok_iff.mp hindex'))

theorem lt_size (hindex : arena.locate history = .ok index) : index < arena.size := by
  rw [size, h.stands.size_eq]
  exact (List.getElem?_eq_some_iff.mp (h.locate_eq_ok_iff.mp hindex)).1

/-- **A node stands for one history.** -/
theorem existsUnique_locate (hindex : index < arena.size) :
    ∃! history, arena.locate history = .ok index := by
  rw [size, h.stands.size_eq] at hindex
  have hlocate := h.locate_eq_ok_iff.mpr (List.getElem?_eq_getElem hindex)
  exact ⟨_, hlocate, fun _ hother => h.locate_inj hother hlocate⟩

theorem set_eq_error (hnot : ¬Belongs observations horizon target) (action : Action) :
    arena.set target action = (.error (.outsideTree target), arena) := by
  rw [set, h.locate_eq_error hnot]

theorem set_eq_ok_iff :
    (arena.set target action).1 = .ok () ↔ Belongs observations horizon target := by
  by_cases hbelongs : Belongs observations horizon target
  · obtain ⟨index, hindex⟩ := h.exists_locate_iff_belongs.mpr hbelongs
    rw [set_eq_of_locate hindex]
    exact iff_of_true rfl hbelongs
  · rw [h.set_eq_error hbelongs]
    exact iff_of_false nofun hbelongs

/-- **Setting an action is an update at its history.** -/
theorem get_set (hbelongs : Belongs observations horizon target) (action : Action) :
    (arena.set target action).2.get = Function.update arena.get target (.ok action) := by
  obtain ⟨index, hindex⟩ := h.exists_locate_iff_belongs.mpr hbelongs
  have hlt := h.lt_size hindex
  rw [set_eq_of_locate hindex]
  funext history
  have hlocate : PolicyArena.locate { arena with
      nodes := arena.nodes.modify index fun node => { node with action := some action } } history
        = arena.locate history := by
    rw [locate, walk?_modify, locate]
  rw [get, hlocate]
  by_cases hsame : history = target
  · subst hsame
    rw [Function.update_self, hindex]
    simp only [bind, Except.bind, actionAt?_modify hlt, if_pos]
  · rw [Function.update_of_ne hsame, get]
    cases hother : arena.locate history with
    | error fault => rfl
    | ok other =>
        have hne : other ≠ index := fun heq => hsame (h.locate_inj (heq ▸ hother) hindex)
        simp only [bind, Except.bind, actionAt?_modify hlt, if_neg hne]

theorem get_of_not_belongs (hnot : ¬Belongs observations horizon history) :
    arena.get history = .error (.outsideTree history) := by
  rw [get, h.locate_eq_error hnot]
  rfl

/-- A history that belongs to the tree and has no action is one where none was set. -/
theorem get_of_unset (hnone : ∀ action, arena.get history ≠ .ok action)
    (hbelongs : Belongs observations horizon history) :
    arena.get history = .error (.unsetHistory history) := by
  obtain ⟨index, hindex⟩ := h.exists_locate_iff_belongs.mpr hbelongs
  have hunset : actionAt? arena.nodes index = none :=
    Option.eq_none_iff_forall_ne_some.mpr fun action haction =>
      hnone action ((get_eq_ok_iff hindex).mpr haction)
  rw [get, hindex]
  simp only [bind, Except.bind, hunset]

/-- **A call leaves a history with its action, unless it gives it another one.** -/
theorem get_perform (call : Call) :
    (arena.perform call).2.get history = .ok action ↔
      arena.Gives call history action ∨
        arena.get history = .ok action ∧ ∀ other, ¬arena.Gives call history other := by
  cases call with
  | set target new =>
      show (arena.set target new).2.get history = .ok action ↔ _
      by_cases hbelongs : Belongs observations horizon target
      · rw [h.get_set hbelongs]
        by_cases hsame : history = target
        · subst hsame
          have hok (action : Action) : (arena.set history action).1 = .ok () :=
            h.set_eq_ok_iff.mpr hbelongs
          rw [Function.update_self]
          simp [Gives, hok]
        · rw [Function.update_of_ne hsame]
          simp [Gives, Ne.symm hsame]
      · have hfails (other : Action) : ¬arena.Gives (.set target new) history other := by
          rintro ⟨heq, hok⟩
          obtain ⟨rfl, -⟩ := Call.set.inj heq
          exact hbelongs (h.set_eq_ok_iff.mp hok)
        rw [h.set_eq_error hbelongs, or_iff_right (hfails action), and_iff_left hfails]
  | next observation =>
      have hget : (arena.perform (.next observation)).2.get = arena.get :=
        get_eq_of_nodes (nodes_next observation)
      simp [hget, Gives]
  | reset =>
      have hget : (arena.perform .reset).2.get = arena.get := get_eq_of_nodes rfl
      simp [hget, Gives]

end Shaped

/-! ### Any calls -/

theorem not_givenLast_nil : ¬arena.GivenLast [] history action := by
  rintro ⟨before, call, after, h, -⟩
  simp at h

theorem givenLast_concat {last : Call} :
    arena.GivenLast (calls ++ [last]) history action ↔
      (arena.run calls).Gives last history action ∨
        arena.GivenLast calls history action ∧
          ∀ other, ¬(arena.run calls).Gives last history other := by
  constructor
  · rintro ⟨before, call, after, hcalls, hgives, hlater⟩
    rcases concat_eq_append_cons_iff.mp hcalls with ⟨rfl, rfl, rfl⟩ | ⟨rest, rfl, rfl⟩
    · exact .inl hgives
    · refine .inr ⟨⟨before, call, rest, rfl, hgives, ?_⟩, hlater rest last [] rfl⟩
      rintro middle later rest rfl
      exact hlater middle later (rest ++ [last]) (by simp)
  · rintro (hgives | ⟨⟨before, call, after, rfl, hgives, hlater⟩, hlast⟩)
    · exact ⟨calls, last, [], rfl, hgives, by simp⟩
    · refine ⟨before, call, after ++ [last], by simp, hgives, fun middle later rest hafter => ?_⟩
      rcases concat_eq_append_cons_iff.mp hafter with ⟨rfl, rfl, rfl⟩ | ⟨rest, rfl, rfl⟩
      · exact hlast
      · exact hlater middle later rest rfl

/-- **A history has the action that it was given last.** -/
theorem get_run (h : blank observations horizon = .ok arena) (calls : List Call) :
    (arena.run calls).get history = .ok action ↔ arena.GivenLast calls history action := by
  induction calls using List.reverseRecOn with
  | nil =>
      obtain ⟨hshaped, -, hundecided⟩ := shaped_of_blank h
      refine iff_of_false (fun hget => ?_) not_givenLast_nil
      change arena.get history = .ok action at hget
      by_cases hbelongs : Belongs observations horizon history
      · obtain ⟨index, hindex⟩ := hshaped.exists_locate_iff_belongs.mpr hbelongs
        exact nomatch (hundecided index).symm.trans ((get_eq_ok_iff hindex).mp hget)
      · exact nomatch (hshaped.get_of_not_belongs hbelongs).symm.trans hget
  | append_singleton calls last ih =>
      rw [run_concat, (tracks_run h calls).shaped.get_perform, givenLast_concat, ih]

/-- A tree that is a map from the histories that belong to it, and what each of them was given. -/
structure Maps (observations : Collection .observation) (horizon : Nat) (tree : PolicyArena)
    (given : List Observation → Action → Prop) : Prop where
  size_eq : tree.size = ∑ level ∈ Finset.range horizon, observations.size ^ level
  /-- A history that belongs to the tree has a node. -/
  belongs_iff : ∀ history, Belongs observations horizon history ↔
    ∃ index < tree.size, tree.locate history = .ok index
  /-- No two histories share one. -/
  existsUnique_locate : ∀ index < tree.size, ∃! history, tree.locate history = .ok index
  set_belonging : ∀ history action, Belongs observations horizon history →
    (tree.set history action).1 = .ok ()
  /-- Nothing changes for a history that does not belong to the tree. -/
  set_other : ∀ history action, ¬Belongs observations horizon history →
    tree.set history action = (.error (.outsideTree history), tree)
  get_iff : ∀ history action, tree.get history = .ok action ↔ given history action
  get_unset : ∀ history, (∀ action, ¬given history action) →
    Belongs observations horizon history → tree.get history = .error (.unsetHistory history)
  get_outside : ∀ history, ¬Belongs observations horizon history →
    tree.get history = .error (.outsideTree history)

/-- **A policy tree is a map from histories to actions.**  There is a node for every history of
known observations that is shorter than the horizon, and no two of them share one.  An action can be
set after these histories and no others, and what is found there is the action that was set
last. -/
theorem run_maps (observations : Collection .observation) (hpos : 0 < horizon) :
    ∃ arena, blank observations horizon = .ok arena ∧
      ∀ calls, Maps observations horizon (arena.run calls) (arena.GivenLast calls) := by
  obtain ⟨arena, harena⟩ : ∃ arena, blank observations horizon = .ok arena := by
    obtain ⟨levels, rfl⟩ := Nat.exists_eq_succ_of_ne_zero hpos.ne'
    exact ⟨_, rfl⟩
  refine ⟨arena, harena, fun calls => ?_⟩
  have h := (tracks_run harena calls).shaped
  refine ⟨h.size_eq, fun history => ?_, fun index => h.existsUnique_locate,
    fun history action => h.set_eq_ok_iff.mpr,
    fun history action hnot => h.set_eq_error hnot action,
    fun history action => get_run harena calls, fun history hnone => ?_, fun history => ?_⟩
  · rw [← h.exists_locate_iff_belongs]
    exact exists_congr fun index => (and_iff_right_of_imp h.lt_size).symm
  · exact h.get_of_unset fun action => (get_run harena calls).not.mpr (hnone action)
  · exact h.get_of_not_belongs

/-- An action is set twice on a wet floor, and once where the tree has ended. -/
theorem run_maps_overwritten :
    let observations : Collection .observation := .ofNames .observation ["dry", "wet"]
    let wet : Observation := .named .observation "wet"
    let mop : Action := .named .action "mop"
    let sweep : Action := .named .action "sweep"
    let calls : List Call := [.set [wet] sweep, .set [wet] mop, .set [wet, wet] sweep]
    ∃ arena, blank observations 2 = .ok arena ∧
      (arena.run calls).size = 3 ∧
      arena.GivenLast calls [wet] mop ∧ ¬arena.GivenLast calls [wet] sweep ∧
      (arena.run calls).get [] = .error (.unsetHistory []) ∧
      (arena.run calls).set [wet, wet] mop
        = (.error (.outsideTree [wet, wet]), arena.run calls) := by
  intro observations wet mop sweep calls
  obtain ⟨arena, harena, hmaps⟩ := run_maps observations Nat.zero_lt_two
  have h := hmaps calls
  have hsize : observations.size = 2 := by decide +kernel
  have hget : (arena.run calls).get [wet] = .ok mop := by
    cases harena
    decide +kernel
  have hroot : (arena.run calls).get [] = .error (.unsetHistory []) := by
    cases harena
    decide +kernel
  have hlong : ¬Belongs observations 2 [wet, wet] := fun hbelongs =>
    absurd hbelongs.short (by decide)
  refine ⟨arena, harena, ?_, (h.get_iff _ _).mp hget, fun hsweep => ?_, hroot,
    h.set_other _ mop hlong⟩
  · rw [h.size_eq, hsize]
    rfl
  · have heq := hget.symm.trans ((h.get_iff _ _).mpr hsweep)
    exact absurd (Except.ok.inj heq) (by decide)

end MarkovPlanning.PolicyArena
