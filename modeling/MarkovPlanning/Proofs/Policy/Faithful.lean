/-
Saved policies are not taken for others.

A file with names that could be mistaken for something else is loaded as another policy, whatever
the names are taken for (`saved_misread`).  As long as no name can be (`Unmistakable`), loading it
fails or gives the policy that was saved (`loaded_eq_saved`).
-/
import MarkovPlanning.Proofs.Policy.Map.Raw
import MarkovPlanning.Proofs.Policy.Tree.Raw
import MarkovPlanning.Proofs.Policy.Vectors.Raw
import Mathlib

namespace MarkovPlanning

/-- **What is loaded is what was saved.**  If nothing in a policy can be mistaken for anything else,
and its file can be loaded at all, what is loaded is the policy at its first epoch.  A tree that is
loaded over other observations than it was made for gives the same actions for the same
histories. -/
theorem loaded_eq_saved (states : Collection .state) (actions : Collection .action)
    (observations : Collection .observation) :
    (∀ policy : PolicyMap,
      (∀ mapping ∈ policy.epochs.toList, ∀ entry ∈ mapping.toList,
        PolicyMap.Unmistakable states actions policy.span entry.1 entry.2) →
      ∀ loaded, PolicyMap.read (.ofBytes policy.write.toUTF8.data.toList) states actions
          policy.span = .ok loaded →
        loaded = policy.reset) ∧
    (∀ policy : VectorPolicy Float,
      (∀ gamma ∈ policy.gammas.toList, ∀ alpha ∈ gamma,
        VectorPolicy.Unmistakable states actions alpha) →
      ∀ loaded, VectorPolicy.read (.ofBytes policy.write.toUTF8.data.toList) states actions
          policy.span = .ok loaded →
        loaded = policy.reset) ∧
    ∀ (members : Collection .observation) (horizon : Nat) (tree : PolicyTree),
      PolicyTree.Built members horizon tree →
      (∀ history action, tree.get history = .ok action →
        PolicyTree.Unmistakable observations actions horizon (history, action)) →
      ∀ loaded, PolicyTree.read (.ofBytes tree.write.toUTF8.data.toList) actions observations
          horizon = .ok loaded →
        (∀ history action, loaded.get history = .ok action ↔ tree.get history = .ok action) ∧
        (members = observations → loaded = tree.reset) := by
  refine ⟨fun policy h loaded hread => PolicyMap.eq_reset_of_read h hread,
    fun policy h loaded hread => ?_, fun members horizon tree hbuilt h loaded hread => ⟨?_, ?_⟩⟩
  · exact VectorPolicy.eq_reset_of_read h
      (fun _ _ _ _ entry _ => VectorPolicy.legible entry.2) hread
  · exact PolicyTree.get_eq_ok_of_read hbuilt (h _ _) hread
  · rintro rfl
    exact PolicyTree.eq_reset_of_read hbuilt (h _ _) hread

/-- Policies with blanks, carriage returns and unset decisions cannot be mistaken. -/
theorem loaded_eq_saved_floors :
    let states := Collection.ofNames .state ["wet floor", "dry\rfloor", "no floor", "any floor"]
    let actions := PolicyTree.chores
    (∀ mapping ∈ PolicyMap.cleaning.epochs.toList, ∀ entry ∈ mapping.toList,
        PolicyMap.Unmistakable states actions PolicyMap.cleaning.span entry.1 entry.2) ∧
      PolicyMap.read (.ofBytes PolicyMap.cleaning.write.toUTF8.data.toList) states actions
        PolicyMap.cleaning.span = .ok PolicyMap.cleaning.reset ∧
      (∀ gamma ∈ VectorPolicy.mopping.gammas.toList, ∀ alpha ∈ gamma,
        VectorPolicy.Unmistakable states actions alpha) ∧
      VectorPolicy.read (.ofBytes VectorPolicy.mopping.write.toUTF8.data.toList) states actions
        VectorPolicy.mopping.span = .ok VectorPolicy.mopping.reset ∧
      PolicyTree.Built PolicyTree.looks 2 PolicyTree.mopping ∧
      (∀ history action, PolicyTree.mopping.get history = .ok action →
        PolicyTree.Unmistakable PolicyTree.looks actions 2 (history, action)) ∧
      PolicyTree.read (.ofBytes PolicyTree.mopping.write.toUTF8.data.toList) actions
        PolicyTree.looks 2 = .ok PolicyTree.mopping.reset := by
  intro states actions
  -- what is loaded is what was saved, and the files can be loaded
  have hsome : ∀ {β : Type} {result : Except Error β} {saved : β}, result.isOk = true →
      (∀ loaded, result = .ok loaded → loaded = saved) → result = .ok saved := by
    intro β result saved hok h
    cases result with
    | error error => cases hok
    | ok loaded => rw [h loaded rfl]
  have hentries : ∀ mapping ∈ PolicyMap.cleaning.epochs.toList, ∀ entry ∈ mapping.toList,
      PolicyMap.Writable states actions entry.1 entry.2 := by decide +kernel
  have hvectors : ∀ gamma ∈ VectorPolicy.mopping.gammas.toList, ∀ alpha ∈ gamma,
      VectorPolicy.Writable states actions alpha := by decide +kernel
  have hentries' : ∀ mapping ∈ PolicyMap.cleaning.epochs.toList, ∀ entry ∈ mapping.toList,
      PolicyMap.Unmistakable states actions PolicyMap.cleaning.span entry.1 entry.2 :=
    fun mapping hmapping entry hentry => (hentries mapping hmapping entry hentry).unmistakable _
  have hvectors' : ∀ gamma ∈ VectorPolicy.mopping.gammas.toList, ∀ alpha ∈ gamma,
      VectorPolicy.Unmistakable states actions alpha :=
    fun gamma hgamma alpha halpha => (hvectors gamma hgamma alpha halpha).unmistakable
  have hdecisions : ∀ history action, PolicyTree.mopping.get history = .ok action →
      PolicyTree.Unmistakable PolicyTree.looks actions 2 (history, action) :=
    fun _ _ => PolicyTree.writable_mopping.unmistakable PolicyTree.built_mopping.shaped
  obtain ⟨hmap, hvector, htree⟩ := loaded_eq_saved states actions PolicyTree.looks
  refine ⟨hentries', hsome ?_ (hmap _ hentries'), hvectors', hsome ?_ (hvector _ hvectors'),
    PolicyTree.built_mopping, hdecisions, hsome ?_ fun loaded hread =>
      (htree _ _ _ PolicyTree.built_mopping hdecisions loaded hread).2 rfl⟩
  · rw [Source.ofBytes, Text.byteLines_toUTF8]
    decide +kernel
  · rw [VectorPolicy.read_write_eq (by decide) fun gamma hgamma alpha halpha =>
      ⟨hvectors gamma hgamma alpha halpha, fun entry _ => VectorPolicy.legible entry.2⟩]
    rfl
  · rw [Source.ofBytes, Text.byteLines_toUTF8]
    decide +kernel

/-- It can be found out by loading a file what it is loaded as. -/
instance {β : Type} {result : Except Error β} {P : β → Prop} [DecidablePred P] :
    Decidable (∃ loaded, result = .ok loaded ∧ P loaded) :=
  match result with
  | .ok loaded => decidable_of_iff (P loaded)
      ⟨fun h => ⟨loaded, rfl, h⟩, fun ⟨_, h, h'⟩ => Except.ok.inj h ▸ h'⟩
  | .error _ => isFalse fun ⟨_, h, _⟩ => nomatch h

/-- A stationary policy for one state. -/
def PolicyMap.single (state : State) (action : Action) : PolicyMap where
  span := { epochs := 0 }
  epochs := #v[.ofList [(state, action)]]

/-- A stationary policy of one vector. -/
def VectorPolicy.single (alpha : AlphaVector Float) : VectorPolicy Float where
  span := { epochs := 0 }
  gammas := #v[[alpha]]

/-- **Names can be taken for something else.**  The policies have one decision each, which is not
the one that is loaded: there is another state of that name, the rest of the name is a comment,
the line ends in it, there are blanks around it, it names an epoch or the horizon, there are
colons in it, or it is blank. -/
theorem saved_misread :
    let state (name : String) : State := .named .state name
    let action (name : String) : Action := .named .action name
    let hall : State := .joint [state "hall", state "wet floor"]
    let hall' : State := .joint [state "hall wet", state "floor"]
    let states := Collection.ofList [hall, hall', state "wet", state "wet ", state "horizon"]
    let actions := Collection.ofNames .action
      ["mop", "mop # or not", "mop\n", "1", "2", "wet : mop", "mop : wet : 1", " "]
    let observations := Collection.ofNames .observation ["wet", "horizon"]
    let belief : Belief Float := {}
    (∀ entry ∈ [(hall, action "mop"), (state "wet", action "mop # or not"),
        (state "wet", action "mop\n"), (state "wet ", action "mop"), (state "horizon", action "1")],
      entry.1 ∈ states ∧ entry.2 ∈ actions ∧
      ∃ loaded, PolicyMap.read
          (.ofBytes (PolicyMap.single entry.1 entry.2).write.toUTF8.data.toList) states actions
          { epochs := 0 } = .ok loaded ∧
        loaded.get 0 entry.1 ≠ (PolicyMap.single entry.1 entry.2).get 0 entry.1) ∧
    (∀ alpha ∈ [{ action := action "mop : wet : 1" }, { action := action " " }],
      alpha.action ∈ actions ∧
      ∃ loaded, VectorPolicy.read
          (.ofBytes (VectorPolicy.single alpha).write.toUTF8.data.toList) states actions
          { epochs := 0 } = .ok loaded ∧
        loaded.get 0 belief ≠ (VectorPolicy.single alpha).get 0 belief) ∧
    ∀ decision ∈ [([], action "wet : mop"), ([], action " "),
        ([.named .observation "horizon"], action "2")],
      (∀ observation ∈ decision.1, observation ∈ observations) ∧ decision.2 ∈ actions ∧
      ∃ loaded, PolicyTree.read
          (.ofBytes
            (PolicyTree.single observations 1 decision.1 decision.2).write.toUTF8.data.toList)
          actions observations 2 = .ok loaded ∧
        loaded.get decision.1
          ≠ (PolicyTree.single observations 1 decision.1 decision.2).get decision.1 := by
  intro state action hall hall' states actions observations belief
  simp only [Source.ofBytes, Text.byteLines_toUTF8]
  refine ⟨?_, ?_, ?_⟩ <;> decide +kernel

end MarkovPlanning
