/-
Vectors over numbers and over the states behind them.

A process is calculated with as lists over its states, and what comes out is handed over as maps
from the states.  The states are met in the order of their collection, which is that of the keys of
a map.  So the map that is written from a list of coefficients is walked the way it was written
(`AlphaVector.toList_ofList`), and what is added up along the walk are the same products in the
same order, with their factors exchanged.  In double precision this makes no difference
(`DensePomdp.dot_sparse`).

Looking up the states in the map gives back the list (`DensePomdp.map_get_sparse`), so both ways of
pruning see the same vectors and leave those at the same positions.
-/
import MarkovPlanning.Proofs.Double
import MarkovPlanning.Proofs.Entity.Changes
import MarkovPlanning.Proofs.Policy.Vectors
import MarkovPlanning.Proofs.Pomdp.Envelope.Positions
import Mathlib

namespace MarkovPlanning

open Entity

/-! ### Maps written in order -/

/-- A map that was written in the order of its keys is walked the way it was written. -/
theorem EntityMap.toList_foldl_insert {kind : Kind} {β : Type} {entries : List (Entity kind × β)}
    (h : (entries.map Prod.fst).Pairwise Precedes) :
    (entries.foldl (fun values entry => values.insert entry.1 entry.2)
      (∅ : EntityMap kind β)).toList = entries := by
  have hentries : entries.Pairwise fun a b => Precedes a.1 b.1 := List.pairwise_map.mp h
  have : Std.Irrefl fun a b : Entity kind × β => Precedes a.1 b.1 :=
    ⟨fun entry => not_precedes_self entry.1⟩
  have : Std.Antisymm fun a b : Entity kind × β => Precedes a.1 b.1 :=
    ⟨fun _ _ hlt hgt => absurd hgt hlt.asymm⟩
  have hwalk : (entries.foldl (fun values entry => values.insert entry.1 entry.2)
      (∅ : EntityMap kind β)).toList.Pairwise fun a b => Precedes a.1 b.1 :=
    Std.ExtTreeMap.ordered_keys_toList
  refine hwalk.eq_of_mem_iff hentries fun entry => ?_
  rw [Std.ExtTreeMap.mem_toList_iff_getElem?_eq_some, getElem?_foldl_insert]
  refine hentries.imp fun hlt heq => ?_
  exact Ordering.noConfusion (heq.symm.trans hlt)

theorem AlphaVector.toList_ofList {α : Type} {values : List (State × α)} (action : Action)
    (h : (values.map Prod.fst).Pairwise Precedes) : (ofList action values).toList = values := by
  rw [ofList, foldl_set_values]
  exact EntityMap.toList_foldl_insert h

namespace DensePomdp

section
variable {α : Type} [Scalar α] {pomdp : Pomdp α} {model : DensePomdp α}

theorem states_of_dense (h : pomdp.dense = .ok model) :
    pomdp.states ≠ ∅ ∧ model.states = pomdp.states.toList := by
  unfold Pomdp.dense at h
  split at h
  · cases h
  · next hpopulated =>
      rw [← Except.ok.inj h]
      simp only [Bool.or_eq_true, not_or, Std.ExtTreeSet.isEmpty_iff] at hpopulated
      exact ⟨hpopulated.1.1, rfl⟩

variable (hordered : model.states.Pairwise Precedes) (alpha : DenseAlpha α)
include hordered

omit [Scalar α] in
/-- The states that have a coefficient are met in the order of the states. -/
theorem toList_sparse : (model.sparse alpha).toList = model.states.zip alpha.values := by
  refine AlphaVector.toList_ofList _ (hordered.sublist ?_)
  rw [List.zip_eq_zip_take_min, List.map_fst_zip (by simp)]
  exact List.take_sublist _ _

/-- Looking up the states gives the coefficients. -/
theorem map_get_sparse (hlength : alpha.values.length = model.states.length) :
    model.states.map (model.sparse alpha).get = alpha.values := by
  have hentries : (model.states.zip alpha.values).map ((model.sparse alpha).get ∘ Prod.fst)
      = (model.states.zip alpha.values).map Prod.snd := by
    refine List.map_congr_left fun entry hentry => ?_
    rw [← toList_sparse hordered alpha] at hentry
    exact EntityMap.getD_of_mem_toList hentry 0
  rwa [← List.map_map, List.map_fst_zip hlength.ge, List.map_snd_zip hlength.le] at hentries

end

variable {pomdp : Pomdp Float} {model : DensePomdp Float}

/-- **A vector and its map have one value at every belief**, down to the last bit. -/
theorem dot_sparse (hordered : model.states.Pairwise Precedes) (alpha : DenseAlpha Float)
    (belief : Belief Float) :
    (model.sparse alpha).dot belief = alpha.dot (model.states.map belief.get) := by
  rw [AlphaVector.dot, toList_sparse hordered, List.map_zip_eq_zipWith, DenseAlpha.dot, Scalar.dot,
    List.zipWith_map_right, List.zipWith_comm]
  congr
  funext value state
  exact Scalar.mul_comm _ _

/-- **A vector and its map are one and the same**: they have the same coefficients, the same value
at every belief, and of a list of them the same is left after pruning.  The order is that in which
a collection is laid out, whatever changes led there. -/
theorem sparse_agrees (h : pomdp.dense = .ok model) :
    (∀ changes : List (Change .state), (Buckets.run changes).collection = pomdp.states →
      model.states = (Buckets.run changes).toList) ∧
    (∀ alpha : DenseAlpha Float, (model.sparse alpha).action = alpha.action ∧
      (model.sparse alpha).toList = model.states.zip alpha.values ∧
      ∀ belief, (model.sparse alpha).dot belief = alpha.dot (model.states.map belief.get)) ∧
    ∀ gamma : List (DenseAlpha Float),
      (∀ alpha ∈ gamma, alpha.values.length = model.states.length) →
      ∃ kept, Envelope.pruneDense .standard gamma model.states.length = .ok kept ∧
        Envelope.pruneSparse pomdp.states (gamma.map model.sparse)
          = .ok (kept.map model.sparse) := by
  obtain ⟨hne, hstates⟩ := states_of_dense h
  have hordered : model.states.Pairwise Precedes := hstates ▸ pomdp.states.ordered_toList
  refine ⟨fun changes hchanges => ?_, fun alpha => ⟨?_, ?_, fun belief => ?_⟩,
    fun gamma hgamma => ?_⟩
  · rw [hstates, ← hchanges, (Buckets.holds_run changes).toList_collection]
  · exact AlphaVector.action_ofList alpha.action _
  · exact toList_sparse hordered alpha
  · exact dot_sparse hordered alpha belief
  · have hpositive : 0 < model.states.length := by
      obtain ⟨state, hstate⟩ := Collection.exists_mem hne
      exact List.length_pos_of_mem (hstates ▸ Std.ExtTreeSet.mem_toList.mpr hstate)
    have hvectors : ∀ alpha ∈ gamma,
        ((fun alpha : AlphaVector Float => pomdp.states.toList.map alpha.get) ∘ model.sparse) alpha
          = alpha.values := by
      intro alpha halpha
      rw [Function.comp_apply, ← hstates, map_get_sparse hordered alpha (hgamma alpha halpha)]
    refine ⟨_, Envelope.pruneDense_eq _ gamma hpositive, ?_⟩
    rw [Envelope.pruneSparse_eq, Envelope.prune_eq hne, Envelope.survivors_map,
      Envelope.survivors_congr hvectors]

/-- Two states whose names share a hash, the second one added first. -/
def collided : List (Change .state) :=
  [.add (.named .state "BB"), .add (.named .state "Aa")]

/-- A process with these states, of which nothing is seen. -/
def blind : Pomdp Float where
  states := (Buckets.run collided).collection
  actions := .ofNames .action ["stay"]
  observations := .ofNames .observation ["dark"]
  transitions := TransitionTable.set {} none none none 0.5
  observationChances := ObservationTable.set {} none none none 1
  rewards := {}
  horizon := .finite 3

/-- A vector without a coefficient for one of the states, and a list in which one comes twice. -/
theorem sparse_agrees_blind :
    let stay : Action := .named .action "stay"
    let gamma : List (DenseAlpha Float) := [⟨stay, [1, 0]⟩, ⟨stay, [0, 1]⟩, ⟨stay, [1, 0]⟩]
    ∃ model, blind.dense = .ok model ∧
      model.states = [.named .state "Aa", .named .state "BB"] ∧
      (model.sparse ⟨stay, [1 / 0]⟩).toList = [(.named .state "Aa", 1 / 0)] ∧
      (∀ alpha ∈ gamma, alpha.values.length = model.states.length) ∧
      ∃ kept, Envelope.pruneDense .standard gamma model.states.length = .ok kept ∧
        Envelope.pruneSparse blind.states (gamma.map model.sparse)
          = .ok (kept.map model.sparse) := by
  intro stay gamma
  have hpopulated : ¬(blind.states.isEmpty || blind.actions.isEmpty ||
      blind.observations.isEmpty) = true := by decide +kernel
  obtain ⟨model, hdense⟩ : ∃ model, blind.dense = .ok model := ⟨_, if_neg hpopulated⟩
  obtain ⟨hlayout, hvectors, hpruned⟩ := sparse_agrees hdense
  have hstates : model.states = [.named .state "Aa", .named .state "BB"] := by
    rw [hlayout collided rfl]
    decide +kernel
  have hlengths : ∀ alpha ∈ gamma, alpha.values.length = model.states.length := by
    rw [hstates]
    decide
  refine ⟨model, hdense, hstates, ?_, hlengths, hpruned gamma hlengths⟩
  rw [(hvectors _).2.1, hstates]
  rfl

end DensePomdp

end MarkovPlanning
