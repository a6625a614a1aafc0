/-
What the setters keep.

Probabilities and discount factors are brought into the unit interval when they are
written, and nothing else writes them.  So every table, belief and horizon that can
be built holds numbers between zero and one only.  A process made of such parts is
called `Clamped` here.  Rows need not add up to one.

Rewards are written as they are, but the least and the greatest one are kept, so no
reward that is looked up is farther from zero than both of them (`abs_get_le`).
-/
import MarkovPlanning.Proofs.Exact
import MarkovPlanning.Mdp.Basic
import MarkovPlanning.Pomdp.Basic
import MarkovPlanning.Belief.Basic
import Mathlib

namespace MarkovPlanning

variable {K : Type} [Field K] [LinearOrder K] {kinds : List Kind}

/-! ### Tables -/

/-- What is written in a table of probabilities lies in the unit interval. -/
def ProbabilityTable.Clamped (table : ProbabilityTable kinds K) : Prop :=
  ∀ pattern p, table.table.stored? pattern = some p → 0 ≤ p ∧ p ≤ 1

namespace ProbabilityTable

theorem clamped_empty : ({} : ProbabilityTable kinds K).Clamped := by
  intro pattern p h
  rw [Table.stored?, show ({} : Table kinds K).entries = ∅ from rfl,
    Std.ExtTreeMap.getElem?_empty] at h
  cases h

namespace Clamped

variable {table : ProbabilityTable kinds K}

theorem insert [IsStrictOrderedRing K] (h : table.Clamped) (pattern : Pattern kinds)
    (probability : K) : (table.insert pattern probability).Clamped := by
  intro other p hp
  unfold ProbabilityTable.insert Table.insert Table.stored? at hp
  rw [Std.ExtTreeMap.getElem?_insert] at hp
  split at hp
  · cases hp
    exact ⟨Scalar.clamp01_nonneg _, Scalar.clamp01_le_one _⟩
  · exact h other p hp

/-- What is looked up lies in the unit interval, too. -/
theorem get_mem [IsStrictOrderedRing K] (h : table.Clamped) (key : Pattern kinds) :
    0 ≤ table.get key ∧ table.get key ≤ 1 := by
  unfold ProbabilityTable.get
  cases hresolve : table.table.resolve? key with
  | none => exact ⟨le_refl _, zero_le_one⟩
  | some p =>
      obtain ⟨mask, -, hstored⟩ := List.exists_of_findSome?_eq_some hresolve
      exact h _ p hstored

end Clamped

end ProbabilityTable

/-! ### Rewards -/

/-- How far from zero a reward can be. -/
def Bounds.magnitude (bounds : Bounds K) : K :=
  max |bounds.least.getD 0| |bounds.greatest.getD 0|

theorem Bounds.magnitude_nonneg [IsStrictOrderedRing K] (bounds : Bounds K) :
    0 ≤ bounds.magnitude :=
  (abs_nonneg _).trans (le_max_left _ _)

/-- What is written in a table of rewards lies between the least and the greatest reward. -/
def RewardTable.Bounded (rewards : RewardTable kinds K) : Prop :=
  ∀ pattern reward, rewards.table.stored? pattern = some reward →
    (∃ least ∈ rewards.bounds.least, least ≤ reward) ∧
      ∃ greatest ∈ rewards.bounds.greatest, reward ≤ greatest

theorem Bounds.join_eq (bounds : Bounds K) (value : K) : bounds.join value =
    { least := some (bounds.least.elim value (min · value))
      greatest := some (bounds.greatest.elim value (max · value)) } := by
  unfold join pick
  simp only [Scalar.lesser_eq, Scalar.greater_eq, le_refl, if_true]
  cases bounds.least <;> cases bounds.greatest <;> rfl

namespace RewardTable

omit [Field K] in
theorem bounded_empty : ({} : RewardTable kinds K).Bounded := by
  intro pattern reward h
  rw [Table.stored?, show ({} : RewardTable kinds K).table.entries = ∅ from rfl,
    Std.ExtTreeMap.getElem?_empty] at h
  cases h

namespace Bounded

variable {rewards : RewardTable kinds K}

theorem insert (h : rewards.Bounded) (pattern : Pattern kinds) (reward : K) :
    (rewards.insert pattern reward).Bounded := by
  intro other value hvalue
  unfold RewardTable.insert Table.insert Table.stored? at hvalue
  rw [Std.ExtTreeMap.getElem?_insert] at hvalue
  show (∃ least ∈ (rewards.bounds.join reward).least, least ≤ value) ∧
    ∃ greatest ∈ (rewards.bounds.join reward).greatest, value ≤ greatest
  rw [Bounds.join_eq]
  split at hvalue
  · obtain rfl := Option.some.inj hvalue
    refine ⟨⟨_, rfl, ?_⟩, _, rfl, ?_⟩
    · cases rewards.bounds.least with
      | none => exact le_refl _
      | some least => exact min_le_right _ _
    · cases rewards.bounds.greatest with
      | none => exact le_refl _
      | some greatest => exact le_max_right _ _
  · obtain ⟨⟨least, hleast, hle⟩, greatest, hgreatest, hge⟩ := h other value hvalue
    rw [Option.mem_def] at hleast hgreatest
    rw [hleast, hgreatest]
    exact ⟨⟨_, rfl, (min_le_left _ _).trans hle⟩, _, rfl, hge.trans (le_max_left _ _)⟩

/-- What is looked up is no farther from zero, since what is not written is zero. -/
theorem abs_get_le [IsStrictOrderedRing K] (h : rewards.Bounded) (key : Pattern kinds) :
    |rewards.get key| ≤ rewards.bounds.magnitude := by
  unfold RewardTable.get
  cases hresolve : rewards.table.resolve? key with
  | none =>
      rw [Option.getD_none, abs_zero]
      exact Bounds.magnitude_nonneg _
  | some reward =>
      obtain ⟨mask, -, hstored⟩ := List.exists_of_findSome?_eq_some hresolve
      obtain ⟨⟨least, hleast, hle⟩, greatest, hgreatest, hge⟩ := h _ reward hstored
      rw [Option.mem_def] at hleast hgreatest
      rw [Option.getD_some, Bounds.magnitude, hleast, hgreatest]
      exact abs_le_max_abs_abs hle hge

end Bounded

end RewardTable

/-! ### Beliefs -/

/-- The probabilities of a belief lie in the unit interval. -/
def Belief.Clamped (belief : Belief K) : Prop :=
  ∀ state, 0 ≤ belief.get state ∧ belief.get state ≤ 1

namespace Belief

theorem clamped_empty [IsStrictOrderedRing K] : ({} : Belief K).Clamped := by
  intro state
  rw [get, show ({} : Belief K).masses = ∅ from rfl, Std.ExtTreeMap.getD_empty]
  exact ⟨le_refl _, zero_le_one⟩

variable [IsStrictOrderedRing K]

theorem Clamped.set {belief : Belief K} (h : belief.Clamped) (state : State) (probability : K) :
    (belief.set state probability).Clamped := by
  intro other
  unfold Belief.set get
  rw [Std.ExtTreeMap.getD_insert]
  split
  · exact ⟨Scalar.clamp01_nonneg _, Scalar.clamp01_le_one _⟩
  · exact h other

theorem clamped_ofList (masses : List (State × K)) : (ofList masses).Clamped := by
  suffices h : ∀ (masses : List (State × K)) (belief : Belief K), belief.Clamped →
      (masses.foldl (fun belief mass => belief.set mass.1 mass.2) belief).Clamped from
    h masses {} clamped_empty
  intro masses
  induction masses with
  | nil => intro belief h; exact h
  | cons mass rest ih => intro belief h; exact ih _ (h.set mass.1 mass.2)

end Belief

/-! ### Horizons and processes -/

/-- The discount factor lies in the unit interval. -/
def Horizon.Clamped (horizon : Horizon K) : Prop := 0 ≤ horizon.discount ∧ horizon.discount ≤ 1

namespace Horizon

variable [IsStrictOrderedRing K]

theorem clamped_finite (epochs : Nat) : (finite epochs : Horizon K).Clamped :=
  ⟨zero_le_one, le_refl _⟩

theorem clamped_withDiscount (horizon : Horizon K) (discount : K) :
    (horizon.withDiscount discount).Clamped :=
  ⟨Scalar.clamp01_nonneg _, Scalar.clamp01_le_one _⟩

theorem clamped_infinite (discount : K) : (infinite discount : Horizon K).Clamped :=
  clamped_withDiscount _ _

end Horizon

/-- All chances of a process and its discount factor lie in the unit interval. -/
structure Mdp.Clamped (mdp : Mdp K) : Prop where
  transitions : mdp.transitions.Clamped
  horizon : mdp.horizon.Clamped

/-- All chances of a process and its discount factor lie in the unit interval. -/
structure Pomdp.Clamped (pomdp : Pomdp K) : Prop where
  transitions : pomdp.transitions.Clamped
  observationChances : pomdp.observationChances.Clamped
  horizon : pomdp.horizon.Clamped

end MarkovPlanning
