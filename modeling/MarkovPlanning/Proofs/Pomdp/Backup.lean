/-
What the vectors of a backup are.

The backup of a set for an action adds to the immediate reward one projection per
observation, in every way of choosing the projected vectors.  So its vectors are
the ways of looking ahead: each says what the action is worth if, after each
observation, it is gone on with one of the vectors of the set (`mem_backup`).
Without anything to go on with the immediate reward is all (`backup_nil`).

A vector is a list of coefficients along the walk over the states.  All vectors
that come up in the iteration tabulate a function of the state in this way, and
the value of a vector at a belief is an expectation of that function.
-/
import MarkovPlanning.Proofs.Belief.CrossSum
import MarkovPlanning.Proofs.Pomdp.Plan
import MarkovPlanning.Pomdp.ValueIteration
import Mathlib

namespace MarkovPlanning

section
variable {α : Type} [Scalar α]

/-- The immediate reward is there whatever is gone on with, so a backup is never empty. -/
theorem ActionModel.backup_ne_nil (model : ActionModel α) (discount : α)
    (prior : List (DenseAlpha α)) : model.backup discount prior ≠ [] :=
  List.foldlRecOn (motive := fun sums => sums ≠ []) model.observations _ (List.cons_ne_nil _ _)
    fun _ hsums _ _ => crossSum_ne_nil hsums _

theorem DensePomdp.backups_ne_nil {model : DensePomdp α} (hactions : model.actions ≠ [])
    (prior : List (DenseAlpha α)) : (model.backups prior).flatten ≠ [] := by
  obtain ⟨action, haction⟩ := List.exists_mem_of_ne_nil _ hactions
  obtain ⟨alpha, halpha⟩ :=
    List.exists_mem_of_ne_nil _ (action.backup_ne_nil model.discount prior)
  exact List.ne_nil_of_mem (List.mem_flatten_of_mem (List.mem_map_of_mem haction) halpha)

end

variable {K : Type} [Field K] [LinearOrder K]

omit [Field K] [LinearOrder K] in
theorem DenseAlpha.ext {alpha beta : DenseAlpha K} (haction : alpha.action = beta.action)
    (hvalues : alpha.values = beta.values) : alpha = beta := by
  cases alpha
  cases beta
  cases haction
  cases hvalues
  rfl

namespace Pomdp

/-! ### Vectors as functions of the state -/

/-- The coefficients of a function of the state. -/
def tabulate (pomdp : Pomdp K) (f : State → K) : List K := pomdp.states.toList.map f

section
omit [Field K] [LinearOrder K]
variable {pomdp : Pomdp K} {f g : State → K}

theorem length_tabulate : (pomdp.tabulate f).length = pomdp.states.size := by
  rw [tabulate, List.length_map, Std.ExtTreeSet.length_toList]

theorem tabulate_eq_iff :
    pomdp.tabulate f = pomdp.tabulate g ↔ ∀ state ∈ pomdp.states, f state = g state := by
  unfold tabulate
  rw [List.map_inj_left]
  simp only [Std.ExtTreeSet.mem_toList]

theorem zipWith_tabulate (op : K → K → K) :
    List.zipWith op (pomdp.tabulate f) (pomdp.tabulate g)
      = pomdp.tabulate fun state => op (f state) (g state) := by
  unfold tabulate
  rw [List.zipWith_map, List.zipWith_self]

end

variable {pomdp : Pomdp K} {action : Action}

theorem dot_tabulate (f weights : State → K) :
    Scalar.dot (pomdp.tabulate f) (pomdp.tabulate weights) = pomdp.expect weights f := by
  unfold Scalar.dot
  rw [Scalar.sum_eq, zipWith_tabulate, tabulate, Collection.sum_toList]
  exact Finset.sum_congr rfl fun state _ => mul_comm _ _

/-! ### Backups -/

/-- What a vector is worth if it is gone on with after an observation. -/
def projection (pomdp : Pomdp K) (action : Action) (observation : Observation)
    (alpha : DenseAlpha K) : DenseAlpha K :=
  (pomdp.denseAction action).project pomdp.horizon.discount
    (pomdp.tabulate fun next => pomdp.observationChances.chance action next observation)
    alpha.values

theorem values_projection {observation : Observation} {alpha : DenseAlpha K} {f : State → K}
    (h : alpha.values = pomdp.tabulate f) :
    (pomdp.projection action observation alpha).values
      = pomdp.tabulate fun state => pomdp.horizon.discount *
          ∑ next ∈ pomdp.states.members, pomdp.transitions.chance state action next *
            (pomdp.observationChances.chance action next observation * f next) := by
  unfold projection ActionModel.project denseAction tabulate
  dsimp only
  rw [h, tabulate, List.map_map]
  refine List.map_congr_left fun state _ => ?_
  simp only [Function.comp_apply, List.zip_map', Scalar.foldl_add_eq, zero_add, mul_assoc,
    List.map_map]
  rw [← Collection.sum_toList]
  rfl

/-- The function of a sum. -/
theorem values_add {u v : DenseAlpha K} {f g : State → K} (hu : u.values = pomdp.tabulate f)
    (hv : v.values = pomdp.tabulate g) :
    (u + v).values = pomdp.tabulate fun state => f state + g state := by
  show List.zipWith (· + ·) u.values v.values = _
  rw [hu, hv, zipWith_tabulate]

/-- Adding vectors up adds up their functions, and keeps the first action. -/
theorem foldl_add_tabulate {ι : Type} {choice : ι → DenseAlpha K} {g : ι → State → K} :
    ∀ (l : List ι), (∀ i ∈ l, (choice i).values = pomdp.tabulate (g i)) →
      ∀ (u : DenseAlpha K) (f : State → K), u.values = pomdp.tabulate f →
        (l.foldl (fun sum i => sum + choice i) u).action = u.action ∧
        (l.foldl (fun sum i => sum + choice i) u).values
          = pomdp.tabulate fun state => f state + (l.map fun i => g i state).sum := by
  intro l
  induction l with
  | nil =>
      intro _ u f hu
      refine ⟨rfl, hu.trans ?_⟩
      simp only [List.map_nil, List.sum_nil, add_zero]
  | cons i rest ih =>
      intro h u f hu
      obtain ⟨haction, hvalues⟩ := ih (fun j hj => h j (List.mem_cons_of_mem _ hj)) _ _
        (values_add hu (h i List.mem_cons_self))
      refine ⟨haction, hvalues.trans ?_⟩
      simp only [List.map_cons, List.sum_cons, add_assoc]

/-- One projection for each observation, on top of the immediate reward. -/
theorem foldl_projection {choice beta : Observation → DenseAlpha K}
    {after : Observation → State → K}
    (hbeta : ∀ observation ∈ pomdp.observations.toList,
      (beta observation).values = pomdp.tabulate (after observation))
    (hchoice : ∀ observation ∈ pomdp.observations.toList,
      choice observation = pomdp.projection action observation (beta observation)) :
    let sum := pomdp.observations.toList.foldl (fun sum observation => sum + choice observation)
      (pomdp.denseAction action).immediate
    sum.action = action ∧ sum.values = pomdp.tabulate (pomdp.lookAhead action after) := by
  have hterms : ∀ observation ∈ pomdp.observations.toList, (choice observation).values
      = pomdp.tabulate fun state => pomdp.horizon.discount *
          ∑ next ∈ pomdp.states.members, pomdp.transitions.chance state action next *
            (pomdp.observationChances.chance action next observation * after observation next) := by
    intro observation hobservation
    rw [hchoice observation hobservation]
    exact values_projection (hbeta observation hobservation)
  obtain ⟨haction, hvalues⟩ := foldl_add_tabulate _ hterms
    (pomdp.denseAction action).immediate (fun state => pomdp.expectedReward state action) rfl
  refine ⟨haction, hvalues.trans (tabulate_eq_iff.mpr fun state _ => ?_)⟩
  rw [lookAhead, Collection.sum_toList, Finset.mul_sum]

theorem backup_eq (prior : List (DenseAlpha K)) :
    (pomdp.denseAction action).backup pomdp.horizon.discount prior
      = pomdp.observations.toList.foldl
          (fun sums observation =>
            crossSum sums (prior.map (pomdp.projection action observation)))
          [(pomdp.denseAction action).immediate] :=
  List.foldl_map

/-- Every vector of a set tabulates a function of the state. -/
def Tabulated (pomdp : Pomdp K) (gamma : List (DenseAlpha K)) : Prop :=
  ∀ alpha ∈ gamma, ∃ f, alpha.values = pomdp.tabulate f

/-- Functions that some vector of a set tabulates. -/
def Offers (pomdp : Pomdp K) (gamma : List (DenseAlpha K)) (f : State → K) : Prop :=
  ∃ alpha ∈ gamma, alpha.values = pomdp.tabulate f

/-- **The vectors of a backup look ahead to the vectors of the set**, in every way. -/
theorem mem_backup {prior : List (DenseAlpha K)} (hprior : prior ≠ [])
    (htabulated : pomdp.Tabulated prior) {alpha : DenseAlpha K} :
    alpha ∈ (pomdp.denseAction action).backup pomdp.horizon.discount prior ↔
      alpha.action = action ∧ ∃ after : Observation → State → K,
        (∀ observation ∈ pomdp.observations, pomdp.Offers prior (after observation)) ∧
          alpha.values = pomdp.tabulate (pomdp.lookAhead action after) := by
  have : Nonempty (DenseAlpha K) := ⟨(pomdp.denseAction action).immediate⟩
  have hne : ∀ observation ∈ pomdp.observations.toList,
      prior.map (pomdp.projection action observation) ≠ [] :=
    fun observation _ => by simpa using hprior
  rw [backup_eq, mem_foldl_crossSum _ (Collection.nodup_toList _) hne _ (List.cons_ne_nil _ _)]
  constructor
  · intro h
    obtain ⟨u, hu, choice, hchoice, rfl⟩ := h
    have hprojects : ∀ observation ∈ pomdp.observations.toList, ∃ f, pomdp.Offers prior f ∧
        ∃ beta : DenseAlpha K, beta.values = pomdp.tabulate f ∧
          choice observation = pomdp.projection action observation beta := by
      intro observation hobservation
      obtain ⟨beta, hbeta, heq⟩ := List.mem_map.mp (hchoice observation hobservation)
      obtain ⟨f, hf⟩ := htabulated beta hbeta
      exact ⟨f, ⟨beta, hbeta, hf⟩, beta, hf, heq.symm⟩
    choose! after hoffers beta hbeta hchoice using hprojects
    rw [List.mem_singleton.mp hu]
    obtain ⟨haction, hvalues⟩ := foldl_projection hbeta hchoice
    exact ⟨haction, after, fun observation hobservation =>
      hoffers observation (Std.ExtTreeSet.mem_toList.mpr hobservation), hvalues⟩
  · intro h
    obtain ⟨haction, after, hoffers, hvalues⟩ := h
    have hoffers : ∀ observation ∈ pomdp.observations.toList, ∃ beta ∈ prior,
        beta.values = pomdp.tabulate (after observation) :=
      fun observation hobservation =>
        hoffers observation (Std.ExtTreeSet.mem_toList.mp hobservation)
    choose! beta hmem hbeta using hoffers
    refine ⟨_, List.mem_singleton_self _,
      fun observation => pomdp.projection action observation (beta observation),
      fun observation hobservation => List.mem_map_of_mem (hmem observation hobservation), ?_⟩
    obtain ⟨haction', hvalues'⟩ := foldl_projection hbeta fun _ _ => rfl
    exact DenseAlpha.ext (haction.trans haction'.symm) (hvalues.trans hvalues'.symm)

theorem backup_nil :
    (pomdp.denseAction action).backup pomdp.horizon.discount []
      = [⟨action, pomdp.tabulate fun state => pomdp.expectedReward state action⟩] :=
  foldl_crossSum_nil _ _

end Pomdp

end MarkovPlanning
