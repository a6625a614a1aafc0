/-
The vectors of a backup, choice by choice.

A backup goes through the vectors of the set once for every observation.  So it has one vector for
every way of choosing among them, and its place has the choices as its digits
(`ActionModel.backup_enumerates`).  This counts rounding and all: nothing is asked of the
arithmetic.

Without rounding the best choice is made for each observation by itself.  What follows an
observation is weighed by its masses, so the greatest value of a backup is what the action earns
at once, and for each observation the greatest value of the set at the masses
(`Pomdp.height_backup`).
-/
import MarkovPlanning.Proofs.Pomdp.Stages
import Mathlib

namespace MarkovPlanning

/-! ### One vector for every choice -/

namespace ActionModel

variable {α : Type} [Scalar α] {model : ActionModel α} {discount : α}
  {prior : List (DenseAlpha α)}

/-- The vector that goes on with a certain vector of a set after each observation. -/
def chosen (model : ActionModel α) (discount : α) (prior : List (DenseAlpha α))
    (choices : List (Fin prior.length)) : DenseAlpha α :=
  (model.observations.zip choices).foldl
    (fun sum (chances, choice) => sum + model.project discount chances prior[choice].values)
    model.immediate

/-- A list that holds a vector for every choice, the choice for the first observation varying
slowest. -/
structure Enumerates (model : ActionModel α) (discount : α) (prior gamma : List (DenseAlpha α)) :
    Prop where
  of_nil : prior = [] → gamma = [model.immediate]
  length_eq : prior ≠ [] → gamma.length = prior.length ^ model.observations.length
  action_eq : ∀ alpha ∈ gamma, alpha.action = model.action
  chosen_at : ∀ choices : List (Fin prior.length), choices.length = model.observations.length →
    gamma[Nat.ofDigits prior.length (choices.reverse.map (·.val))]?
      = some (model.chosen discount prior choices)

theorem length_backup (hprior : prior ≠ []) :
    (model.backup discount prior).length = prior.length ^ model.observations.length := by
  unfold backup
  rw [length_foldl_crossSum model.observations
    (fun _ _ => ⟨by simpa using hprior, List.length_map _⟩) _ (List.cons_ne_nil _ _),
    List.length_singleton, Nat.one_mul]

/-- Sums keep the action of the left vector, and there it is that of the immediate reward. -/
theorem action_backup : ∀ alpha ∈ model.backup discount prior, alpha.action = model.action := by
  refine List.foldlRecOn
    (motive := fun sums : List (DenseAlpha α) => ∀ alpha ∈ sums, alpha.action = model.action)
    model.observations _ (fun alpha halpha => ?_) fun sums hsums chances _ alpha halpha => ?_
  · rw [List.mem_singleton.mp halpha]
    rfl
  · by_cases hsums' : sums = []
    · rw [hsums'] at halpha
      obtain ⟨beta, -, rfl⟩ := List.mem_map.mp halpha
      rfl
    · by_cases hprior : prior = []
      · rw [hprior, List.map_nil, crossSum_nil_right] at halpha
        exact hsums alpha halpha
      · obtain ⟨u, hu, v, -, rfl⟩ := (mem_crossSum hsums' (by simpa using hprior)).mp halpha
        exact hsums u hu

/-- **A backup holds one vector for every way of choosing.** -/
theorem backup_enumerates (model : ActionModel α) (discount : α) (prior : List (DenseAlpha α)) :
    model.Enumerates discount prior (model.backup discount prior) where
  of_nil := by
    rintro rfl
    exact foldl_crossSum_nil _ _
  length_eq := length_backup
  action_eq := action_backup
  chosen_at _ hlength :=
    getElem?_foldl_crossSum
      (fun chances (alpha : DenseAlpha α) => model.project discount chances alpha.values) prior
      model.observations hlength model.immediate

end ActionModel

/-! ### The best choice for each observation -/

namespace Pomdp

variable {K : Type} [Field K] [LinearOrder K] {pomdp : Pomdp K} {action : Action}

omit [Field K] [LinearOrder K] in
/-- A list with an entry for each state is a function of the state. -/
theorem exists_tabulate [Zero K] {values : List K} (h : values.length = pomdp.states.size) :
    ∃ f, values = pomdp.tabulate f := by
  have hlength : values.length = pomdp.states.toList.length :=
    h.trans Std.ExtTreeSet.length_toList.symm
  refine ⟨fun state => values.getD (pomdp.states.toList.idxOf state) 0, ?_⟩
  unfold tabulate
  refine List.ext_getElem (by rw [List.length_map, hlength]) fun i hi _ => ?_
  rw [List.getElem_map, (Collection.nodup_toList _).idxOf_getElem, List.getD_eq_getElem _ _ hi]

omit [LinearOrder K] in
theorem tabulated_of_length {gamma : List (DenseAlpha K)}
    (h : ∀ alpha ∈ gamma, alpha.values.length = pomdp.states.size) : pomdp.Tabulated gamma :=
  fun alpha halpha => exists_tabulate (h alpha halpha)

/-- Values of vectors at weights add up. -/
theorem dot_add {u v : DenseAlpha K} {f g : State → K} (hu : u.values = pomdp.tabulate f)
    (hv : v.values = pomdp.tabulate g) (weights : State → K) :
    Scalar.dot (u + v).values (pomdp.tabulate weights)
      = Scalar.dot u.values (pomdp.tabulate weights)
        + Scalar.dot v.values (pomdp.tabulate weights) := by
  rw [values_add hu hv, hu, hv, dot_tabulate, dot_tabulate, dot_tabulate, expect_add]

/-- **A projection has the discounted value of its vector at the masses of the observation.** -/
theorem dot_projection {observation : Observation} {alpha : DenseAlpha K} {f : State → K}
    (h : alpha.values = pomdp.tabulate f) (weights : State → K) :
    Scalar.dot (pomdp.projection action observation alpha).values (pomdp.tabulate weights)
      = pomdp.horizon.discount
        * Scalar.dot alpha.values (pomdp.tabulate (pomdp.mass weights action observation)) := by
  rw [values_projection h, h, dot_tabulate, dot_tabulate, expect_mul_left, expect_mass]

variable [IsStrictOrderedRing K]

/-- Discounting leaves the best choice the best one. -/
theorem height_projections (hdiscount : pomdp.horizon.Clamped) {prior : List (DenseAlpha K)}
    (htabulated : pomdp.Tabulated prior) {observation : Observation} {weights : State → K} {top : K}
    (htop : Envelope.height? (·.values) prior
      (pomdp.tabulate (pomdp.mass weights action observation)) = some top) :
    Envelope.height? (·.values) (prior.map (pomdp.projection action observation))
      (pomdp.tabulate weights) = some (pomdp.horizon.discount * top) := by
  obtain ⟨⟨best, hbest, rfl⟩, hmax⟩ := Envelope.height?_eq_some.mp htop
  refine Envelope.height?_eq_some.mpr ⟨⟨_, List.mem_map_of_mem hbest, ?_⟩, fun alpha halpha => ?_⟩
  · obtain ⟨f, hf⟩ := htabulated best hbest
    exact dot_projection hf weights
  · obtain ⟨beta, hbeta, rfl⟩ := List.mem_map.mp halpha
    obtain ⟨f, hf⟩ := htabulated beta hbeta
    rw [dot_projection hf]
    exact mul_le_mul_of_nonneg_left (hmax beta hbeta) hdiscount.1

/-- **The best vector of a backup goes on with the best vector after each observation.** -/
theorem height_backup (hdiscount : pomdp.horizon.Clamped) {prior : List (DenseAlpha K)}
    (htabulated : pomdp.Tabulated prior) {weights : State → K} {top : Observation → K}
    (htop : ∀ observation, Envelope.height? (·.values) prior
      (pomdp.tabulate (pomdp.mass weights action observation)) = some (top observation)) :
    Envelope.height? (·.values) ((pomdp.denseAction action).backup pomdp.horizon.discount prior)
        (pomdp.tabulate weights)
      = some (pomdp.expect weights (fun state => pomdp.expectedReward state action)
        + pomdp.horizon.discount * ∑ observation ∈ pomdp.observations.members,
            top observation) := by
  have hadd : ∀ u v : DenseAlpha K, (∃ f, u.values = pomdp.tabulate f) →
      (∃ g, v.values = pomdp.tabulate g) → (∃ f, (u + v).values = pomdp.tabulate f) ∧
        Scalar.dot (u + v).values (pomdp.tabulate weights)
          = Scalar.dot u.values (pomdp.tabulate weights)
            + Scalar.dot v.values (pomdp.tabulate weights) := by
    rintro u v ⟨f, hf⟩ ⟨g, hg⟩
    exact ⟨⟨_, values_add hf hg⟩, dot_add hf hg weights⟩
  have hterms : ∀ observation ∈ pomdp.observations.toList,
      (∀ v ∈ prior.map (pomdp.projection action observation), ∃ f, v.values = pomdp.tabulate f) ∧
        Envelope.height? (·.values) (prior.map (pomdp.projection action observation))
          (pomdp.tabulate weights) = some (pomdp.horizon.discount * top observation) := by
    intro observation _
    refine ⟨fun v hv => ?_, height_projections hdiscount htabulated (htop observation)⟩
    obtain ⟨alpha, halpha, rfl⟩ := List.mem_map.mp hv
    obtain ⟨f, hf⟩ := htabulated alpha halpha
    exact ⟨_, values_projection hf⟩
  have himmediate : Envelope.height? (·.values) [(pomdp.denseAction action).immediate]
      (pomdp.tabulate weights)
        = some (pomdp.expect weights fun state => pomdp.expectedReward state action) :=
    congrArg some (dot_tabulate (fun state => pomdp.expectedReward state action) weights)
  have hall := max?_foldl_crossSum hadd pomdp.observations.toList hterms
    (fun u hu => ⟨_, congrArg DenseAlpha.values (List.mem_singleton.mp hu)⟩) himmediate
  rw [backup_eq, Finset.mul_sum, ← Collection.sum_toList]
  exact hall

/-- **What a backup holds.**  Whatever the arithmetic, there is one vector for every way of going
on with a vector of the set after each observation.  Without rounding, the greatest value is the
immediate reward and, discounted, the greatest value of the set at the masses of each
observation. -/
theorem backup_choices :
    (∀ {α : Type} [Scalar α] (model : ActionModel α) (discount : α)
      (prior : List (DenseAlpha α)),
      model.Enumerates discount prior (model.backup discount prior)) ∧
    ∀ {K : Type} [Field K] [LinearOrder K] [IsStrictOrderedRing K] (pomdp : Pomdp K)
      (action : Action) (prior : List (DenseAlpha K)), pomdp.horizon.Clamped → prior ≠ [] →
      (∀ alpha ∈ prior, alpha.values.length = pomdp.states.size) → ∀ weights : State → K,
        ∃ top : Observation → K,
          (∀ observation, Envelope.height? (·.values) prior
            (pomdp.tabulate (pomdp.mass weights action observation)) = some (top observation)) ∧
          Envelope.height? (·.values)
              ((pomdp.denseAction action).backup pomdp.horizon.discount prior)
              (pomdp.tabulate weights)
            = some (pomdp.expect weights (fun state => pomdp.expectedReward state action)
              + pomdp.horizon.discount * ∑ observation ∈ pomdp.observations.members,
                  top observation) := by
  refine ⟨ActionModel.backup_enumerates, ?_⟩
  intro K _ _ _ pomdp action prior hdiscount hprior hlength weights
  have hexists : ∀ observation, ∃ top, Envelope.height? (·.values) prior
      (pomdp.tabulate (pomdp.mass weights action observation)) = some top :=
    fun observation => Envelope.exists_height? hprior _
  choose top htop using hexists
  exact ⟨top, htop, height_backup hdiscount (tabulated_of_length hlength) htop⟩

/-- Vectors that bet on one of the cups. -/
def bets : List (DenseAlpha ℚ) :=
  [⟨.named .action "lift", [1, -2]⟩, ⟨.named .action "look", [0, 1/2]⟩]

/-- A look at the cups.  The third of four vectors bets on the right cup after the first observation
and on the left one after the second. -/
theorem backup_choices_cups :
    let look : Action := .named .action "look"
    let gamma := ((cups 2).denseAction look).backup (cups 2).horizon.discount bets
    gamma.length = 4 ∧ (∀ alpha ∈ gamma, alpha.action = look) ∧
    gamma[2]? = some (((cups 2).denseAction look).chosen (cups 2).horizon.discount bets
      [⟨1, by decide⟩, ⟨0, by decide⟩]) ∧
    ((cups 2).denseAction look).backup (cups 2).horizon.discount []
      = [((cups 2).denseAction look).immediate] ∧
    ∃ top : Observation → ℚ,
      (∀ observation, Envelope.height? (·.values) bets
        ((cups 2).tabulate ((cups 2).mass (fun _ => 1/2) look observation))
          = some (top observation)) ∧
      Envelope.height? (·.values) gamma ((cups 2).tabulate fun _ => 1/2)
        = some ((cups 2).expect (fun _ => 1/2) (fun state => (cups 2).expectedReward state look)
          + (cups 2).horizon.discount * ∑ observation ∈ (cups 2).observations.members,
              top observation) := by
  intro look gamma
  have hobservations : ((cups 2).denseAction look).observations.length = 2 := by decide +kernel
  have henumerates := backup_choices.1 ((cups 2).denseAction look) (cups 2).horizon.discount bets
  refine ⟨?_, henumerates.action_eq,
    henumerates.chosen_at [⟨1, by decide⟩, ⟨0, by decide⟩] hobservations.symm,
    (backup_choices.1 _ _ []).of_nil rfl, ?_⟩
  · rw [henumerates.length_eq (List.cons_ne_nil _ _), hobservations]
    rfl
  · exact backup_choices.2 (cups 2) look bets (cups_clamped 2).horizon (List.cons_ne_nil _ _)
      (by decide +kernel) fun _ => 1/2

end Pomdp

end MarkovPlanning
