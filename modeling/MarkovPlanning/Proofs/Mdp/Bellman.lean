/-
Values that hold themselves up.

The values of a choice are steady: deciding by the choice once and going on with the values
is worth just the values.  Values are optimal when every decision is worth at most the
value of its state, and some decision exactly that (`Mdp.Bellman`).

Steady values are what following the choice for ever earns (`Steady.tendsto_earned`), and
values with Bellman's property are what the best strategy earns (`Bellman.optimal`).  In both
cases the distance to what the first decisions earn shrinks by the discount with each
decision more.

Both exist in the field itself.  The steady values of a choice solve as many linear
equations as there are states, and the equations have a solution because by `le_of_step`
there is at most one (`exists_steady`).  There are finitely many choices, and one whose values
add up to the most has Bellman's property: a decision worth more than the value of its state
could be taken up, and would make no value less and one more (`exists_bellman`).
-/
import MarkovPlanning.Proofs.Mdp.Strategy
import Mathlib

namespace MarkovPlanning

open Filter Topology

variable {K : Type} [Field K] [LinearOrder K]

namespace Mdp

variable {mdp : Mdp K} {choice choice' : State → Action} {values values' : State → K}

/-- A choice of actions of the process, and values that deciding by it once leaves as they
are. -/
structure Steady (mdp : Mdp K) (choice : State → Action) (values : State → K) : Prop where
  allowed : ∀ state ∈ mdp.states, choice state ∈ mdp.actions
  values_eq : ∀ state ∈ mdp.states, values state = mdp.worth values state (choice state)

/-- Values that the best decision leaves as they are. -/
structure Bellman (mdp : Mdp K) (values : State → K) : Prop where
  best : ∀ state ∈ mdp.states, ∀ action ∈ mdp.actions,
    mdp.worth values state action ≤ values state
  attained : ∃ choice, mdp.Steady choice values

/-- Only the decisions at the states of the process matter. -/
theorem Steady.congr (h : mdp.Steady choice values)
    (heq : ∀ state ∈ mdp.states, choice state = choice' state) : mdp.Steady choice' values :=
  ⟨fun state hstate => heq state hstate ▸ h.allowed state hstate,
    fun state hstate => heq state hstate ▸ h.values_eq state hstate⟩

theorem Bellman.exists_action (h : mdp.Bellman values) {state : State}
    (hstate : state ∈ mdp.states) :
    ∃ action ∈ mdp.actions, values state = mdp.worth values state action := by
  obtain ⟨choice, hsteady⟩ := h.attained
  exact ⟨choice state, hsteady.allowed state hstate, hsteady.values_eq state hstate⟩

omit [Field K] [LinearOrder K] in
theorem allows_stationary (h : ∀ state ∈ mdp.states, choice state ∈ mdp.actions) :
    mdp.Allows (.stationary choice) := fun _ => h

variable [IsStrictOrderedRing K]

/-- The values of a process have a bound. -/
theorem exists_abs_le (mdp : Mdp K) (values : State → K) :
    ∃ distance, 0 ≤ distance ∧ ∀ state ∈ mdp.states, |values state| ≤ distance :=
  ⟨∑ state ∈ mdp.states.members, |values state|,
    Finset.sum_nonneg fun _ _ => abs_nonneg _,
    fun _ hstate => Finset.single_le_sum (f := fun state => |values state|)
      (fun _ _ => abs_nonneg _) (Collection.mem_members.mpr hstate)⟩

/-! ### Comparison -/

section
variable (h : mdp.Proper) (hdiscount : mdp.horizon.discount < 1)
include h hdiscount

/-- **A choice that decides better has greater values.** -/
theorem Steady.worth_le (hsteady : mdp.Steady choice values')
    (hbetter : ∀ state ∈ mdp.states, values state ≤ mdp.worth values state (choice state)) :
    ∀ state ∈ mdp.states, mdp.worth values state (choice state) ≤ values' state := by
  have hle : ∀ state ∈ mdp.states, values state ≤ values' state := by
    refine h.le_of_step hdiscount fun state hstate =>
      ⟨choice state, hsteady.allowed state hstate, ?_⟩
    rw [← hsteady.values_eq state hstate]
    exact sub_le_sub_right (hbetter state hstate) _
  intro state hstate
  rw [hsteady.values_eq state hstate]
  exact worth_mono h.clamped hle

/-- A choice has only one value at a state. -/
theorem Steady.unique (hsteady : mdp.Steady choice values) (hsteady' : mdp.Steady choice values') :
    ∀ state ∈ mdp.states, values state = values' state := by
  have hle : ∀ {values values' : State → K}, mdp.Steady choice values →
      mdp.Steady choice values' → ∀ state ∈ mdp.states, values state ≤ values' state := by
    intro values values' hsteady hsteady' state hstate
    have hworth := hsteady'.worth_le h hdiscount (fun state hstate =>
      (hsteady.values_eq state hstate).le) state hstate
    rwa [← hsteady.values_eq state hstate] at hworth
  exact fun state hstate =>
    le_antisymm (hle hsteady hsteady' state hstate) (hle hsteady' hsteady state hstate)

/-- No choice has greater values than the optimal ones. -/
theorem Steady.le_optimum (hsteady : mdp.Steady choice values) {optimum : State → K}
    (hoptimum : mdp.Bellman optimum) : ∀ state ∈ mdp.states, values state ≤ optimum state := by
  refine h.le_of_step hdiscount fun state hstate =>
    ⟨choice state, hsteady.allowed state hstate, ?_⟩
  rw [← hsteady.values_eq state hstate]
  exact sub_le_sub_left (hoptimum.best state hstate _ (hsteady.allowed state hstate)) _

/-- Values that a choice keeps up but for a slack are not far above its own. -/
theorem Steady.le_add_div (hsteady : mdp.Steady choice values') {slack : K} (hslack : 0 ≤ slack)
    (hkept : ∀ state ∈ mdp.states,
      values state ≤ mdp.worth values state (choice state) + slack) :
    ∀ state ∈ mdp.states, values state ≤ values' state + slack / (1 - mdp.horizon.discount) := by
  refine h.le_add_div hdiscount hslack fun state hstate =>
    ⟨choice state, hsteady.allowed state hstate, ?_⟩
  rw [← hsteady.values_eq state hstate]
  have hle := hkept state hstate
  linarith

/-- Values that no decision improves on by more than a slack are not far below the optimal ones. -/
theorem Bellman.le_add_div {optimum : State → K} (hoptimum : mdp.Bellman optimum) {slack : K}
    (hslack : 0 ≤ slack) (hnear : ∀ state ∈ mdp.states, ∀ action ∈ mdp.actions,
      mdp.worth values state action ≤ values state + slack) :
    ∀ state ∈ mdp.states, optimum state ≤ values state + slack / (1 - mdp.horizon.discount) := by
  refine h.le_add_div hdiscount hslack fun state hstate => ?_
  obtain ⟨action, haction, hattained⟩ := hoptimum.exists_action hstate
  refine ⟨action, haction, ?_⟩
  have hle := hnear state hstate action haction
  rw [← hattained]
  linarith

/-- What is gained by deciding better at one state. -/
theorem Steady.le_and_lt (hsteady : mdp.Steady choice values) {state : State} {action : Action}
    (hstate : state ∈ mdp.states) (hbetter : values state < mdp.worth values state action)
    (hsteady' : mdp.Steady (Function.update choice state action) values') :
    (∀ other ∈ mdp.states, values other ≤ values' other) ∧ values state < values' state := by
  have hworth : ∀ other ∈ mdp.states,
      values other ≤ mdp.worth values other (Function.update choice state action other) := by
    intro other hother
    by_cases heq : other = state
    · rw [heq, Function.update_self]
      exact hbetter.le
    · rw [Function.update_of_ne heq]
      exact (hsteady.values_eq other hother).le
  have hle := hsteady'.worth_le h hdiscount hworth
  refine ⟨fun other hother => (hworth other hother).trans (hle other hother), ?_⟩
  have hhere := hle state hstate
  rw [Function.update_self] at hhere
  exact hbetter.trans_le hhere

end

/-! ### Existence -/

/-- The discounted expectation of what a choice leads to, for values of the members only. -/
private def led (mdp : Mdp K) (choice : State → Action) :
    (mdp.states.members → K) →ₗ[K] (mdp.states.members → K) where
  toFun x state := mdp.horizon.discount * ∑ next : mdp.states.members,
    mdp.transitions.chance state (choice state) next * x next
  map_add' x y := by
    funext state
    simp only [Pi.add_apply, mul_add, Finset.sum_add_distrib]
  map_smul' c x := by
    funext state
    simp only [Pi.smul_apply, smul_eq_mul, Finset.mul_sum, RingHom.id_apply]
    exact Finset.sum_congr rfl fun next _ => by ring

/-- Values of the members, and zero elsewhere. -/
private def extended (mdp : Mdp K) (x : mdp.states.members → K) (state : State) : K :=
  if h : state ∈ mdp.states.members then x ⟨state, h⟩ else 0

omit [LinearOrder K] [IsStrictOrderedRing K] in
private theorem extended_coe (x : mdp.states.members → K) (state : mdp.states.members) :
    mdp.extended x state = x state := dif_pos state.2

omit [IsStrictOrderedRing K] in
private theorem led_eq (x : mdp.states.members → K) (state : mdp.states.members) :
    mdp.led choice x state = mdp.worth (mdp.extended x) state (choice state)
      - mdp.worth 0 state (choice state) := by
  rw [worth_sub, ← Finset.sum_coe_sort]
  refine congrArg _ (Finset.sum_congr rfl fun next _ => ?_)
  rw [Pi.zero_apply, sub_zero, extended_coe]

/-- Values that a choice leads back to without any reward are zero. -/
private theorem Proper.eq_zero_of_led (h : mdp.Proper) (hdiscount : mdp.horizon.discount < 1)
    (hallowed : ∀ state ∈ mdp.states, choice state ∈ mdp.actions) {x : mdp.states.members → K}
    (hx : x = mdp.led choice x) : x = 0 := by
  have hstep : ∀ state ∈ mdp.states, mdp.extended x state
      = mdp.worth (mdp.extended x) state (choice state) - mdp.worth 0 state (choice state) := by
    intro state hstate
    have hmem : state ∈ mdp.states.members := Collection.mem_members.mpr hstate
    rw [← mdp.led_eq x ⟨state, hmem⟩, ← hx]
    exact extended_coe x ⟨state, hmem⟩
  have hle : ∀ state ∈ mdp.states, mdp.extended x state ≤ (0 : State → K) state :=
    h.le_of_step hdiscount fun state hstate => ⟨choice state, hallowed state hstate, by
      rw [Pi.zero_apply, sub_zero]
      exact (hstep state hstate).le⟩
  have hge : ∀ state ∈ mdp.states, (0 : State → K) state ≤ mdp.extended x state :=
    h.le_of_step hdiscount fun state hstate => ⟨choice state, hallowed state hstate, by
      rw [Pi.zero_apply, zero_sub, hstep state hstate, neg_sub]⟩
  funext state
  have hmem := Collection.mem_members.mp state.2
  rw [← extended_coe x state]
  exact le_antisymm (hle state hmem) (hge state hmem)

/-- Every choice has values. -/
theorem Proper.exists_steady (h : mdp.Proper) (hdiscount : mdp.horizon.discount < 1)
    (hallowed : ∀ state ∈ mdp.states, choice state ∈ mdp.actions) :
    ∃ values, mdp.Steady choice values := by
  have hinjective : Function.Injective
      (LinearMap.id - mdp.led choice : (mdp.states.members → K) →ₗ[K] _) := by
    rw [injective_iff_map_eq_zero]
    intro x hx
    exact h.eq_zero_of_led hdiscount hallowed (sub_eq_zero.mp hx)
  obtain ⟨x, hx⟩ := LinearMap.injective_iff_surjective.mp hinjective
    fun state => mdp.worth 0 state (choice state)
  refine ⟨mdp.extended x, hallowed, fun state hstate => ?_⟩
  have hmem : state ∈ mdp.states.members := Collection.mem_members.mpr hstate
  have hstate := congrFun hx ⟨state, hmem⟩
  rw [LinearMap.sub_apply, Pi.sub_apply, LinearMap.id_apply, led_eq,
    ← extended_coe x ⟨state, hmem⟩] at hstate
  linarith

/-- Some choice has values that add up to the most. -/
theorem Proper.exists_greatest (h : mdp.Proper) (hdiscount : mdp.horizon.discount < 1) :
    ∃ choice values, mdp.Steady choice values ∧ ∀ choice' values', mdp.Steady choice' values' →
      ∑ state ∈ mdp.states.members, values' state ≤ ∑ state ∈ mdp.states.members, values state := by
  -- there are finitely many choices, as far as the states of the process go
  let choiceOf (pick : mdp.states.members → mdp.actions.members) (state : State) : Action :=
    if hstate : state ∈ mdp.states.members then pick ⟨state, hstate⟩ else default
  have hpicked : ∀ pick, ∀ state (hstate : state ∈ mdp.states),
      choiceOf pick state = pick ⟨state, Collection.mem_members.mpr hstate⟩ :=
    fun pick state hstate => dif_pos (Collection.mem_members.mpr hstate)
  have hallowed : ∀ pick, ∀ state ∈ mdp.states, choiceOf pick state ∈ mdp.actions := by
    intro pick state hstate
    rw [hpicked pick state hstate]
    exact Collection.mem_members.mp (pick _).2
  choose valuesOf hsteady using fun pick => h.exists_steady hdiscount (hallowed pick)
  obtain ⟨first, hfirst⟩ := Collection.exists_mem h.actions
  have : Nonempty mdp.actions.members := ⟨⟨first, Collection.mem_members.mpr hfirst⟩⟩
  obtain ⟨top, htop⟩ := Finite.exists_max
    fun pick => ∑ state ∈ mdp.states.members, valuesOf pick state
  refine ⟨choiceOf top, valuesOf top, hsteady top, fun choice values hother => ?_⟩
  let pick (state : mdp.states.members) : mdp.actions.members :=
    ⟨choice state,
      Collection.mem_members.mpr (hother.allowed state (Collection.mem_members.mp state.2))⟩
  have hsame : mdp.Steady (choiceOf pick) values :=
    hother.congr fun state hstate => (hpicked pick state hstate).symm
  refine le_trans (le_of_eq (Finset.sum_congr rfl fun state hmem => ?_)) (htop pick)
  exact hsame.unique h hdiscount (hsteady pick) state (Collection.mem_members.mp hmem)

/-- **There are values that the best decision leaves as they are.** -/
theorem Proper.exists_bellman (h : mdp.Proper) (hdiscount : mdp.horizon.discount < 1) :
    ∃ values, mdp.Bellman values := by
  obtain ⟨choice, values, hsteady, hgreatest⟩ := h.exists_greatest hdiscount
  refine ⟨values, fun state hstate action haction => ?_, choice, hsteady⟩
  by_contra hbetter
  have hallowed : ∀ other ∈ mdp.states,
      Function.update choice state action other ∈ mdp.actions := by
    intro other hother
    by_cases heq : other = state
    · rw [heq, Function.update_self]
      exact haction
    · rw [Function.update_of_ne heq]
      exact hsteady.allowed other hother
  obtain ⟨values', hsteady'⟩ := h.exists_steady hdiscount hallowed
  obtain ⟨hle, hlt⟩ := hsteady.le_and_lt h hdiscount hstate (not_le.mp hbetter) hsteady'
  refine absurd (hgreatest _ values' hsteady') (not_le.mpr (Finset.sum_lt_sum
    (fun other hother => hle other (Collection.mem_members.mp hother))
    ⟨state, Collection.mem_members.mpr hstate, hlt⟩))

/-! ### What is earned in the long run -/

/-- Following a choice comes closer to its values with every decision. -/
theorem Steady.abs_earned_sub_le (h : mdp.Proper) (hsteady : mdp.Steady choice values)
    {distance : K} (hdistance : 0 ≤ distance)
    (hbound : ∀ state ∈ mdp.states, |values state| ≤ distance) :
    ∀ decisions, ∀ state ∈ mdp.states,
      |mdp.earned decisions (.stationary choice) state - values state|
        ≤ mdp.horizon.discount ^ decisions * distance := by
  intro decisions
  induction decisions with
  | zero =>
      intro state hstate
      rw [earned, zero_sub, abs_neg, pow_zero, one_mul]
      exact hbound state hstate
  | succ decisions ih =>
      intro state hstate
      have hrest : 0 ≤ mdp.horizon.discount ^ decisions * distance :=
        mul_nonneg (pow_nonneg h.clamped.horizon.1 _) hdistance
      rw [hsteady.values_eq state hstate, pow_succ', mul_assoc]
      exact h.abs_worth_sub_le hstate (hsteady.allowed state hstate) hrest ih

variable [Archimedean K] [TopologicalSpace K] [OrderTopology K]

/-- What the discount leaves of a distance vanishes. -/
theorem Proper.tendsto_discount (h : mdp.Proper) (hdiscount : mdp.horizon.discount < 1)
    (distance : K) :
    Tendsto (fun decisions => mdp.horizon.discount ^ decisions * distance) atTop (𝓝 0) := by
  have hpow := tendsto_pow_atTop_nhds_zero_of_lt_one h.clamped.horizon.1 hdiscount
  simpa only [zero_mul] using hpow.mul_const distance

/-- **Following a choice for ever earns its steady values.** -/
theorem Steady.tendsto_earned (h : mdp.Proper) (hdiscount : mdp.horizon.discount < 1)
    (hsteady : mdp.Steady choice values) {state : State} (hstate : state ∈ mdp.states) :
    Tendsto (fun decisions => mdp.earned decisions (.stationary choice) state) atTop
      (𝓝 (values state)) := by
  obtain ⟨distance, hdistance, hbound⟩ := mdp.exists_abs_le values
  have hnear := fun decisions => abs_sub_le_iff.mp
    (hsteady.abs_earned_sub_le h hdistance hbound decisions state hstate)
  have hleft := h.tendsto_discount hdiscount distance
  refine tendsto_of_tendsto_of_tendsto_of_le_of_le
    (g := fun decisions => values state - mdp.horizon.discount ^ decisions * distance)
    (h := fun decisions => values state + mdp.horizon.discount ^ decisions * distance)
    (by simpa only [sub_zero] using tendsto_const_nhds.sub hleft)
    (by simpa only [add_zero] using tendsto_const_nhds.add hleft)
    (fun decisions => ?_) (fun decisions => ?_)
  · exact sub_le_comm.mp (hnear decisions).2
  · exact sub_le_iff_le_add'.mp (hnear decisions).1

/-- **Values that the best decision leaves as they are, are optimal.** -/
theorem Bellman.optimal (h : mdp.Proper) (hdiscount : mdp.horizon.discount < 1)
    (hbellman : mdp.Bellman values) : mdp.Optimal values := by
  obtain ⟨choice, hsteady⟩ := hbellman.attained
  obtain ⟨distance, hdistance, hbound⟩ := mdp.exists_abs_le values
  refine ⟨⟨_, allows_stationary hsteady.allowed, fun state hstate =>
    hsteady.tendsto_earned h hdiscount hstate⟩, fun strategy hallowed state hstate bound hlt => ?_⟩
  have hstart : ∀ state ∈ mdp.states, 0 ≤ values state + distance := fun state hstate => by
    have := neg_le_of_abs_le (hbound state hstate)
    linarith
  filter_upwards [(h.tendsto_discount hdiscount distance).eventually_lt_const (sub_pos.mpr hlt)]
    with decisions hdecisions
  have := h.earned_le hdistance hstart hbellman.best decisions strategy hallowed state hstate
  linarith

end Mdp

end MarkovPlanning
