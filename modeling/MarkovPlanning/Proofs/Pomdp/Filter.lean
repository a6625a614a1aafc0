/-
What an update of the belief amounts to.

The chance of coming to a state and making an observation there is its `mass`.  The
update divides the masses by their sum, and fails if nothing is left to divide.
Dividing is a matter of scale: an expectation under the masses is an expectation
under the updated belief times their sum.  An observation that cannot be made
leaves the belief as it is, and as the sum of the masses is zero then, the same
equation holds.  So what follows an observation can be weighed by masses, and
`expect_mass` goes back to beliefs.

A belief may hold states that the process does not know, and the update comes from
them as well.  So the update is described for a belief that is `Within` any set of
states, with the masses summed over that set (`update_eq_ok`, `update_eq_error`); it
leads to a belief about the states of the process alone.
-/
import MarkovPlanning.Proofs.Clamped
import MarkovPlanning.Proofs.Entity.Sum
import MarkovPlanning.Pomdp.Unroll
import Mathlib

namespace MarkovPlanning

variable {K : Type} [Field K] [LinearOrder K]

/-! ### Beliefs about a collection of states -/

/-- A belief that all states outside of a set are impossible. -/
structure Belief.Within (belief : Belief K) (among : Finset State) : Prop where
  clamped : belief.Clamped
  support : ∀ state ∉ among, belief.get state = 0

/-- A belief that all states outside of a collection are impossible. -/
structure Belief.Over (belief : Belief K) (states : Collection .state) : Prop where
  clamped : belief.Clamped
  support : ∀ state, state ∉ states → belief.get state = 0

theorem Belief.Over.within {belief : Belief K} {states : Collection .state}
    (h : belief.Over states) : belief.Within states.members :=
  ⟨h.clamped, fun state hstate => h.support state fun hmem =>
    hstate (Collection.mem_members.mpr hmem)⟩

private theorem foldl_set_masses (masses : List (State × K)) : ∀ (belief : Belief K),
    (masses.foldl (fun belief mass => belief.set mass.1 mass.2) belief).masses
      = masses.foldl (fun values mass => values.insert mass.1 (Scalar.clamp01 mass.2))
          belief.masses := by
  induction masses with
  | nil => intro belief; rfl
  | cons mass rest ih => intro belief; exact ih _

theorem Belief.get_ofList_map (states : List State) (f : State → K) (state : State) :
    (Belief.ofList (states.map fun state => (state, f state))).get state
      = if state ∈ states then Scalar.clamp01 (f state) else 0 := by
  unfold Belief.get Belief.ofList
  rw [foldl_set_masses, List.foldl_map, EntityMap.getD_foldl_insert, Std.ExtTreeMap.getD_empty]

/-- Only states that were set have an entry. -/
theorem Belief.mem_ofList_map {states : List State} {f : State → K} {state : State} :
    state ∈ (Belief.ofList (states.map fun state => (state, f state))).masses
      ↔ state ∈ states := by
  unfold Belief.ofList
  rw [foldl_set_masses, List.foldl_map, EntityMap.mem_foldl_insert]
  exact or_iff_left Std.ExtTreeMap.not_mem_empty

theorem Belief.over_uniform [IsStrictOrderedRing K] (states : Collection .state) :
    (Belief.uniform states : Belief K).Over states := by
  refine ⟨Belief.clamped_ofList _, fun state hstate => ?_⟩
  rw [Belief.uniform, Belief.get_ofList_map, if_neg]
  exact fun hmem => hstate (Std.ExtTreeSet.mem_toList.mp hmem)

namespace Pomdp

/-! ### Expectations -/

/-- What a function of the state amounts to under some weights. -/
def expect (pomdp : Pomdp K) (weights f : State → K) : K :=
  ∑ state ∈ pomdp.states.members, weights state * f state

section

omit [LinearOrder K]

variable {pomdp : Pomdp K} {weights f g : State → K}

theorem expect_congr (h : ∀ state ∈ pomdp.states, f state = g state) :
    pomdp.expect weights f = pomdp.expect weights g :=
  Finset.sum_congr rfl fun state hstate => by rw [h state (Collection.mem_members.mp hstate)]

theorem expect_add :
    pomdp.expect weights (fun state => f state + g state)
      = pomdp.expect weights f + pomdp.expect weights g := by
  unfold expect
  rw [← Finset.sum_add_distrib]
  exact Finset.sum_congr rfl fun state _ => mul_add _ _ _

theorem expect_mul_left (c : K) :
    pomdp.expect weights (fun state => c * f state) = c * pomdp.expect weights f := by
  unfold expect
  rw [Finset.mul_sum]
  exact Finset.sum_congr rfl fun state _ => mul_left_comm _ _ _

theorem expect_sum {ι : Type} (set : Finset ι) (f : ι → State → K) :
    pomdp.expect weights (fun state => ∑ i ∈ set, f i state)
      = ∑ i ∈ set, pomdp.expect weights (f i) := by
  unfold expect
  rw [Finset.sum_comm]
  exact Finset.sum_congr rfl fun state _ => Finset.mul_sum _ _ _

end

/-! ### Masses -/

/-- The chance of coming from some weights to a state by an action and making an observation
there. -/
def mass (pomdp : Pomdp K) (weights : State → K) (action : Action) (observation : Observation)
    (next : State) : K :=
  pomdp.observationChances.chance action next observation
    * ∑ state ∈ pomdp.states.members,
        weights state * pomdp.transitions.chance state action next

/-- The same from the states of any set. -/
def massFrom (pomdp : Pomdp K) (among : Finset State) (weights : State → K) (action : Action)
    (observation : Observation) (next : State) : K :=
  pomdp.observationChances.chance action next observation
    * ∑ state ∈ among, weights state * pomdp.transitions.chance state action next

/-- What weights add up to. -/
def total (pomdp : Pomdp K) (weights : State → K) : K :=
  ∑ state ∈ pomdp.states.members, weights state

variable {pomdp : Pomdp K} {action : Action} {observation : Observation} {among : Finset State}

/-- Looking ahead along the tables is looking back along the masses. -/
theorem expect_mass (weights f : State → K) :
    pomdp.expect (pomdp.mass weights action observation) f
      = pomdp.expect weights fun state => ∑ next ∈ pomdp.states.members,
          pomdp.transitions.chance state action next
            * (pomdp.observationChances.chance action next observation * f next) := by
  unfold expect mass
  simp only [Finset.mul_sum, Finset.sum_mul]
  rw [Finset.sum_comm]
  refine Finset.sum_congr rfl fun state _ => Finset.sum_congr rfl fun next _ => ?_
  ring

theorem total_get {belief : Belief K} (hb : belief.Over pomdp.states) :
    pomdp.total belief.get = belief.total := by
  have hsum := EntityMap.sum_toList belief.masses (fun _ => 1) hb.within.support
  simp only [mul_one] at hsum
  rw [Belief.total, Scalar.sum_eq]
  exact hsum.symm

variable [IsStrictOrderedRing K]

theorem massFrom_nonneg (h : pomdp.Clamped) {weights : State → K}
    (hweights : ∀ state, 0 ≤ weights state) (next : State) :
    0 ≤ pomdp.massFrom among weights action observation next := by
  refine mul_nonneg (h.observationChances.get_mem _).1 (Finset.sum_nonneg fun state _ => ?_)
  exact mul_nonneg (hweights state) (h.transitions.get_mem _).1

theorem mass_nonneg (h : pomdp.Clamped) {weights : State → K}
    (hweights : ∀ state, 0 ≤ weights state) (next : State) :
    0 ≤ pomdp.mass weights action observation next :=
  massFrom_nonneg h hweights next

/-! ### The update -/

variable {belief : Belief K}

omit [IsStrictOrderedRing K] in
theorem reach_eq (hb : belief.Within among) (next : State) :
    pomdp.reach belief action next = ∑ state ∈ among,
      belief.get state * pomdp.transitions.chance state action next := by
  unfold reach
  rw [Scalar.sum_eq]
  show (belief.masses.toList.map fun entry =>
    entry.2 * pomdp.transitions.chance entry.1 action next).sum = _
  exact EntityMap.sum_toList belief.masses
    (fun state => pomdp.transitions.chance state action next) hb.support

omit [IsStrictOrderedRing K] in
theorem mass?_eq (hb : belief.Within among) (next : State) :
    pomdp.mass? belief action observation next =
      if 0 < pomdp.massFrom among belief.get action observation next then
        some (next, pomdp.massFrom among belief.get action observation next) else none := by
  unfold mass?
  rw [reach_eq hb]
  dsimp only
  by_cases hzero : pomdp.observationChances.chance action next observation = 0
  · have hmass : pomdp.massFrom among belief.get action observation next = 0 := by
      rw [massFrom, hzero, zero_mul]
    have hnone : ¬0 < pomdp.massFrom among belief.get action observation next := by
      rw [hmass]
      exact lt_irrefl _
    rw [if_pos (Scalar.isZero_iff.mpr hzero), if_neg hnone]
  · exact if_neg fun h => hzero (Scalar.isZero_iff.mp h)

omit [IsStrictOrderedRing K] in
/-- The states that an observation leaves possible are those with a mass. -/
theorem masses_eq (hb : belief.Within among) :
    pomdp.states.toList.filterMap (pomdp.mass? belief action observation)
      = (pomdp.states.toList.filter fun next =>
          0 < pomdp.massFrom among belief.get action observation next).map fun next =>
            (next, pomdp.massFrom among belief.get action observation next) := by
  rw [← List.filterMap_eq_map, List.filterMap_filter]
  refine List.filterMap_congr fun next _ => ?_
  rw [mass?_eq hb]
  simp only [decide_eq_true_eq, Function.comp_apply]

omit [IsStrictOrderedRing K] in
/-- Nothing is lost to a sum when only its positive terms are kept. -/
theorem sum_filter_pos {ι : Type} (f : ι → K) : ∀ (l : List ι), (∀ i ∈ l, 0 ≤ f i) →
    ((l.filter fun i => 0 < f i).map f).sum = (l.map f).sum := by
  intro l
  induction l with
  | nil => intro _; rfl
  | cons i rest ih =>
      intro h
      have hrest := ih fun j hj => h j (List.mem_cons_of_mem _ hj)
      by_cases hpos : 0 < f i
      · rw [List.filter_cons_of_pos (by simpa using hpos), List.map_cons, List.map_cons,
          List.sum_cons, List.sum_cons, hrest]
      · have hzero : f i = 0 := le_antisymm (not_lt.mp hpos) (h i List.mem_cons_self)
        rw [List.filter_cons_of_neg (by simpa using hpos), List.map_cons, List.sum_cons, hzero,
          zero_add, hrest]

/-- The chance of making an observation. -/
def evidence (pomdp : Pomdp K) (weights : State → K) (action : Action)
    (observation : Observation) : K :=
  ∑ next ∈ pomdp.states.members, pomdp.mass weights action observation next

theorem evidence_nonneg (h : pomdp.Clamped) {weights : State → K}
    (hweights : ∀ state, 0 ≤ weights state) :
    0 ≤ pomdp.evidence weights action observation :=
  Finset.sum_nonneg fun next _ => mass_nonneg h hweights next

theorem sum_masses (h : pomdp.Clamped) (hb : belief.Within among) :
    Scalar.sum ((pomdp.states.toList.filterMap (pomdp.mass? belief action observation)).map (·.2))
      = pomdp.total (pomdp.massFrom among belief.get action observation) := by
  rw [masses_eq hb, Scalar.sum_eq, List.map_map]
  show ((pomdp.states.toList.filter fun next =>
    0 < pomdp.massFrom among belief.get action observation next).map
      (pomdp.massFrom among belief.get action observation)).sum = _
  rw [sum_filter_pos _ _ fun next _ => massFrom_nonneg h (fun state => (hb.clamped state).1) next]
  exact Collection.sum_toList _ _

/-- **An update without any mass fails.** -/
theorem update_eq_error (h : pomdp.Clamped) (hb : belief.Within among)
    (hzero : pomdp.total (pomdp.massFrom among belief.get action observation) ≤ 0) :
    pomdp.update belief action observation = .error (.impossible observation action) := by
  unfold update
  dsimp only
  rw [sum_masses h hb, if_pos hzero]

/-- **Otherwise the updated belief is the masses brought to the sum one**, with an entry for each
state that has a mass. -/
theorem update_eq_ok (h : pomdp.Clamped) (hb : belief.Within among)
    (hpos : 0 < pomdp.total (pomdp.massFrom among belief.get action observation)) :
    ∃ updated, pomdp.update belief action observation = .ok updated ∧
      updated.Over pomdp.states ∧
      (∀ next ∈ pomdp.states, updated.get next
        = pomdp.massFrom among belief.get action observation next
            / pomdp.total (pomdp.massFrom among belief.get action observation)) ∧
      ∀ next ∈ updated.masses, next ∈ pomdp.states ∧
        0 < pomdp.massFrom among belief.get action observation next := by
  have hnonneg : ∀ next, 0 ≤ pomdp.massFrom among belief.get action observation next :=
    massFrom_nonneg h fun state => (hb.clamped state).1
  have hupdate : pomdp.update belief action observation = .ok (.ofList
      ((pomdp.states.toList.filter fun next =>
        0 < pomdp.massFrom among belief.get action observation next).map fun next =>
          (next, pomdp.massFrom among belief.get action observation next
            / pomdp.total (pomdp.massFrom among belief.get action observation)))) := by
    unfold update
    dsimp only
    rw [sum_masses h hb, if_neg (not_le.mpr hpos), masses_eq hb, List.map_map]
    rfl
  refine ⟨_, hupdate, ⟨Belief.clamped_ofList _, fun state hstate => ?_⟩, fun next hnext => ?_,
    fun next hnext => ?_⟩
  · rw [Belief.get_ofList_map, if_neg]
    intro hmem
    exact hstate (Std.ExtTreeSet.mem_toList.mp (List.mem_filter.mp hmem).1)
  · rw [Belief.get_ofList_map]
    by_cases hmass : 0 < pomdp.massFrom among belief.get action observation next
    · have hle : pomdp.massFrom among belief.get action observation next
          ≤ pomdp.total (pomdp.massFrom among belief.get action observation) :=
        Finset.single_le_sum (fun state _ => hnonneg state) (Collection.mem_members.mpr hnext)
      rw [if_pos (List.mem_filter.mpr ⟨Std.ExtTreeSet.mem_toList.mpr hnext, by simpa using hmass⟩),
        Scalar.clamp01_eq_self (div_nonneg hmass.le hpos.le) ((div_le_one hpos).mpr hle)]
    · have hzero := le_antisymm (not_lt.mp hmass) (hnonneg next)
      rw [if_neg (fun hmem => hmass (by simpa using (List.mem_filter.mp hmem).2)), hzero, zero_div]
  · have hmem := List.mem_filter.mp (Belief.mem_ofList_map.mp hnext)
    exact ⟨Std.ExtTreeSet.mem_toList.mp hmem.1, by simpa using hmem.2⟩

/-- **Up to scale, expectations after an observation are those under the belief that is gone on
with**, also when the observation cannot be made. -/
theorem expect_mass_eq (h : pomdp.Clamped) (hb : belief.Over pomdp.states) (f : State → K) :
    pomdp.expect (pomdp.mass belief.get action observation) f
      = pomdp.evidence belief.get action observation
          * pomdp.expect (pomdp.updateOrKeep belief action observation).get f := by
  have hnonneg : ∀ state, 0 ≤ belief.get state := fun state => (hb.clamped state).1
  rcases (evidence_nonneg h hnonneg).lt_or_eq with hpos | hzero
  · obtain ⟨updated, hupdate, -, hget, -⟩ := update_eq_ok h hb.within hpos
    rw [updateOrKeep, hupdate, ← expect_mul_left]
    refine Finset.sum_congr rfl fun next hnext => ?_
    rw [hget next (Collection.mem_members.mp hnext)]
    show _ = pomdp.mass belief.get action observation next
      / pomdp.evidence belief.get action observation * _
    field_simp
  · have hmass : ∀ next ∈ pomdp.states.members,
        pomdp.mass belief.get action observation next = 0 :=
      (Finset.sum_eq_zero_iff_of_nonneg fun next _ => mass_nonneg h hnonneg next).mp hzero.symm
    rw [← hzero, zero_mul]
    exact Finset.sum_eq_zero fun next hnext => by rw [hmass next hnext, zero_mul]

theorem updateOrKeep_over (h : pomdp.Clamped) (hb : belief.Over pomdp.states) :
    (pomdp.updateOrKeep belief action observation).Over pomdp.states := by
  rcases (evidence_nonneg h fun state => (hb.clamped state).1).lt_or_eq with hpos | hzero
  · obtain ⟨updated, hupdate, hover, -⟩ := update_eq_ok h hb.within hpos
    rw [updateOrKeep, hupdate]
    exact hover
  · rw [updateOrKeep, update_eq_error h hb.within hzero.symm.le]
    exact hb

end Pomdp

end MarkovPlanning
