/-
Cross sums, member by member.

A cross sum goes through its left list slowest, so the sum of two members has its place by the
places of the two (`getElem?_crossSum`).  A value that adds up is greatest at the sum of two
members at which it is greatest (`max?_crossSum`).  With one list after the other the places are
numbers with one digit for each list (`getElem?_foldl_crossSum`).

Sparse vectors have such a value: the coefficients of a sum add up over the states of either
vector (`AlphaVector.joins_add`), so the values at a belief add up as well, although each is added
up over the states of its own vector only (`AlphaVector.dot_add`).
-/
import MarkovPlanning.Proofs.Entity.Sum
import Mathlib

namespace MarkovPlanning

/-! ### Places -/

section
variable {β : Type} [Add β] {left right : List β}

theorem crossSum_nil_right (left : List β) : crossSum left [] = left := by
  unfold crossSum
  split
  · rename_i h
    exact (List.isEmpty_iff.mp h).symm
  · rfl

theorem crossSum_of_ne_nil (hleft : left ≠ []) (hright : right ≠ []) :
    crossSum left right = left.flatMap fun u => right.map fun v => u + v := by
  unfold crossSum
  rw [if_neg (List.isEmpty_iff.not.mpr hleft), if_neg (List.isEmpty_iff.not.mpr hright)]

theorem mem_crossSum (hleft : left ≠ []) (hright : right ≠ []) {x : β} :
    x ∈ crossSum left right ↔ ∃ u ∈ left, ∃ v ∈ right, x = u + v := by
  rw [crossSum_of_ne_nil hleft hright]
  simp only [List.mem_flatMap, List.mem_map, eq_comm]

theorem crossSum_ne_nil (hleft : left ≠ []) (right : List β) : crossSum left right ≠ [] := by
  by_cases hright : right = []
  · rw [hright, crossSum_nil_right]
    exact hleft
  · obtain ⟨u, hu⟩ := List.exists_mem_of_ne_nil left hleft
    obtain ⟨v, hv⟩ := List.exists_mem_of_ne_nil right hright
    exact List.ne_nil_of_mem ((mem_crossSum hleft hright).mpr ⟨u, hu, v, hv, rfl⟩)

theorem length_crossSum (hleft : left ≠ []) (hright : right ≠ []) :
    (crossSum left right).length = left.length * right.length := by
  rw [crossSum_of_ne_nil hleft hright, List.length_flatMap]
  simp

/-- **The left place counts as often as there are members on the right.** -/
theorem getElem?_crossSum {i j : Nat} {u v : β} (hu : left[i]? = some u)
    (hv : right[j]? = some v) :
    (crossSum left right)[i * right.length + j]? = some (u + v) := by
  rw [crossSum_of_ne_nil (List.ne_nil_of_mem (List.mem_of_getElem? hu))
    (List.ne_nil_of_mem (List.mem_of_getElem? hv))]
  have hj : j < right.length := (List.getElem?_eq_some_iff.mp hv).1
  induction left generalizing i with
  | nil => cases hu
  | cons first rest ih =>
      rw [List.flatMap_cons]
      cases i with
      | zero =>
          obtain rfl : first = u := Option.some.inj hu
          rw [Nat.zero_mul, Nat.zero_add,
            List.getElem?_append_left (by rwa [List.length_map]), List.getElem?_map, hv]
          rfl
      | succ i =>
          have hplace : (i + 1) * right.length + j
              = (right.map fun v => first + v).length + (i * right.length + j) := by
            rw [List.length_map]
            ring
          rw [hplace, List.getElem?_append_right (Nat.le_add_right _ _), Nat.add_sub_cancel_left]
          exact ih hu

/-- **The greatest value of a sum is the sum of the greatest values.** -/
theorem max?_crossSum {K : Type} [Field K] [LinearOrder K] [IsStrictOrderedRing K]
    {value : β → K} (hadd : ∀ u ∈ left, ∀ v ∈ right, value (u + v) = value u + value v) {x y : K}
    (hx : (left.map value).max? = some x) (hy : (right.map value).max? = some y) :
    ((crossSum left right).map value).max? = some (x + y) := by
  rw [List.max?_eq_some_iff] at hx hy ⊢
  obtain ⟨hx, hleft⟩ := hx
  obtain ⟨hy, hright⟩ := hy
  obtain ⟨u, hu, rfl⟩ := List.mem_map.mp hx
  obtain ⟨v, hv, rfl⟩ := List.mem_map.mp hy
  have hmem (w : β) : w ∈ crossSum left right ↔ ∃ u ∈ left, ∃ v ∈ right, w = u + v :=
    mem_crossSum (List.ne_nil_of_mem hu) (List.ne_nil_of_mem hv)
  constructor
  · exact List.mem_map.mpr ⟨u + v, (hmem _).mpr ⟨u, hu, v, hv, rfl⟩, hadd u hu v hv⟩
  · intro z hz
    obtain ⟨w, hw, rfl⟩ := List.mem_map.mp hz
    obtain ⟨u', hu', v', hv', rfl⟩ := (hmem _).mp hw
    rw [hadd u' hu' v' hv']
    exact add_le_add (hleft _ (List.mem_map_of_mem hu')) (hright _ (List.mem_map_of_mem hv'))

end

/-! ### One list after the other -/

section
variable {β γ ι : Type} [Add β]

/-- **The cross sum of several sets holds a sum for every choice of a member from each.** -/
theorem mem_foldl_crossSum [DecidableEq ι] {terms : ι → List β} {x : β} : ∀ (l : List ι),
    l.Nodup → (∀ i ∈ l, terms i ≠ []) → ∀ (sums : List β), sums ≠ [] →
      (x ∈ l.foldl (fun sums i => crossSum sums (terms i)) sums ↔
        ∃ u ∈ sums, ∃ choice : ι → β, (∀ i ∈ l, choice i ∈ terms i) ∧
          x = l.foldl (fun sum i => sum + choice i) u) := by
  intro l
  induction l with
  | nil =>
      intro _ _ sums _
      constructor
      · intro hx
        exact ⟨x, hx, fun _ => x, fun i hi => absurd hi List.not_mem_nil, rfl⟩
      · intro h
        obtain ⟨u, hu, -, -, rfl⟩ := h
        exact hu
  | cons i rest ih =>
      intro hnodup hne sums hsums
      obtain ⟨hi, hnodup⟩ := List.nodup_cons.mp hnodup
      have hfirst := hne i List.mem_cons_self
      rw [List.foldl_cons, ih hnodup (fun j hj => hne j (List.mem_cons_of_mem _ hj)) _
        (crossSum_ne_nil hsums _)]
      constructor
      · intro h
        obtain ⟨w, hw, choice, hchoice, rfl⟩ := h
        obtain ⟨u, hu, v, hv, rfl⟩ := (mem_crossSum hsums hfirst).mp hw
        -- the choice for the first set does not matter to the others
        have hother : ∀ j ∈ rest, Function.update choice i v j = choice j :=
          fun j hj => Function.update_of_ne (fun h : j = i => hi (h ▸ hj)) v choice
        refine ⟨u, hu, Function.update choice i v, ?_, ?_⟩
        · intro j hj
          rcases List.mem_cons.mp hj with rfl | hj
          · rw [Function.update_self]
            exact hv
          · rw [hother j hj]
            exact hchoice j hj
        · rw [List.foldl_cons, Function.update_self]
          exact List.foldl_ext _ _ _ fun sum j hj => by rw [hother j hj]
      · intro h
        obtain ⟨u, hu, choice, hchoice, rfl⟩ := h
        refine ⟨u + choice i, ?_, choice, fun j hj => hchoice j (List.mem_cons_of_mem _ hj), rfl⟩
        exact (mem_crossSum hsums hfirst).mpr
          ⟨u, hu, choice i, hchoice i List.mem_cons_self, rfl⟩

theorem foldl_crossSum_nil (l : List ι) (sums : List β) :
    l.foldl (fun sums _ => crossSum sums []) sums = sums :=
  List.foldlRecOn (motive := fun result => result = sums) l _ rfl fun result hresult _ _ =>
    (crossSum_nil_right result).trans hresult

theorem length_foldl_crossSum {terms : ι → List β} {size : Nat} : ∀ (l : List ι),
    (∀ i ∈ l, terms i ≠ [] ∧ (terms i).length = size) → ∀ (sums : List β), sums ≠ [] →
      (l.foldl (fun sums i => crossSum sums (terms i)) sums).length
        = sums.length * size ^ l.length := by
  intro l
  induction l with
  | nil => intro _ sums _; exact (Nat.mul_one _).symm
  | cons i rest ih =>
      intro hterms sums hsums
      obtain ⟨hne, hsize⟩ := hterms i List.mem_cons_self
      rw [List.foldl_cons, ih (fun j hj => hterms j (List.mem_cons_of_mem _ hj)) _
        (crossSum_ne_nil hsums _), length_crossSum hsums hne, hsize, List.length_cons, pow_succ']
      ring

/-- The place of a choice from each list, from a place on. -/
theorem getElem?_foldl_crossSum_from (f : ι → γ → β) (items : List γ) : ∀ (l : List ι)
    (choices : List (Fin items.length)), choices.length = l.length →
      ∀ {sums : List β} {place : Nat} {u : β}, sums[place]? = some u →
        (l.foldl (fun sums i => crossSum sums (items.map (f i))) sums)[
            choices.foldl (fun place choice => place * items.length + choice.val) place]?
          = some ((l.zip choices).foldl (fun sum entry => sum + f entry.1 items[entry.2]) u) := by
  intro l
  induction l with
  | nil =>
      intro choices hlength sums place u hu
      rw [List.length_eq_zero_iff.mp hlength]
      exact hu
  | cons i rest ih =>
      intro choices hlength sums place u hu
      cases choices with
      | nil => cases hlength
      | cons choice choices =>
          have hv : (items.map (f i))[choice.val]? = some (f i items[choice]) := by
            rw [List.getElem?_map, List.getElem?_eq_getElem choice.isLt]
            rfl
          have hfirst := getElem?_crossSum hu hv
          rw [List.length_map] at hfirst
          exact ih choices (Nat.succ.inj hlength) hfirst

/-- **The place of a choice from each list has the choices as its digits**, the first one counting
most. -/
theorem getElem?_foldl_crossSum (f : ι → γ → β) (items : List γ) (l : List ι)
    {choices : List (Fin items.length)} (hlength : choices.length = l.length) (u : β) :
    (l.foldl (fun sums i => crossSum sums (items.map (f i))) [u])[
        Nat.ofDigits items.length (choices.reverse.map (·.val))]?
      = some ((l.zip choices).foldl (fun sum entry => sum + f entry.1 items[entry.2]) u) := by
  have hplace : Nat.ofDigits items.length (choices.reverse.map (·.val))
      = choices.foldl (fun place choice => place * items.length + choice.val) 0 := by
    rw [Nat.ofDigits_eq_foldr, List.foldr_map, List.foldr_reverse]
    refine List.foldl_ext _ _ _ fun place choice _ => ?_
    rw [Nat.cast_id, add_comm, mul_comm]
  rw [hplace]
  exact getElem?_foldl_crossSum_from f items l choices hlength rfl

/-- **The greatest value goes up by the greatest value of each list.** -/
theorem max?_foldl_crossSum {K : Type} [Field K] [LinearOrder K] [IsStrictOrderedRing K]
    {good : β → Prop} {value : β → K}
    (hadd : ∀ u v, good u → good v → good (u + v) ∧ value (u + v) = value u + value v)
    {terms : ι → List β} {top : ι → K} : ∀ (l : List ι),
      (∀ i ∈ l, (∀ v ∈ terms i, good v) ∧ ((terms i).map value).max? = some (top i)) →
        ∀ {sums : List β} {x : K}, (∀ u ∈ sums, good u) → (sums.map value).max? = some x →
          ((l.foldl (fun sums i => crossSum sums (terms i)) sums).map value).max?
            = some (x + (l.map top).sum) := by
  intro l
  induction l with
  | nil =>
      intro _ sums x _ hx
      rw [List.map_nil, List.sum_nil, add_zero]
      exact hx
  | cons i rest ih =>
      intro hterms sums x hsums hx
      obtain ⟨hgood, htop⟩ := hterms i List.mem_cons_self
      have hnext := max?_crossSum (fun u hu v hv => (hadd u v (hsums u hu) (hgood v hv)).2) hx htop
      have hleft : sums ≠ [] := by
        rintro rfl
        cases hx
      have hright : terms i ≠ [] := by
        intro hnil
        rw [hnil] at htop
        cases htop
      have hsums' : ∀ w ∈ crossSum sums (terms i), good w := by
        intro w hw
        obtain ⟨u, hu, v, hv, rfl⟩ := (mem_crossSum hleft hright).mp hw
        exact (hadd u v (hsums u hu) (hgood v hv)).1
      rw [List.foldl_cons, ih (fun j hj => hterms j (List.mem_cons_of_mem _ hj)) hsums' hnext,
        List.map_cons, List.sum_cons, add_assoc]

end

/-! ### Sparse vectors -/

namespace AlphaVector

section
variable {α : Type} [Scalar α] {alpha : AlphaVector α} {state other : State} {value : α}

theorem get_addAt :
    (alpha.addAt state value).get other
      = if state = other then alpha.get state + value else alpha.get other := by
  unfold addAt get
  rw [Std.ExtTreeMap.getD_alter]
  simp only [Std.LawfulEqCmp.compare_eq_iff_eq]
  split
  · rw [Std.ExtTreeMap.getD_eq_getD_getElem?]
    rfl
  · rfl

theorem mem_addAt :
    other ∈ (alpha.addAt state value).values ↔ state = other ∨ other ∈ alpha.values := by
  unfold addAt
  rw [Std.ExtTreeMap.mem_alter]
  simp only [Std.LawfulEqCmp.compare_eq_iff_eq]
  split
  · simp [*]
  · simp [*]

/-- Adding entry by entry leaves the action alone. -/
theorem action_foldl_addAt (entries : List (State × α)) (alpha : AlphaVector α) :
    (entries.foldl (fun sum entry => sum.addAt entry.1 entry.2) alpha).action = alpha.action :=
  List.foldlRecOn (motive := fun sum : AlphaVector α => sum.action = alpha.action) entries _ rfl
    fun _ hsum _ _ => hsum

theorem mem_foldl_addAt (entries : List (State × α)) (alpha : AlphaVector α) :
    state ∈ (entries.foldl (fun sum entry => sum.addAt entry.1 entry.2) alpha).values
      ↔ state ∈ alpha.values ∨ state ∈ entries.map Prod.fst := by
  induction entries generalizing alpha with
  | nil => simp
  | cons entry rest ih =>
      rw [List.foldl_cons, ih, mem_addAt, List.map_cons, List.mem_cons, or_left_comm, or_assoc,
        eq_comm]

end

/-- A vector that adds another one to a first one. -/
structure Joins {K : Type} [Field K] [LinearOrder K] (sum alpha beta : AlphaVector K) : Prop where
  action_eq : sum.action = alpha.action
  mem_iff : ∀ state, state ∈ sum.values ↔ state ∈ alpha.values ∨ state ∈ beta.values
  get_eq : ∀ state, sum.get state = alpha.get state + beta.get state

variable {K : Type} [Field K] [LinearOrder K] {alpha beta : AlphaVector K} {state : State}

/-- Each entry adds to the coefficient of its state. -/
theorem get_foldl_addAt (entries : List (State × K)) (alpha : AlphaVector K) :
    (entries.foldl (fun sum entry => sum.addAt entry.1 entry.2) alpha).get state
      = alpha.get state
        + (entries.map fun entry => if entry.1 = state then entry.2 else 0).sum := by
  induction entries generalizing alpha with
  | nil => simp
  | cons entry rest ih =>
      rw [List.foldl_cons, ih, get_addAt, List.map_cons, List.sum_cons, ← add_assoc]
      by_cases hstate : entry.1 = state
      · rw [if_pos hstate, if_pos hstate, hstate]
      · rw [if_neg hstate, if_neg hstate, add_zero]

/-- The entries of a vector add up to its coefficients. -/
theorem sum_entries (beta : AlphaVector K) (state : State) :
    (beta.toList.map fun entry => if entry.1 = state then entry.2 else 0).sum
      = beta.get state := by
  let set : Finset State := {state} ∪ beta.values.keys.toFinset
  have hzero : ∀ other, other ∉ set → beta.values.getD other 0 = 0 := by
    intro other hother
    rw [Finset.mem_union, not_or, List.mem_toFinset, Std.ExtTreeMap.mem_keys] at hother
    exact Std.ExtTreeMap.getD_eq_fallback hother.2
  have h := EntityMap.sum_toList beta.values (fun other => if other = state then (1 : K) else 0)
    hzero
  have hset : state ∈ set := Finset.mem_union_left _ (Finset.mem_singleton_self state)
  unfold toList get
  simpa [hset] using h

/-- **A sum has the coefficients of both vectors, added up, and the action of the left one.** -/
theorem joins_add (alpha beta : AlphaVector K) : Joins (alpha + beta) alpha beta where
  action_eq := action_foldl_addAt _ _
  mem_iff state := by
    rw [← Std.ExtTreeMap.mem_keys (t := beta.values), ← Std.ExtTreeMap.map_fst_toList_eq_keys]
    exact mem_foldl_addAt _ _
  get_eq state := by
    rw [← sum_entries beta]
    exact get_foldl_addAt _ _

/-- The value at a belief may be added up over any states that hold those of the vector. -/
theorem dot_eq_sum (alpha : AlphaVector K) (belief : Belief K) {set : Finset State}
    (h : ∀ state, state ∈ alpha.values → state ∈ set) :
    alpha.dot belief = ∑ state ∈ set, alpha.get state * belief.get state := by
  have hzero : ∀ state, state ∉ set → alpha.values.getD state 0 = 0 := fun state hstate =>
    Std.ExtTreeMap.getD_eq_fallback (mt (h state) hstate)
  have hsum := EntityMap.sum_toList alpha.values belief.get hzero
  unfold dot
  rw [Scalar.sum_eq]
  simp only [mul_comm (belief.get _)]
  exact hsum

/-- **Values at a belief add up**, whichever states the two vectors have. -/
theorem dot_add (alpha beta : AlphaVector K) (belief : Belief K) :
    (alpha + beta).dot belief = alpha.dot belief + beta.dot belief := by
  let set : Finset State := alpha.values.keys.toFinset ∪ beta.values.keys.toFinset
  have hset : ∀ state, state ∈ set ↔ state ∈ alpha.values ∨ state ∈ beta.values := by
    intro state
    rw [Finset.mem_union, List.mem_toFinset, List.mem_toFinset, Std.ExtTreeMap.mem_keys,
      Std.ExtTreeMap.mem_keys]
  have hjoins := joins_add alpha beta
  calc (alpha + beta).dot belief
      = ∑ state ∈ set, (alpha + beta).get state * belief.get state :=
        dot_eq_sum _ _ fun state hstate => (hset state).mpr ((hjoins.mem_iff state).mp hstate)
    _ = ∑ state ∈ set, (alpha.get state * belief.get state + beta.get state * belief.get state) :=
        Finset.sum_congr rfl fun state _ => by rw [hjoins.get_eq, add_mul]
    _ = ∑ state ∈ set, alpha.get state * belief.get state
          + ∑ state ∈ set, beta.get state * belief.get state := Finset.sum_add_distrib
    _ = alpha.dot belief + beta.dot belief := by
        rw [dot_eq_sum alpha belief fun state h => (hset state).mpr (.inl h),
          dot_eq_sum beta belief fun state h => (hset state).mpr (.inr h)]

/-- **A cross sum of sparse vectors.**  An empty list leaves the other one as it is; otherwise
there is a sum for every pair of members, in the order of the pairs, and the greatest value at a
belief is the sum of the greatest values of the two lists. -/
theorem crossSum_joins [IsStrictOrderedRing K] (left right : List (AlphaVector K)) :
    (left = [] → crossSum left right = right) ∧ (right = [] → crossSum left right = left) ∧
    (left ≠ [] → right ≠ [] →
      (crossSum left right).length = left.length * right.length ∧
      (∀ (i : Fin left.length) (j : Fin right.length), ∃ sum,
        (crossSum left right)[i.val * right.length + j.val]? = some sum ∧
          Joins sum left[i] right[j]) ∧
      ∀ belief : Belief K, ∃ x y, (left.map (·.dot belief)).max? = some x ∧
        (right.map (·.dot belief)).max? = some y ∧
        ((crossSum left right).map (·.dot belief)).max? = some (x + y)) := by
  refine ⟨?_, ?_, fun hleft hright => ⟨length_crossSum hleft hright, fun i j => ?_,
    fun belief => ?_⟩⟩
  · rintro rfl
    rfl
  · rintro rfl
    exact crossSum_nil_right left
  · exact ⟨_, getElem?_crossSum (List.getElem?_eq_getElem i.isLt) (List.getElem?_eq_getElem j.isLt),
      joins_add _ _⟩
  · obtain ⟨x, hx⟩ := Option.isSome_iff_exists.mp
      (List.isSome_max?_of_ne_nil (l := left.map (·.dot belief)) (by simpa using hleft))
    obtain ⟨y, hy⟩ := Option.isSome_iff_exists.mp
      (List.isSome_max?_of_ne_nil (l := right.map (·.dot belief)) (by simpa using hright))
    exact ⟨x, y, hx, hy, max?_crossSum (fun u _ v _ => dot_add u v belief) hx hy⟩

/-- Two vectors about one state each. -/
def single : List (AlphaVector ℚ) :=
  [.ofList (.named .action "look") [(.named .state "left", 1)],
    .ofList (.named .action "lift") [(.named .state "right", -2)]]

/-- A vector about one state, one about both, and one about none. -/
def mixed : List (AlphaVector ℚ) :=
  [.ofList (.named .action "lift") [(.named .state "right", 3)],
    .ofList (.named .action "wait") [(.named .state "left", 1/2), (.named .state "right", 1)],
    .ofList (.named .action "wait") []]

theorem crossSum_joins_mixed :
    crossSum [] mixed = mixed ∧ crossSum single [] = single ∧
    (crossSum single mixed).length = 6 ∧
    (∃ sum, (crossSum single mixed)[4]? = some sum ∧ Joins sum single[1] mixed[1]) ∧
    ∀ belief : Belief ℚ, ∃ x y, (single.map (·.dot belief)).max? = some x ∧
      (mixed.map (·.dot belief)).max? = some y ∧
      ((crossSum single mixed).map (·.dot belief)).max? = some (x + y) := by
  obtain ⟨hlength, hjoins, hmax⟩ :=
    (crossSum_joins single mixed).2.2 (List.cons_ne_nil _ _) (List.cons_ne_nil _ _)
  exact ⟨(crossSum_joins [] mixed).1 rfl, (crossSum_joins single []).2.1 rfl, hlength,
    hjoins ⟨1, by decide⟩ ⟨1, by decide⟩, hmax⟩

end AlphaVector

end MarkovPlanning
