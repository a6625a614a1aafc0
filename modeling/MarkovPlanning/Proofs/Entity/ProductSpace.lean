/-
What a product space answers after any number of calls.

A call is either refused, for a reason that can be read off the factors (`Call.Refused`), and then
nothing changes; or it is an edit, which makes the product stale; or it forms the product
(`perform_cases`).  So the product can be had if it was formed since the last edit that was
accepted (`Fresh`), and then it is the product of the factors as they stand: going through them
depth first adds the joint of every tuple (`holds_expand`), and since the joint keeps the whole
tuple (`Entity.joint_injective`), there are as many joints as there are tuples, whatever their
hashes are.
-/
import MarkovPlanning.Entity.ProductSpace
import MarkovPlanning.Proofs.Entity.Changes
import Mathlib

namespace MarkovPlanning

open Entity

variable {kind : Kind}

/-- A joint is made of one tuple only. -/
theorem Entity.joint_injective : Function.Injective (@Entity.joint kind) := by
  intro tuple tuple' heq
  have hparts (labels : List Label) : (Label.ofParts labels).parts = labels := by
    cases labels <;> rfl
  have hlabel : (joint tuple).label.parts = (joint tuple').label.parts := by rw [heq]
  refine List.map_injective_iff.mpr (fun a b hab => Entity.ext hab) ?_
  rwa [joint, joint, hparts, hparts] at hlabel

namespace ProductSpace

/-! ### Tuples -/

section
variable {factors : List (List (Entity kind))} {tuple : List (Entity kind)}

/-- The tuples with one member of each factor. -/
def tuples : List (List (Entity kind)) → Finset (List (Entity kind))
  | [] => {[]}
  | factor :: rest => Finset.image₂ List.cons factor.toFinset (tuples rest)

theorem mem_tuples : tuple ∈ tuples factors ↔ List.Forall₂ (· ∈ ·) tuple factors := by
  induction factors generalizing tuple with
  | nil => rw [tuples, Finset.mem_singleton, List.forall₂_nil_right_iff]
  | cons factor rest ih =>
      simp only [tuples, Finset.mem_image₂, List.mem_toFinset, List.forall₂_cons_right_iff, ih]
      grind

theorem card_tuples :
    (tuples factors).card = (factors.map fun factor => factor.toFinset.card).prod := by
  induction factors with
  | nil => rfl
  | cons factor rest ih =>
      have hcons : Function.Injective2 (@List.cons (Entity kind)) :=
        fun _ _ _ _ h => List.cons.inj h
      rw [tuples, Finset.card_image₂ hcons, ih, List.map_cons, List.prod_cons]

/-- The joints of the tuples. -/
def joints (factors : List (List (Entity kind))) : Finset (Entity kind) :=
  (tuples factors).image Entity.joint

theorem mem_joints {entity : Entity kind} :
    entity ∈ joints factors ↔
      ∃ tuple, List.Forall₂ (· ∈ ·) tuple factors ∧ Entity.joint tuple = entity := by
  simp only [joints, Finset.mem_image, mem_tuples]

theorem card_joints :
    (joints factors).card = (factors.map fun factor => factor.toFinset.card).prod := by
  rw [joints, Finset.card_image_of_injective _ Entity.joint_injective, card_tuples]

end

/-- **Going through the factors depth first adds the joint of every tuple.** -/
theorem holds_expand (left : List (List (Entity kind))) (chosen : List (Entity kind))
    {product : Buckets kind} {members : Finset (Entity kind)} (h : product.Holds members) :
    (expand left chosen product).Holds
      (members ∪ (tuples left).image fun tuple => Entity.joint (chosen ++ tuple)) := by
  induction left generalizing chosen product members with
  | nil =>
      rw [expand, tuples, Finset.image_singleton, List.append_nil, Finset.union_comm,
        ← Finset.insert_eq]
      exact h.add _
  | cons factor left ih =>
      rw [expand, tuples]
      induction factor generalizing product members with
      | nil => simpa using h
      | cons entity rest ihrest =>
          have hrest := ihrest (ih (chosen ++ [entity]) h)
          rw [Finset.union_assoc] at hrest
          rw [List.foldl_cons, List.toFinset_cons, Finset.image₂_insert_left, Finset.image_union,
            Finset.image_image]
          simpa only [Function.comp_def, List.append_assoc, List.singleton_append] using hrest

/-! ### One call -/

/-- A call that may change a product space. -/
inductive Call (kind : Kind) where
  | addFactor (members : List (Entity kind))
  | add (index : Nat) (entity : Entity kind)
  | remove (index : Nat) (entity : Entity kind)
  | replace (index : Nat) (members : List (Entity kind))
  | form

/-- What a call answers if only the fault matters, and the space after it. -/
def perform (space : ProductSpace kind) : Call kind → Except Error Unit × ProductSpace kind
  | .addFactor members => report .definition (space.addFactor members)
  | .add index entity => report .lookup (space.add index entity)
  | .remove index entity => report .lookup (space.remove index entity)
  | .replace index members => space.replace index members
  | .form => report .definition space.form
where
  report {ε β : Type} (cause : ε → Error) (outcome : Except ε β × ProductSpace kind) :
      Except Error Unit × ProductSpace kind :=
    ((outcome.1.map fun _ => ()).mapError cause, outcome.2)

namespace Call

/-- The calls that are refused, with the reason. -/
inductive Refused (factors : List (List (Entity kind))) : Call kind → Error → Prop
  | addNothing : Refused factors (addFactor []) (.definition (.noMembers kind))
  | addOutside {index : Nat} {entity : Entity kind} : factors.length ≤ index →
      Refused factors (add index entity) (.lookup (.indexOutOfRange index factors.length))
  | removeOutside {index : Nat} {entity : Entity kind} : factors.length ≤ index →
      Refused factors (remove index entity) (.lookup (.indexOutOfRange index factors.length))
  | removeMissing {index : Nat} {entity : Entity kind} {members : List (Entity kind)} :
      factors[index]? = some members → entity ∉ members →
      Refused factors (remove index entity) (.lookup (.notFound kind entity.name))
  | replaceByNothing {index : Nat} :
      Refused factors (replace index []) (.definition (.noMembers kind))
  | replaceOutside {index : Nat} {members : List (Entity kind)} : members ≠ [] →
      factors.length ≤ index →
      Refused factors (replace index members) (.lookup (.indexOutOfRange index factors.length))
  /-- The first factor without members is reported. -/
  | formEmpty {index : Nat} : factors[index]? = some [] →
      (∀ earlier < index, factors[earlier]? ≠ some []) →
      Refused factors form (.definition (.emptyFactor kind index))

/-- The factors after a call that is accepted. -/
def edited (factors : List (List (Entity kind))) : Call kind → List (List (Entity kind))
  | addFactor members => factors ++ [members]
  | add index entity => factors.modify index (· ++ [entity])
  | remove index entity => factors.modify index (·.erase entity)
  | replace index members => factors.set index members
  | form => factors

end Call

section
variable {space : ProductSpace kind} {call : Call kind} {fault : Error}

theorem factor_eq_ok {index : Nat} {members : List (Entity kind)}
    (h : space.factors[index]? = some members) : space.factor index = .ok members := by
  rw [factor, h]

theorem factor_eq_error {index : Nat} (h : space.factors.length ≤ index) :
    space.factor index = .error (.indexOutOfRange index space.factors.length) := by
  rw [factor, List.getElem?_eq_none h]

theorem set_eq_modify {factors : List (List (Entity kind))} {index : Nat}
    {members : List (Entity kind)} (h : factors[index]? = some members)
    (change : List (Entity kind) → List (Entity kind)) :
    factors.set index (change members) = factors.modify index change := by
  rw [List.modify_eq_set_getElem?, h]
  rfl

/-- The first empty factor is found. -/
theorem findIdx?_isEmpty {factors : List (List (Entity kind))} {index : Nat} :
    factors.findIdx? List.isEmpty = some index ↔
      factors[index]? = some [] ∧ ∀ earlier < index, factors[earlier]? ≠ some [] := by
  rw [List.findIdx?_eq_some_iff_getElem]
  constructor
  · rintro ⟨hlt, hempty, hfirst⟩
    refine ⟨List.getElem?_eq_some_iff.mpr ⟨hlt, List.isEmpty_iff.mp hempty⟩,
      fun earlier hearlier hget => hfirst earlier hearlier ?_⟩
    obtain ⟨_, hnil⟩ := List.getElem?_eq_some_iff.mp hget
    rw [hnil, List.isEmpty_nil]
  · rintro ⟨hget, hfirst⟩
    obtain ⟨hlt, hget⟩ := List.getElem?_eq_some_iff.mp hget
    refine ⟨hlt, by rw [hget, List.isEmpty_nil], fun earlier hearlier hempty =>
      hfirst earlier hearlier ?_⟩
    exact List.getElem?_eq_some_iff.mpr ⟨hearlier.trans hlt, List.isEmpty_iff.mp hempty⟩

/-- **A refused call gives the reason and changes nothing.** -/
theorem perform_refused (h : call.Refused space.factors fault) :
    space.perform call = (.error fault, space) := by
  cases h with
  | addNothing => rfl
  | addOutside hindex => rw [perform, add, factor_eq_error hindex]; rfl
  | removeOutside hindex => rw [perform, remove, factor_eq_error hindex]; rfl
  | removeMissing hget hmem =>
      rw [perform, remove, factor_eq_ok hget]
      dsimp only
      rw [if_neg hmem]
      rfl
  | replaceByNothing => rfl
  | replaceOutside hne hindex =>
      rw [perform, replace, if_neg (by simpa using hne), factor_eq_error hindex]
  | formEmpty hget hfirst => rw [perform, form, findIdx?_isEmpty.mpr ⟨hget, hfirst⟩]; rfl

/-- **A call is refused, or it edits the factors and makes the product stale, or it forms the
product.** -/
theorem perform_cases (space : ProductSpace kind) (call : Call kind) :
    (∃ fault, call.Refused space.factors fault) ∨
      (call ≠ .form ∧
        space.perform call = (.ok (), space.refactored (call.edited space.factors))) ∨
      (call = .form ∧ space.perform call =
        (.ok (), { space with formed := expand space.factors [] {}, stale := false })) := by
  rcases call with members | ⟨index, entity⟩ | ⟨index, entity⟩ | ⟨index, members⟩ | _
  case addFactor =>
    cases members with
    | nil => exact .inl ⟨_, .addNothing⟩
    | cons first rest => exact .inr (.inl ⟨nofun, rfl⟩)
  case add =>
    cases hget : space.factors[index]? with
    | none => exact .inl ⟨_, .addOutside (List.getElem?_eq_none_iff.mp hget)⟩
    | some members =>
        refine .inr (.inl ⟨nofun, ?_⟩)
        rw [perform, add, factor_eq_ok hget, Call.edited, ← set_eq_modify hget]
        rfl
  case remove =>
    cases hget : space.factors[index]? with
    | none => exact .inl ⟨_, .removeOutside (List.getElem?_eq_none_iff.mp hget)⟩
    | some members =>
        by_cases hmem : entity ∈ members
        · refine .inr (.inl ⟨nofun, ?_⟩)
          rw [perform, remove, factor_eq_ok hget, Call.edited, ← set_eq_modify hget]
          dsimp only
          rw [if_pos hmem]
          rfl
        · exact .inl ⟨_, .removeMissing hget hmem⟩
  case replace =>
    cases members with
    | nil => exact .inl ⟨_, .replaceByNothing⟩
    | cons first rest =>
        cases hget : space.factors[index]? with
        | none =>
            exact .inl ⟨_, .replaceOutside (List.cons_ne_nil _ _)
              (List.getElem?_eq_none_iff.mp hget)⟩
        | some _ =>
            refine .inr (.inl ⟨nofun, ?_⟩)
            rw [perform, replace, factor_eq_ok hget]
            rfl
  case form =>
    cases hfirst : space.factors.findIdx? List.isEmpty with
    | some index =>
        obtain ⟨hget, hfirst⟩ := findIdx?_isEmpty.mp hfirst
        exact .inl ⟨_, .formEmpty hget hfirst⟩
    | none =>
        refine .inr (.inr ⟨rfl, ?_⟩)
        rw [perform, form, hfirst]
        rfl

end

/-! ### Any calls -/

/-- The space after some calls on a space of so many empty factors. -/
def run (size : Nat) (calls : List (Call kind)) : ProductSpace kind :=
  calls.foldl (fun space call => (space.perform call).2) (ofSize kind size)

/-- A call that is accepted after some others. -/
def Accepted (size : Nat) (calls : List (Call kind)) (call : Call kind) : Prop :=
  ((run size calls).perform call).1 = .ok ()

/-- The forming of the product was accepted, and no edit was accepted since. -/
def Fresh (size : Nat) (calls : List (Call kind)) : Prop :=
  ∃ before after, calls = before ++ .form :: after ∧ Accepted size before .form ∧
    ∀ earlier call later, after = earlier ++ call :: later → call ≠ .form →
      ¬Accepted size (before ++ .form :: earlier) call

section
variable {size : Nat} {calls : List (Call kind)} {last : Call kind}

theorem run_concat : run size (calls ++ [last]) = ((run size calls).perform last).2 := by
  rw [run, List.foldl_concat, ← run]

theorem not_fresh_nil : ¬Fresh size ([] : List (Call kind)) := by
  rintro ⟨before, after, h, -⟩
  simp at h

theorem fresh_concat :
    Fresh size (calls ++ [last]) ↔
      last = .form ∧ Accepted size calls .form ∨
        Fresh size calls ∧ (last ≠ .form → ¬Accepted size calls last) := by
  constructor
  · rintro ⟨before, after, h, haccepted, hedits⟩
    rcases concat_eq_append_cons_iff.mp h with ⟨rfl, hlast, rfl⟩ | ⟨rest, rfl, rfl⟩
    · exact .inl ⟨hlast, haccepted⟩
    · refine .inr ⟨⟨before, rest, rfl, haccepted, ?_⟩, hedits rest last [] rfl⟩
      rintro earlier call later rfl
      exact hedits earlier call (later ++ [last]) (by simp)
  · rintro (⟨rfl, haccepted⟩ | ⟨⟨before, after, rfl, haccepted, hedits⟩, hlast⟩)
    · exact ⟨calls, [], rfl, haccepted, by simp⟩
    · refine ⟨before, after ++ [last], by simp, haccepted, fun earlier call later h => ?_⟩
      rcases concat_eq_append_cons_iff.mp h with ⟨rfl, rfl, -⟩ | ⟨rest, rfl, -⟩
      · exact hlast
      · exact hedits earlier call rest rfl

/-- A product that is not stale was formed since the last edit. -/
theorem stale_run : (run size calls).stale = false ↔ Fresh size calls := by
  induction calls using List.reverseRecOn with
  | nil => exact iff_of_false nofun not_fresh_nil
  | append_singleton calls last ih =>
      rw [run_concat, fresh_concat]
      obtain ⟨fault, hrefused⟩ | ⟨hedit, hperform⟩ | ⟨rfl, hperform⟩ :=
        perform_cases (run size calls) last
      · have hnot : ¬Accepted size calls last := by
          rw [Accepted, perform_refused hrefused]
          nofun
        rw [perform_refused hrefused, ih, or_iff_right, and_iff_left fun _ => hnot]
        rintro ⟨rfl, haccepted⟩
        exact hnot haccepted
      · have haccepted : Accepted size calls last := by rw [Accepted, hperform]
        rw [hperform]
        refine iff_of_false nofun ?_
        rintro (⟨hform, -⟩ | ⟨-, hlast⟩)
        · exact hedit hform
        · exact hlast hedit haccepted
      · have haccepted : Accepted size calls .form := by rw [Accepted, hperform]
        rw [hperform]
        exact iff_of_true rfl (.inl ⟨rfl, haccepted⟩)

/-- A product that is not stale holds the joints of the tuples. -/
theorem holds_formed (h : (run size calls).stale = false) :
    (run size calls).formed.Holds (joints (run size calls).factors) := by
  induction calls using List.reverseRecOn with
  | nil => cases h
  | append_singleton calls last ih =>
      rw [run_concat] at h ⊢
      obtain ⟨fault, hrefused⟩ | ⟨hedit, hperform⟩ | ⟨rfl, hperform⟩ :=
        perform_cases (run size calls) last
      · rw [perform_refused hrefused] at h ⊢
        exact ih h
      · rw [hperform] at h
        cases h
      · rw [hperform]
        have hexpand := holds_expand (run size calls).factors [] Buckets.Holds.empty
        rw [Finset.empty_union] at hexpand
        exact hexpand

end

/-! ### Answers -/

/-- Buckets that hold the joint of every tuple with one member of each factor. -/
structure IsProduct (product : Buckets kind) (factors : List (List (Entity kind))) : Prop where
  /-- The buckets answer as the set of the joints, so a walk meets each of them once. -/
  answers : ∃ members : Finset (Entity kind), product.Answers members ∧
    ∀ entity, entity ∈ members ↔
      ∃ tuple, List.Forall₂ (· ∈ ·) tuple factors ∧ Entity.joint tuple = entity
  /-- No two tuples have one joint, even if the joints share a hash. -/
  apart : ∀ tuple tuple', List.Forall₂ (· ∈ ·) tuple factors →
    List.Forall₂ (· ∈ ·) tuple' factors → Entity.joint tuple = Entity.joint tuple' →
      tuple = tuple'
  /-- There are as many joints as there are choices of one entity from each factor. -/
  size_eq : product.size = (factors.map fun factor => factor.toFinset.card).prod

theorem isProduct_of_holds {product : Buckets kind} {factors : List (List (Entity kind))}
    (h : product.Holds (joints factors)) : IsProduct product factors where
  answers := ⟨joints factors, h.answers, fun _ => mem_joints⟩
  apart _ _ _ _ heq := Entity.joint_injective heq
  size_eq := by rw [h.size_eq, card_joints]

section
variable {space : ProductSpace kind} {call : Call kind} {fault : Error}

theorem product_eq_ok_iff {product : Buckets kind} :
    space.product = .ok product ↔ space.stale = false ∧ space.formed = product := by
  unfold ProductSpace.product
  cases space.stale <;> simp

theorem product_eq_error_iff {fault : DefinitionFault} :
    space.product = .error fault ↔ space.stale = true ∧ fault = .staleProduct kind := by
  unfold ProductSpace.product
  cases space.stale <;> simp [eq_comm]

theorem perform_eq_error_iff :
    (space.perform call).1 = .error fault ↔ call.Refused space.factors fault := by
  constructor
  · intro h
    obtain ⟨fault', hrefused⟩ | ⟨-, hperform⟩ | ⟨-, hperform⟩ := perform_cases space call
    · rw [perform_refused hrefused] at h
      exact Except.error.inj h ▸ hrefused
    · rw [hperform] at h
      cases h
    · rw [hperform] at h
      cases h
  · intro h
    rw [perform_refused h]

theorem factors_perform (h : (space.perform call).1 = .ok ()) :
    (space.perform call).2.factors = call.edited space.factors := by
  obtain ⟨fault, hrefused⟩ | ⟨-, hperform⟩ | ⟨rfl, hperform⟩ := perform_cases space call
  · rw [perform_refused hrefused] at h
    cases h
  · rw [hperform]
    rfl
  · rw [hperform]
    rfl

end

/-- **After any calls the product can be had if it was formed since the last edit, and it is the
product of the factors as they stand.**  A call that is refused changes nothing, and one that is
accepted changes the factors as it says. -/
theorem run_product (size : Nat) (calls : List (Call kind)) :
    ((∃ product, (run size calls).product = .ok product) ↔ Fresh size calls) ∧
      (∀ fault, (run size calls).product = .error fault ↔
        ¬Fresh size calls ∧ fault = .staleProduct kind) ∧
      (∀ product, (run size calls).product = .ok product →
        IsProduct product (run size calls).factors) ∧
      (∀ call fault, ((run size calls).perform call).1 = .error fault ↔
        call.Refused (run size calls).factors fault) ∧
      (∀ call fault, ((run size calls).perform call).1 = .error fault →
        ((run size calls).perform call).2 = run size calls) ∧
      ∀ call, ((run size calls).perform call).1 = .ok () →
        ((run size calls).perform call).2.factors = call.edited (run size calls).factors := by
  refine ⟨?_, fun fault => ?_, fun product h => ?_, fun call fault => perform_eq_error_iff,
    fun call fault h => ?_, fun call => factors_perform⟩
  · simp only [product_eq_ok_iff, exists_and_left, exists_eq', and_true, stale_run]
  · rw [product_eq_error_iff, ← stale_run, Bool.not_eq_false]
  · obtain ⟨hstale, rfl⟩ := product_eq_ok_iff.mp h
    exact isProduct_of_holds (holds_formed hstale)
  · rw [perform_refused (perform_eq_error_iff.mp h)]

/-- A product of four joints, two of which share a hash. -/
theorem run_product_of_colliding :
    let left : List State := [.named .state "s0", .named .state "s1"]
    let right : List State := [.named .state "a1", .named .state "b1"]
    let space := run 2 [.replace 0 left, .replace 1 right, .form]
    (Entity.joint [left[0], right[1]]).hash = (Entity.joint [left[1], right[0]]).hash ∧
      ∃ product, space.product = .ok product ∧ IsProduct product [left, right] ∧
        product.size = 4 := by
  intro left right space
  obtain ⟨-, -, hproduct, -⟩ := run_product 2 [.replace 0 left, .replace 1 right, .form]
  have hformed := hproduct _ (product_eq_ok_iff.mpr ⟨rfl, rfl⟩)
  refine ⟨by decide +kernel, space.formed, rfl, hformed, hformed.size_eq.trans ?_⟩
  decide +kernel

end ProductSpace

end MarkovPlanning
