/-
Finding a joint by its name.

The name of a joint is the names of its members with a blank between two of them (`name_joint`).
In general a name does not tell the joint: the members of "a b c" may be "a b" and "c" as well as
"a" and "b c".  If every member is an entity with a name of its own that has no blank, then the
name can be cut at its blanks, and the pieces are the names of the members, an empty one included
(`eq_of_name_joint`).  What is needed besides is that the number of members is known, because the
joint of nothing has the name of the joint of one entity with the empty name.

So in a product space of such entities every choice of members is found under its name, whatever
the hashes of the joints are, and nothing else is found (`find_joined`).
-/
import MarkovPlanning.Proofs.Entity.ProductSpace
import MarkovPlanning.Proofs.Entity.Construction
import Mathlib

namespace MarkovPlanning

variable {kind : Kind}

/-! ### The name of a joint -/

theorem Label.textFrom_eq (acc : String) (labels : List Label) :
    Label.textFrom acc labels = " ".intercalate (acc :: labels.map Label.text) := by
  induction labels generalizing acc with
  | nil => rw [Label.textFrom, List.map_nil, String.intercalate_singleton]
  | cons first rest ih =>
      rw [Label.textFrom, ih, String.intercalate_cons_append, List.map_cons,
        String.intercalate_cons_cons]

namespace Entity

variable {tuple tuple' : List (Entity kind)} {entity entity' : Entity kind}

theorem name_joint (tuple : List (Entity kind)) :
    (joint tuple).name = " ".intercalate (tuple.map name) := by
  cases tuple with
  | nil => rfl
  | cons first rest =>
      show Label.textFrom first.name (rest.map label) = _
      rw [Label.textFrom_eq, List.map_map]
      rfl

/-- A named entity whose name has no blank. -/
structure Unspaced (entity : Entity kind) : Prop where
  named : entity.isFactored = false
  blankless : ' ' ∉ entity.name.toList

instance : DecidablePred (@Unspaced kind) := fun entity =>
  decidable_of_iff (entity.isFactored = false ∧ ' ' ∉ entity.name.toList)
    ⟨fun h => ⟨h.1, h.2⟩, fun h => ⟨h.1, h.2⟩⟩

theorem factors_eq_nil (h : entity.isFactored = false) : entity.factors = [] := by
  have hparts : entity.label.parts = [] := by simpa [isFactored] using h
  rw [factors, hparts, List.map_nil]

/-- The name tells a named entity. -/
theorem Unspaced.eq_of_name (h : entity.Unspaced) (h' : entity'.Unspaced)
    (hname : entity.name = entity'.name) : entity = entity' :=
  eq_iff_name_factors.mpr ⟨hname, by rw [factors_eq_nil h.named, factors_eq_nil h'.named]⟩

/-- The pieces of the name of a joint are the names of its members. -/
theorem splitOn_name_joint (hne : tuple ≠ []) (h : ∀ entity ∈ tuple, entity.Unspaced) :
    (joint tuple).name.toList.splitOn ' ' = tuple.map fun entity => entity.name.toList := by
  rw [name_joint, String.toList_intercalate, List.map_map]
  refine List.splitOn_intercalate ' ' (fun piece hpiece => ?_) (by simpa using hne)
  obtain ⟨entity, hentity, rfl⟩ := List.mem_map.mp hpiece
  exact (h entity hentity).blankless

/-- **Joints of as many entities with names of their own have one name only if they are one.** -/
theorem eq_of_name_joint (h : ∀ entity ∈ tuple, entity.Unspaced)
    (h' : ∀ entity ∈ tuple', entity.Unspaced) (hlength : tuple.length = tuple'.length)
    (hname : (joint tuple).name = (joint tuple').name) : tuple = tuple' := by
  rcases tuple with _ | ⟨first, rest⟩
  · exact (List.eq_nil_of_length_eq_zero hlength.symm).symm
  have hne' : tuple' ≠ [] := by
    rintro rfl
    cases hlength
  have hpieces := splitOn_name_joint (List.cons_ne_nil first rest) h
  rw [hname, splitOn_name_joint hne' h'] at hpieces
  refine List.ext_getElem hlength fun index hlt hlt' => ?_
  refine (h _ (List.getElem_mem hlt)).eq_of_name (h' _ (List.getElem_mem hlt')) ?_
  have hpiece := congrArg (·[index]?) hpieces
  simp only [List.getElem?_map, List.getElem?_eq_getElem hlt, List.getElem?_eq_getElem hlt',
    Option.map_some, Option.some_inj, String.toList_inj] at hpiece
  exact hpiece.symm

/-- Names with blanks in them can be cut in more than one way. -/
example :
    (joint [named .state "a b", named .state "c"]).name =
      (joint [named .state "a", named .state "b c"]).name := by
  decide +kernel

end Entity

/-! ### Finding -/

namespace ProductSpace

/-- A product that can be had is searched. -/
theorem find_eq {space : ProductSpace kind} {product : Buckets kind}
    (h : space.product = .ok product) (text : String) :
    space.find text = (product.find text).mapError Error.lookup := by
  unfold ProductSpace.find
  rw [h]
  rfl

/-- What holds of the members of all factors holds of those that are chosen. -/
theorem forall_mem_of_choice {factors : List (List (Entity kind))} {tuple : List (Entity kind)}
    {p : Entity kind → Prop} (h : List.Forall₂ (· ∈ ·) tuple factors)
    (hall : ∀ factor ∈ factors, ∀ entity ∈ factor, p entity) : ∀ entity ∈ tuple, p entity := by
  induction h with
  | nil => exact nofun
  | cons hfirst _ ih =>
      rw [List.forall_mem_cons] at hall ⊢
      exact ⟨hall.1 _ hfirst, ih hall.2⟩

/-- The names of a tuple with a blank between two of them. -/
def joined (tuple : List (Entity kind)) : String := " ".intercalate (tuple.map Entity.name)

/-- **In a product of named entities without blanks every choice is found under its name, and
nothing else is found.** -/
theorem find_joined {size : Nat} {calls : List (Call kind)} (hfresh : Fresh size calls)
    (hunspaced : ∀ factor ∈ (run size calls).factors, ∀ entity ∈ factor, entity.Unspaced) :
    (∀ tuple, List.Forall₂ (· ∈ ·) tuple (run size calls).factors →
      (run size calls).find (joined tuple) = .ok (.joint tuple)) ∧
    ∀ text, (∀ tuple, List.Forall₂ (· ∈ ·) tuple (run size calls).factors → joined tuple ≠ text) →
      (run size calls).find text = .error (.lookup (.notFound kind text)) := by
  have hstale := stale_run.mpr hfresh
  have hanswers := (holds_formed hstale).answers
  have hfind := find_eq (product_eq_ok_iff.mpr ⟨hstale, rfl⟩)
  generalize (run size calls).factors = factors at *
  have hchoice {tuple : List (Entity kind)} (h : List.Forall₂ (· ∈ ·) tuple factors) :=
    forall_mem_of_choice h hunspaced
  constructor
  · intro tuple htuple
    have hfound : (run size calls).formed.find (joined tuple) = .ok (.joint tuple) := by
      refine (hanswers.find_iff _ _).mpr
        ⟨mem_joints.mpr ⟨tuple, htuple, rfl⟩, Entity.name_joint tuple, ?_⟩
      -- no other joint has the name, so there is none to precede
      intro other hother hname hne
      obtain ⟨tuple', htuple', rfl⟩ := mem_joints.mp hother
      refine absurd (congrArg Entity.joint ?_) hne
      refine Entity.eq_of_name_joint (hchoice htuple') (hchoice htuple)
        (htuple'.length_eq.trans htuple.length_eq.symm) ?_
      rw [hname, Entity.name_joint, joined]
    rw [hfind, hfound]
    rfl
  · intro text hnone
    have hmissing : (run size calls).formed.find text = .error (.notFound kind text) := by
      refine (hanswers.find_error_iff _ _).mpr ⟨fun entity hentity hname => ?_, rfl⟩
      obtain ⟨tuple, htuple, rfl⟩ := mem_joints.mp hentity
      exact hnone tuple htuple (by rw [← hname, Entity.name_joint, joined])
    rw [hfind, hmissing]
    rfl

/-- Two joints that share a hash, a member with the empty name, and texts that are no names. -/
theorem find_joined_of_colliding :
    let left : List State := [.named .state "s0", .named .state "s1"]
    let right : List State := [.named .state "a1", .named .state "b1", .named .state ""]
    let calls := [.replace 0 left, .replace 1 right, .form]
    let space := run 2 calls
    (Entity.joint [left[0], right[1]]).hash = (Entity.joint [left[1], right[0]]).hash ∧
      space.find "s0 b1" = .ok (.joint [left[0], right[1]]) ∧
      space.find "s1 a1" = .ok (.joint [left[1], right[0]]) ∧
      space.find "s0 " = .ok (.joint [left[0], right[2]]) ∧
      space.find "s0" = .error (.lookup (.notFound .state "s0")) ∧
      space.find "s0  b1" = .error (.lookup (.notFound .state "s0  b1")) := by
  intro left right calls space
  have hfresh : Fresh 2 calls := stale_run.mp rfl
  obtain ⟨hfound, hmissing⟩ := find_joined hfresh (by decide +kernel)
  have hnamed (tuple : List State) (text : String) (htuple : tuple ∈ tuples [left, right])
      (htext : joined tuple = text) : space.find text = .ok (.joint tuple) := by
    rw [← htext]
    exact hfound tuple (mem_tuples.mp htuple)
  have hunnamed (text : String) (htext : ∀ tuple ∈ tuples [left, right], joined tuple ≠ text) :
      space.find text = .error (.lookup (.notFound .state text)) :=
    hmissing text fun tuple htuple => htext tuple (mem_tuples.mpr htuple)
  refine ⟨by decide +kernel, hnamed _ _ ?_ ?_, hnamed _ _ ?_ ?_, hnamed _ _ ?_ ?_,
    hunnamed _ ?_, hunnamed _ ?_⟩
  all_goals decide +kernel

end ProductSpace

end MarkovPlanning
