/-
When two entities are the same.

An entity is put together by naming and by joining what was put together before.  What it carries
along, a hash and a name, tells less than that: names share hashes, and a joint may have the name
of another entity.  So the hash and the name are asked first when entities are compared, and then
their members, in the same way (`beq_eq`, `compare_eq_members`).  Entities are the keys of every
table, so this is also when two entries are one.

A construction can be read off the label of what it builds, but for one thing: the joint of nothing
is the entity with the empty name (`ofLabel_build`).  With that joint read as this name, entities
are equal exactly if they were built alike, which is what the order says as well
(`build_identity`).
-/
import MarkovPlanning.Entity.Basic
import Mathlib

namespace MarkovPlanning

variable {kind : Kind}

/-! ### Comparing step by step -/

namespace Entity

variable {a b : Entity kind}

theorem factors_inj : a.factors = b.factors ↔ a.label.parts = b.label.parts := by
  refine List.map_inj_right fun part part' heq => ?_
  exact congrArg Entity.label heq

theorem eq_iff_name_factors : a = b ↔ a.name = b.name ∧ a.factors = b.factors := by
  rw [factors_inj]
  constructor
  · rintro rfl
    exact ⟨rfl, rfl⟩
  · rintro ⟨hname, hparts⟩
    exact Entity.ext (Label.eq_of_text_of_parts hname hparts)

/-- **Equality asks for the hash, the name and the members.** -/
theorem beq_eq (a b : Entity kind) :
    (a == b) = (a.hash == b.hash && (a.name == b.name && a.factors == b.factors)) := by
  rw [Bool.eq_iff_iff]
  simp only [Bool.and_eq_true, beq_iff_eq]
  rw [eq_iff_name_factors, iff_and_self]
  intro h
  rw [eq_iff_name_factors.mpr h]

/-- Tuples of labels are in order as the tuples of entities with these labels. -/
theorem compareParts_eq (kind : Kind) : ∀ parts parts' : List Label,
    Label.compareParts parts parts' =
      compare (parts.map fun part => ({ label := part } : Entity kind))
        (parts'.map fun part => ({ label := part } : Entity kind))
  | [], [] => by simp only [Label.compareParts]; rfl
  | [], _ :: _ => by simp only [Label.compareParts]; rfl
  | _ :: _, [] => by simp only [Label.compareParts]; rfl
  | part :: parts, part' :: parts' => by
      have hfirst : compare part part' =
          compare ({ label := part } : Entity kind) { label := part' } := by rw [compare_eq]
      rw [Label.compareParts_cons, compareParts_eq kind parts parts', hfirst]
      exact List.compareLex_cons_cons.symm

/-- **The order asks for the hash, the name and the members**, the members from the left. -/
theorem compare_eq_members (a b : Entity kind) :
    compare a b = (compare a.hash b.hash).then
      ((compare a.name b.name).then (compare a.factors b.factors)) := by
  show (compare a.hash b.hash).then (Label.compareWithin a.label b.label) = _
  rw [Label.compareWithin_eq, compareParts_eq kind]
  rfl

instance : IsLinearOrder (Entity kind) fun a b => (compare a b).isLE = true where
  refl a := by
    have hself : compare a a = .eq := Std.ReflCmp.compare_self
    rw [hself]
    rfl
  trans _ _ _ hab hbc := Std.TransCmp.isLE_trans hab hbc
  antisymm _ _ hab hba := Std.LawfulEqCmp.eq_of_compare (Std.OrientedCmp.isLE_antisymm hab hba)
  total a b := by
    have hswap : compare b a = (compare a b).swap := Std.OrientedCmp.eq_swap
    rw [hswap]
    cases compare a b <;> decide

end Entity

/-! ### Constructions -/

/-- How an entity is put together. -/
inductive Construction where
  | named (name : String)
  | joint (members : List Construction)

namespace Construction

mutual

/-- What is built. -/
def build (kind : Kind) : Construction → Entity kind
  | named name => .named kind name
  | joint members => .joint (buildAll kind members)

def buildAll (kind : Kind) : List Construction → List (Entity kind)
  | [] => []
  | first :: rest => build kind first :: buildAll kind rest

end

mutual

/-- The same construction, with every joint of nothing read as the empty name. -/
def plain : Construction → Construction
  | named name => named name
  | joint [] => named ""
  | joint (first :: rest) => joint (plain first :: plainAll rest)

def plainAll : List Construction → List Construction
  | [] => []
  | first :: rest => plain first :: plainAll rest

end

mutual

/-- The construction that a label tells. -/
def ofLabel : Label → Construction
  | .name text => named text
  | .joint first rest => joint (ofLabel first :: ofLabels rest)

def ofLabels : List Label → List Construction
  | [] => []
  | first :: rest => ofLabel first :: ofLabels rest

end

mutual

/-- **The construction can be read off what is built.** -/
theorem ofLabel_build : ∀ t : Construction, ofLabel (t.build kind).label = t.plain
  | named _ => rfl
  | joint [] => rfl
  | joint (first :: rest) => by
      show joint (ofLabel _ :: ofLabels _) = joint _
      rw [ofLabel_build first, ofLabels_buildAll rest]

theorem ofLabels_buildAll : ∀ members : List Construction,
    ofLabels ((buildAll kind members).map Entity.label) = plainAll members
  | [] => rfl
  | first :: rest => by
      show ofLabel _ :: ofLabels _ = _ :: _
      rw [ofLabel_build first, ofLabels_buildAll rest]

end

mutual

/-- Reading the joint of nothing as the empty name changes nothing that is built. -/
theorem build_plain : ∀ t : Construction, t.plain.build kind = t.build kind
  | named _ => rfl
  | joint [] => rfl
  | joint (first :: rest) => by
      show Entity.joint (_ :: _) = Entity.joint (_ :: _)
      rw [build_plain first, buildAll_plainAll rest]

theorem buildAll_plainAll : ∀ members : List Construction,
    buildAll kind (plainAll members) = buildAll kind members
  | [] => rfl
  | first :: rest => by
      show _ :: _ = _ :: _
      rw [build_plain first, buildAll_plainAll rest]

end

mutual

/-- Every entity is built in some way. -/
theorem build_ofLabel : ∀ label : Label, (ofLabel label).build kind = { label }
  | .name _ => rfl
  | .joint first rest => by
      show Entity.joint (build kind (ofLabel first) :: buildAll kind (ofLabels rest)) = _
      rw [build_ofLabel first, buildAll_ofLabels rest]
      refine Entity.ext ?_
      show Label.joint first ((rest.map _).map Entity.label) = _
      rw [List.map_map]
      exact congrArg (Label.joint first) (List.map_id' rest)

theorem buildAll_ofLabels : ∀ labels : List Label,
    buildAll kind (ofLabels labels) = labels.map fun label => { label }
  | [] => rfl
  | first :: rest => by
      show _ :: _ = _ :: _
      rw [build_ofLabel first, buildAll_ofLabels rest]

end

theorem build_surjective : Function.Surjective (build kind) := fun entity =>
  ⟨ofLabel entity.label, (build_ofLabel entity.label).trans (Entity.ext rfl)⟩

theorem build_eq_iff {t u : Construction} : t.build kind = u.build kind ↔ t.plain = u.plain := by
  constructor
  · intro h
    calc t.plain = ofLabel (t.build kind).label := (ofLabel_build t).symm
      _ = ofLabel (u.build kind).label := by rw [h]
      _ = u.plain := ofLabel_build u
  · intro h
    rw [← build_plain, h, build_plain]

/-- **Entities are equal if they were built alike, and so says the order, which is total.**
Every entity is built in some way, so the statements about entities are about what is built. -/
theorem build_identity (kind : Kind) :
    Function.Surjective (build kind) ∧
      (∀ t u : Construction, (t.build kind == u.build kind) = true ↔ t.plain = u.plain) ∧
      (∀ a b : Entity kind,
        (a == b) = (a.hash == b.hash && (a.name == b.name && a.factors == b.factors)) ∧
          ((a == b) = true → a.hash = b.hash) ∧
          compare a b = (compare a.hash b.hash).then
            ((compare a.name b.name).then (compare a.factors b.factors)) ∧
          (compare a b = .eq ↔ (a == b) = true) ∧
          compare b a = (compare a b).swap) ∧
      IsLinearOrder (Entity kind) fun a b => (compare a b).isLE = true := by
  refine ⟨build_surjective, fun t u => ?_, fun a b => ⟨Entity.beq_eq a b, fun h => ?_,
    Entity.compare_eq_members a b, ?_, Std.OrientedCmp.eq_swap⟩, inferInstance⟩
  · rw [beq_iff_eq, build_eq_iff]
  · rw [beq_iff_eq.mp h]
  · rw [beq_iff_eq, Std.LawfulEqCmp.compare_eq_iff_eq]

/-- Neither a shared hash nor a shared name makes entities equal, and a joint of nothing is read
as the empty name wherever it stands. -/
example :
    (named "Aa").build .state ≠ (named "BB").build .state ∧
      ((named "Aa").build .state).hash = ((named "BB").build .state).hash ∧
      (joint [named "a", named "b"]).build .state ≠ (named "a b").build .state ∧
      ((joint [named "a", named "b"]).build .state).name = ((named "a b").build .state).name ∧
      (joint [named "a", joint []]).build .state = (joint [named "a", named ""]).build .state := by
  decide +kernel

end Construction

end MarkovPlanning
