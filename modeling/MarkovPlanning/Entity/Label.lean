/-
What an entity is called, and how two names are put in order.

A label is either a name or a joint of several labels.  Every label has a 32-bit
hash and a text, and both are lossy: two names may share a hash, and the text of
a joint cannot be told from a name with blanks in it.  Labels are therefore
ordered by hash, then by text, then by their parts from the left, and the last
step is what makes the order see the whole label.

The main statements are the order laws at the end of the file.  `compare_eq_iff`
says that only a label is equal to itself in this order, so neither the hash nor
the text ever merges two labels, and `TransOrd` is what sorted containers need.
The proofs follow the recursion of the comparison: one induction shows that equal
labels are the same, and with that in hand the transitivity of a lexicographic
comparison needs no care about ties.
-/
namespace MarkovPlanning

/-- A name, or an ordered tuple of at least one label. -/
inductive Label where
  | name (text : String)
  | joint (first : Label) (rest : List Label)
deriving Inhabited

namespace Label

/-! ### Hash and text -/

/-- The hash of an empty name. -/
def hashSeed : UInt32 := 7

/-- One step of the polynomial hash, modulo 2^32. -/
def hashStep (hash part : UInt32) : UInt32 := hash * 31 + part

/-- The bytes of a text in UTF-8. -/
def utf8 (text : String) : List UInt8 := text.toList.flatMap String.utf8EncodeChar

mutual

/-- Hash of a label: a name folds its bytes and a joint folds the hashes of its parts. -/
def hash : Label → UInt32
  | name text => (utf8 text).foldl (fun h byte => hashStep h byte.toUInt32) hashSeed
  | joint first rest => hashFrom (hashStep hashSeed (hash first)) rest

/-- Folds the hashes of the remaining parts into `acc`. -/
def hashFrom (acc : UInt32) : List Label → UInt32
  | [] => acc
  | label :: labels => hashFrom (hashStep acc (hash label)) labels

end

mutual

/-- Text of a label: the texts of the parts of a joint are separated by single blanks. -/
def text : Label → String
  | name text => text
  | joint first rest => textFrom (text first) rest

/-- Appends the texts of the remaining parts to `acc`. -/
def textFrom (acc : String) : List Label → String
  | [] => acc
  | label :: labels => textFrom (acc ++ " " ++ text label) labels

end

/-- The parts of a joint; a name has none. -/
def parts : Label → List Label
  | name _ => []
  | joint first rest => first :: rest

/-- The joint of a list of labels.  Nothing joined is the empty name. -/
def ofParts : List Label → Label
  | [] => name ""
  | first :: rest => joint first rest

/-! ### Comparison -/

mutual

/-- Order of two labels that share a hash: by text, then by parts. -/
def compareWithin : Label → Label → Ordering
  | name s, name t => compare s t
  | name s, joint g q => (compare s (joint g q).text).then .lt
  | joint f r, name t => (compare (joint f r).text t).then .gt
  | joint f r, joint g q =>
      (compare (joint f r).text (joint g q).text).then
        (((compare f.hash g.hash).then (compareWithin f g)).then (compareParts r q))

/-- Order of two tuples of labels: the first difference decides, and a tuple comes before
its extensions. -/
def compareParts : List Label → List Label → Ordering
  | [], [] => .eq
  | [], _ :: _ => .lt
  | _ :: _, [] => .gt
  | f :: r, g :: q =>
      ((compare f.hash g.hash).then (compareWithin f g)).then (compareParts r q)

end

instance : Ord Label where
  compare a b := (compare a.hash b.hash).then (compareWithin a b)

theorem compare_def (a b : Label) :
    compare a b = (compare a.hash b.hash).then (compareWithin a b) := rfl

/-- The comparison of the parts is the same whether or not there are any. -/
theorem compareWithin_eq (a b : Label) :
    compareWithin a b = (compare a.text b.text).then (compareParts a.parts b.parts) := by
  cases a <;> cases b <;> simp [compareWithin, compareParts, parts, text]

theorem compareParts_cons (f g : Label) (r q : List Label) :
    compareParts (f :: r) (g :: q) = (compare f g).then (compareParts r q) := by
  simp [compareParts, compare_def]

/-! ### Order laws -/

/-- The text and the parts determine a label. -/
theorem eq_of_text_of_parts {a b : Label} (ht : a.text = b.text) (hp : a.parts = b.parts) :
    a = b := by
  cases a <;> cases b <;> simp_all [text, parts]

/-- What holds of a label whenever it holds of its parts holds of every label. -/
theorem parts_induction {P : Label → Prop} (step : ∀ l : Label, (∀ p ∈ l.parts, P p) → P l)
    (l : Label) : P l :=
  step l fun p _hp => parts_induction step p
termination_by sizeOf l
decreasing_by
  cases l with
  | name _ => simp [parts] at _hp
  | joint first rest =>
    rcases List.mem_cons.1 _hp with rfl | h
    · simp; omega
    · have := List.sizeOf_lt_of_mem h
      simp; omega

/-- Labels that compare equal are the same label. -/
theorem eq_of_compare {a b : Label} (h : compare a b = .eq) : a = b := by
  induction a using parts_induction generalizing b with
  | step a ih =>
    simp only [compare_def, compareWithin_eq, Ordering.then_eq_eq,
      Std.LawfulEqOrd.compare_eq_iff_eq] at h
    refine eq_of_text_of_parts h.2.1 ?_
    -- the parts agree one by one
    have key : ∀ r q : List Label, (∀ p ∈ r, ∀ {b}, compare p b = .eq → p = b) →
        compareParts r q = .eq → r = q := by
      intro r
      induction r with
      | nil => intro q _ h; cases q <;> simp_all [compareParts]
      | cons f r ihr =>
        intro q hf h
        cases q with
        | nil => simp [compareParts] at h
        | cons g q =>
          rw [compareParts_cons, Ordering.then_eq_eq] at h
          rw [hf f (by simp) h.1, ihr q (fun p hp => hf p (by simp [hp])) h.2]
    exact key _ _ (fun p hp => ih p hp) h.2.2

theorem compare_self (a : Label) : compare a a = .eq := by
  induction a using parts_induction with
  | step a ih =>
    simp only [compare_def, compareWithin_eq, Std.ReflCmp.compare_self, Ordering.eq_then]
    generalize a.parts = r at ih
    induction r with
    | nil => simp [compareParts]
    | cons f r ihr =>
      rw [compareParts_cons, ih f (by simp), Ordering.eq_then]
      exact ihr fun p hp => ih p (by simp [hp])

theorem compare_eq_iff {a b : Label} : compare a b = .eq ↔ a = b :=
  ⟨eq_of_compare, fun h => h ▸ compare_self a⟩

/-- The comparison of two labels the other way round. -/
theorem compare_swap (a b : Label) : (compare b a).swap = compare a b := by
  induction a using parts_induction generalizing b with
  | step a ih =>
    simp only [compare_def, compareWithin_eq, Ordering.swap_then]
    rw [← (Std.OrientedCmp.eq_swap : compare a.hash b.hash = _),
      ← (Std.OrientedCmp.eq_swap : compare a.text b.text = _)]
    congr 2
    generalize a.parts = r at ih
    generalize b.parts = q
    induction r generalizing q with
    | nil => cases q <;> simp [compareParts]
    | cons f r ihr =>
      cases q with
      | nil => simp [compareParts]
      | cons g q =>
        rw [compareParts_cons, compareParts_cons, Ordering.swap_then, ih f (by simp),
          ihr (fun p hp => ih p (by simp [hp]))]

/-- A lexicographic comparison says "less" by its first difference. -/
theorem then_eq_lt {o p : Ordering} : o.then p = .lt ↔ o = .lt ∨ o = .eq ∧ p = .lt := by
  cases o <;> simp

theorem compare_lt_trans {a b c : Label} (hab : compare a b = .lt) (hbc : compare b c = .lt) :
    compare a c = .lt := by
  induction a using parts_induction generalizing b c with
  | step a ih =>
    simp only [compare_def, compareWithin_eq, then_eq_lt, Std.LawfulEqOrd.compare_eq_iff_eq]
      at hab hbc ⊢
    rcases hab with hab | ⟨hab, hab'⟩
    · rcases hbc with hbc | ⟨hbc, -⟩
      · exact .inl (Std.TransCmp.lt_trans hab hbc)
      · exact .inl (hbc ▸ hab)
    rcases hbc with hbc | ⟨hbc, hbc'⟩
    · exact .inl (hab ▸ hbc)
    refine .inr ⟨hab.trans hbc, ?_⟩
    rcases hab' with hab' | ⟨hab', habp⟩
    · rcases hbc' with hbc' | ⟨hbc', -⟩
      · exact .inl (Std.TransCmp.lt_trans hab' hbc')
      · exact .inl (hbc' ▸ hab')
    rcases hbc' with hbc' | ⟨hbc', hbcp⟩
    · exact .inl (hab' ▸ hbc')
    refine .inr ⟨hab'.trans hbc', ?_⟩
    clear hab hbc hab' hbc'
    -- only the parts are left to compare
    generalize a.parts = r at ih habp
    generalize b.parts = q at habp hbcp
    generalize c.parts = s at hbcp
    induction r generalizing q s with
    | nil => cases q <;> cases s <;> simp_all [compareParts]
    | cons f r ihr =>
      cases q with
      | nil => simp [compareParts] at habp
      | cons g q =>
        cases s with
        | nil => simp [compareParts] at hbcp
        | cons h s =>
          rw [compareParts_cons, then_eq_lt, compare_eq_iff] at *
          rcases habp with hfg | ⟨rfl, habp⟩
          · rcases hbcp with hgh | ⟨rfl, -⟩
            · exact .inl (ih f (by simp) hfg hgh)
            · exact .inl hfg
          · rcases hbcp with hgh | ⟨rfl, hbcp⟩
            · exact .inl hgh
            · exact .inr ⟨rfl, ihr (fun p hp => ih p (by simp [hp])) q habp s hbcp⟩

instance : Std.OrientedOrd Label where
  eq_swap := (compare_swap _ _).symm

instance : Std.TransOrd Label where
  isLE_trans {a b c} hab hbc := by
    rcases hab' : compare a b with _ | _ | _
    · rcases hbc' : compare b c with _ | _ | _
      · rw [compare_lt_trans hab' hbc']; rfl
      · rw [← compare_eq_iff.1 hbc', hab']; rfl
      · simp [hbc'] at hbc
    · rwa [compare_eq_iff.1 hab']
    · simp [hab'] at hab

instance : Std.LawfulEqOrd Label where
  eq_of_compare := eq_of_compare

end Label

end MarkovPlanning
