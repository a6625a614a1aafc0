/-
Files in a grammar, and readers of them.

The kinds of policies differ in the epochs they take, in the tokens they have a use for and in
what these mean to them.  A `Grammar` makes lines into a file (`Parses`), and a relation `Means`
tells which states a reader may be in after what was said.  A reader that goes along with both,
line by line (`Reader`), takes every file that parses to a state that is meant by it, and refuses
every other one at a line it names (`Reader.settled`).

Lines are read in two passes, first by themselves and then by the policy.  So the line that a
file is refused for is the first one that says nothing at all, and only if there is none, the
first one that the policy has no use for (`Offends`).

Two kinds of policies keep a slot for each epoch, which is filled by what is told while the
epoch is in force.  It is enough to say for them what one item does to one slot
(`SlotReader.reader`).
-/
import MarkovPlanning.Proofs.Policy.Grammar
import Mathlib

namespace MarkovPlanning

variable {ι σ τ : Type}

/-! ### What is said -/

/-- What a line can do for a policy: move on to an epoch, counted from one, or tell an item. -/
inductive Said (ι : Type) where
  | epoch (number : Nat)
  | item (item : ι)

namespace Said

/-- The items, wherever they are told. -/
def items (said : List (Said ι)) : List ι :=
  said.filterMap fun line =>
    match line with
    | .epoch _ => none
    | .item x => some x

/-- The epoch in force after a line, counted from zero, if it was `now` before. -/
def moves (now : Nat) : Said ι → Nat
  | .epoch number => number - 1
  | .item _ => now

/-- The epoch in force after some lines, which is the first one before any line moves on. -/
def inForce (said : List (Said ι)) : Nat := said.foldl moves 0

/-- The items that are told while an epoch is in force, if `now` is when the lines start. -/
def aboutFrom (now : Nat) (said : List (Said ι)) (target : Nat) : List ι :=
  match said with
  | [] => []
  | .epoch number :: said => aboutFrom (number - 1) said target
  | .item x :: said => (if now = target then [x] else []) ++ aboutFrom now said target

/-- The items that are told while an epoch is in force. -/
def about (said : List (Said ι)) (target : Nat) : List ι := aboutFrom 0 said target

@[simp]
theorem items_append (said more : List (Said ι)) :
    items (said ++ more) = items said ++ items more :=
  List.filterMap_append

@[simp]
theorem inForce_epoch (said : List (Said ι)) (number : Nat) :
    inForce (said ++ [.epoch number]) = number - 1 := by
  simp [inForce, moves]

@[simp]
theorem inForce_item (said : List (Said ι)) (x : ι) :
    inForce (said ++ [.item x]) = inForce said := by
  simp [inForce, moves]

theorem aboutFrom_append (now : Nat) (said more : List (Said ι)) (target : Nat) :
    aboutFrom now (said ++ more) target
      = aboutFrom now said target ++ aboutFrom (said.foldl moves now) more target := by
  induction said generalizing now with
  | nil => rfl
  | cons line said ih =>
      cases line with
      | epoch number => exact ih (number - 1)
      | item x =>
          rw [List.cons_append, aboutFrom, aboutFrom, ih, List.append_assoc]
          rfl

@[simp]
theorem about_epoch (said : List (Said ι)) (number target : Nat) :
    about (said ++ [.epoch number]) target = about said target := by
  rw [about, aboutFrom_append]
  exact List.append_nil _

@[simp]
theorem about_item (said : List (Said ι)) (x : ι) (target : Nat) :
    about (said ++ [.item x]) target
      = about said target ++ if inForce said = target then [x] else [] := by
  rw [about, aboutFrom_append, aboutFrom, aboutFrom, List.append_nil]
  rfl

theorem foldl_moves_items (now : Nat) (list : List ι) :
    (list.map item).foldl moves now = now := by
  induction list with
  | nil => rfl
  | cons x list ih => exact ih

theorem aboutFrom_items (now : Nat) (list : List ι) (target : Nat) :
    aboutFrom now (list.map .item) target = if now = target then list else [] := by
  induction list with
  | nil => simp [aboutFrom]
  | cons x list ih =>
      rw [List.map_cons, aboutFrom, ih]
      split <;> rfl

end Said

/-- The value that is told last for a key. -/
def lastOf {κ ν : Type} [DecidableEq κ] (entries : List (κ × ν)) (key : κ) : Option ν :=
  entries.reverse.lookup key

@[simp]
theorem lastOf_append {κ ν : Type} [DecidableEq κ] (entries : List (κ × ν)) (key other : κ)
    (value : ν) :
    lastOf (entries ++ [(key, value)]) other
      = if other = key then some value else lastOf entries other := by
  rw [lastOf, List.reverse_append, List.reverse_singleton, List.singleton_append, List.lookup_cons]
  by_cases h : other = key
  · rw [if_pos h, h, beq_self_eq_true]
  · rw [if_neg h, beq_eq_false_iff_ne.mpr h, lastOf]

/-- If the keys and values that are told are those of a function, the last ones are, too. -/
theorem lastOf_eq_of_mem_iff {κ ν : Type} [DecidableEq κ] {entries : List (κ × ν)}
    {f : κ → Option ν} (h : ∀ key value, (key, value) ∈ entries ↔ f key = some value) (key : κ) :
    lastOf entries key = f key := by
  rw [lastOf]
  cases hlookup : entries.reverse.lookup key with
  | some value =>
      obtain ⟨before, after, hentries, -⟩ := List.lookup_eq_some_iff.mp hlookup
      refine ((h key value).mp (List.mem_reverse.mp ?_)).symm
      rw [hentries]
      simp
  | none =>
      cases hvalue : f key with
      | none => rfl
      | some value =>
          have hmem := List.mem_reverse.mpr ((h key value).mpr hvalue)
          simpa using List.lookup_eq_none_iff.mp hlookup (key, value) hmem

/-! ### Files -/

/-- What a kind of policy has a use for. -/
structure Grammar (ι : Type) where
  /-- The epochs to move on to, counted from one. -/
  Epoch : Nat → Prop
  /-- The tokens of an item. -/
  Item : List String → ι → Prop

/-- A record that a policy has a use for, and what it says. -/
inductive Grammar.Admits (grammar : Grammar ι) : Record → Said ι → Prop
  | epoch {number : Nat} : grammar.Epoch number →
      Admits grammar (.horizon number) (.epoch number)
  | item {tokens : List String} {x : ι} : grammar.Item tokens x →
      Admits grammar (.tokens tokens) (.item x)

/-- What the lines of a file say. -/
inductive Parses (grammar : Grammar ι) : List String → List (Said ι) → Prop
  | nil : Parses grammar [] []
  /-- A line that says nothing. -/
  | skip {line : String} {lines : List String} {said : List (Said ι)} :
      Record.Spelt line none → Parses grammar lines said → Parses grammar (line :: lines) said
  /-- A line that the policy has a use for. -/
  | take {line : String} {lines : List String} {record : Record} {x : Said ι}
      {said : List (Said ι)} :
      Record.Spelt line (some record) → grammar.Admits record x → Parses grammar lines said →
      Parses grammar (line :: lines) (x :: said)

/-- Records that were written for what they say. -/
theorem Says.parses {grammar : Grammar ι} {texts : List String} {records : List Record}
    {said : List (Said ι)} (h : Says texts records)
    (hadmits : List.Forall₂ grammar.Admits records said) : Parses grammar texts said := by
  induction h generalizing said with
  | nil =>
      cases hadmits
      exact .nil
  | skip _ hnone _ ih => exact .skip (Record.ofLine_eq_ok_iff.mp hnone) (ih hadmits)
  | take _ hrecord _ ih =>
      cases hadmits with
      | cons hx hsaid => exact .take (Record.ofLine_eq_ok_iff.mp hrecord) hx (ih hsaid)

/-- An error that names a line. -/
inductive Error.Blames (number : Nat) : Error → Prop
  | line (fault : LineFault) : Blames number (.line number fault)
  | atLine (fault : LookupFault) : Blames number (.atLine number fault)

/-- The line that a file is refused for, counted from one. -/
inductive Offends (grammar : Grammar ι) (lines : List String) : Nat → Prop
  /-- The first line that cannot be read by itself. -/
  | spelling {before after : List String} {line : String} :
      lines = before ++ line :: after →
      (∀ earlier ∈ before, ∃ record, Record.Spelt earlier record) →
      (∀ record, ¬Record.Spelt line record) →
      Offends grammar lines (before.length + 1)
  /-- All lines can be read by themselves, and this is the first without a use. -/
  | use {before after : List String} {line : String} {said : List (Said ι)} {record : Record} :
      lines = before ++ line :: after →
      (∀ line ∈ lines, ∃ record, Record.Spelt line record) →
      Parses grammar before said →
      Record.Spelt line (some record) → (∀ x, ¬grammar.Admits record x) →
      Offends grammar lines (before.length + 1)

/-- What becomes of a file: one that parses is taken for what it means, and any other is refused
for a line of it. -/
structure Settled (grammar : Grammar ι) (Means : List (Said ι) → σ → Prop)
    (lines : List String) (result : Except Error σ) : Prop where
  accepts : ∀ {said}, Parses grammar lines said → ∃ loaded, result = .ok loaded ∧ Means said loaded
  refuses : (∀ said, ¬Parses grammar lines said) →
    ∃ error number, result = .error error ∧ Offends grammar lines number ∧ error.Blames number

variable {grammar : Grammar ι} {Means : List (Said ι) → σ → Prop}
  {lines : List String} {result : Except Error σ}

namespace Settled

/-- What was loaded is what the file says. -/
theorem of_eq_ok (h : Settled grammar Means lines result) {loaded : σ} (hok : result = .ok loaded) :
    ∃ said, Parses grammar lines said ∧ Means said loaded := by
  by_contra hnone
  have hparses : ∀ said, ¬Parses grammar lines said := by
    intro said hsaid
    obtain ⟨other, hother, hmeans⟩ := h.accepts hsaid
    obtain rfl := Except.ok.inj (hok.symm.trans hother)
    exact hnone ⟨said, hsaid, hmeans⟩
  obtain ⟨error, number, herror, -⟩ := h.refuses hparses
  cases hok.symm.trans herror

theorem imp {Means' : List (Said ι) → σ → Prop} (h : Settled grammar Means lines result)
    (himp : ∀ {said s}, Means said s → Means' said s) : Settled grammar Means' lines result where
  accepts hsaid := by
    obtain ⟨loaded, hok, hmeans⟩ := h.accepts hsaid
    exact ⟨loaded, hok, himp hmeans⟩
  refuses := h.refuses

theorem map {Means' : List (Said ι) → τ → Prop} {f : σ → τ}
    (h : Settled grammar Means lines result) (hmap : ∀ {said s}, Means said s → Means' said (f s)) :
    Settled grammar Means' lines (result.map f) where
  accepts hsaid := by
    obtain ⟨loaded, rfl, hmeans⟩ := h.accepts hsaid
    exact ⟨f loaded, rfl, hmap hmeans⟩
  refuses hnone := by
    obtain ⟨error, number, rfl, hoffends⟩ := h.refuses hnone
    exact ⟨error, number, rfl, hoffends⟩

end Settled

/-! ### Errors and their lines -/

/-- The line that a step is blamed on is blamed for what was to come after it, too. -/
theorem blames_bind {β γ : Type} {number : Nat} {first : Except Error β}
    (next : β → Except Error γ) (h : ∃ error, first = .error error ∧ error.Blames number) :
    ∃ error, (first >>= next) = .error error ∧ error.Blames number := by
  obtain ⟨error, rfl, hblames⟩ := h
  exact ⟨error, rfl, hblames⟩

theorem blames_next {β γ : Type} {number : Nat} {first : Except Error β} {value : β}
    {next : β → Except Error γ} (hfirst : first = .ok value)
    (h : ∃ error, next value = .error error ∧ error.Blames number) :
    ∃ error, (first >>= next) = .error error ∧ error.Blames number := by
  rw [hfirst]
  exact h

namespace Line

variable {kind : Kind} {entities : Collection kind} {name : String} {entity : Entity kind}

theorem find_eq_ok (line : Line) (h : entities.find name = .ok entity) :
    line.find entities name = .ok entity := by
  rw [find, h]
  rfl

/-- A name that is not known is blamed on its line. -/
theorem find_eq_error (line : Line) (h : ∀ entity, entities.find name ≠ .ok entity) :
    ∃ error, line.find entities name = .error error ∧ error.Blames line.number := by
  cases hfind : entities.find name with
  | ok entity => exact absurd hfind (h entity)
  | error fault => exact ⟨_, by rw [find, hfind]; rfl, .atLine fault⟩

theorem refuse_eq_error {β : Type} (line : Line) (fault : LineFault) :
    ∃ error, line.refuse (β := β) fault = .error error ∧ error.Blames line.number :=
  ⟨_, rfl, .line fault⟩

theorem epoch_eq_ok (line : Line) {span number : Nat} (h : number ≤ span) :
    line.epoch span number = .ok (number - 1) :=
  if_neg (by omega)

/-- An epoch beyond the last one is blamed on its line. -/
theorem epoch_eq_error (line : Line) {span number : Nat} (h : span < number) :
    ∃ error, line.epoch span number = .error error ∧ error.Blames line.number := by
  rw [epoch, if_pos h]
  exact line.refuse_eq_error _

end Line

/-! ### Records of a file -/

/-- The records of a file, numbered by their lines. -/
def rowsFrom (first : Nat) (lines : List String) : List Line :=
  (lines.zipIdx first).filterMap fun (text, number) =>
    match Record.ofLine text with
    | .ok (some record) => some { number, record }
    | _ => none

variable {line : String} {record : Record}

theorem rowsFrom_skip (h : Record.Spelt line none) (first : Nat) (lines : List String) :
    rowsFrom first (line :: lines) = rowsFrom (first + 1) lines := by
  have hline := Record.ofLine_eq_ok_iff.mpr h
  rw [rowsFrom, List.zipIdx_cons, List.filterMap_cons_none (by simp [hline]), ← rowsFrom]

theorem rowsFrom_take (h : Record.Spelt line (some record)) (first : Nat) (lines : List String) :
    rowsFrom first (line :: lines)
      = { number := first, record } :: rowsFrom (first + 1) lines := by
  have hline := Record.ofLine_eq_ok_iff.mpr h
  rw [rowsFrom, List.zipIdx_cons, List.filterMap_cons_some (by simp [hline]; rfl), ← rowsFrom]

theorem rowsFrom_append (first : Nat) (lines later : List String) :
    rowsFrom first (lines ++ later)
      = rowsFrom first lines ++ rowsFrom (first + lines.length) later := by
  rw [rowsFrom, List.zipIdx_append, List.filterMap_append, ← rowsFrom, ← rowsFrom]

theorem mapM_readLine (h : ∀ line ∈ lines, ∃ record, Record.Spelt line record) (first : Nat) :
    ∃ rows, ((lines.map some).zipIdx first).mapM (fun (line, number) => readLine line number)
        = Except.ok rows ∧ rows.filterMap id = rowsFrom first lines := by
  induction lines generalizing first with
  | nil => exact ⟨[], rfl, rfl⟩
  | cons line lines ih =>
      obtain ⟨rows, hrows, heq⟩ := ih (fun later hlater => h later (List.mem_cons_of_mem _ hlater))
        (first + 1)
      obtain ⟨record, hrecord⟩ := h line List.mem_cons_self
      have hline := Record.ofLine_eq_ok_iff.mpr hrecord
      refine ⟨record.map (Line.mk first) :: rows, ?_, ?_⟩
      · rw [List.map_cons, List.zipIdx_cons, List.mapM_cons, hrows]
        simp only [readLine, hline]
        rfl
      · cases record with
        | none => rw [rowsFrom_skip hrecord]; exact heq
        | some record => rw [rowsFrom_take hrecord, ← heq]; rfl

/-- **Lines that can be read by themselves are read, with their numbers.** -/
theorem Source.read_eq (h : ∀ line ∈ lines, ∃ record, Record.Spelt line record) :
    Source.read (lines.map some) = .ok (rowsFrom 1 lines) := by
  obtain ⟨rows, hrows, heq⟩ := mapM_readLine h 1
  rw [Source.read, hrows, ← heq]
  rfl

/-- The fault of the first line that cannot be read by itself is reported. -/
theorem Source.read_eq_fault {before : List String} (after : List String) {fault : LineFault}
    (h : ∀ earlier ∈ before, ∃ record, Record.Spelt earlier record)
    (hline : Record.ofLine line = .error fault) :
    Source.read ((before ++ line :: after).map some)
      = .error (.line (before.length + 1) fault) := by
  obtain ⟨rows, hrows, -⟩ := mapM_readLine h 1
  rw [Source.read, List.map_append, List.zipIdx_append, List.mapM_append, hrows, List.map_cons,
    List.zipIdx_cons, List.mapM_cons, List.length_map, Nat.add_comm 1]
  simp only [readLine, hline]
  rfl

/-- A line that cannot be read by itself has a fault. -/
theorem Record.exists_fault (hline : ∀ record, ¬Record.Spelt line record) :
    ∃ fault, Record.ofLine line = .error fault := by
  cases hfault : Record.ofLine line with
  | ok record => exact absurd (Record.ofLine_eq_ok_iff.mp hfault) (hline record)
  | error fault => exact ⟨fault, rfl⟩

/-- **The first line that cannot be read by itself is blamed.** -/
theorem Source.read_eq_error {before : List String} (after : List String)
    (h : ∀ earlier ∈ before, ∃ record, Record.Spelt earlier record)
    (hline : ∀ record, ¬Record.Spelt line record) :
    ∃ error, Source.read ((before ++ line :: after).map some) = .error error ∧
      error.Blames (before.length + 1) := by
  obtain ⟨fault, hfault⟩ := Record.exists_fault hline
  exact ⟨_, Source.read_eq_fault after h hfault, .line fault⟩

/-! ### Readers -/

/-- A reader that goes along with a grammar and what is meant by it. -/
structure Reader (take : σ → Line → Except Error σ) (grammar : Grammar ι)
    (Means : List (Said ι) → σ → Prop) : Prop where
  accept : ∀ {said : List (Said ι)} {s : σ} {x : Said ι} (line : Line), Means said s →
    grammar.Admits line.record x → ∃ s', take s line = .ok s' ∧ Means (said ++ [x]) s'
  /-- There are no lines without tokens, and what a reader does about one does not matter. -/
  refuse : ∀ {said : List (Said ι)} {s : σ} (line : Line), Means said s →
    line.record ≠ .tokens [] → (∀ x, ¬grammar.Admits line.record x) →
    ∃ error, take s line = .error error ∧ error.Blames line.number

/-- A row has tokens. -/
theorem Record.Spelt.ne_tokens_nil (h : Spelt line (some record)) : record ≠ .tokens [] := by
  rintro rfl
  cases h with
  | tokens _ hrow _ => cases hrow

theorem parses_of_forall (h : ∀ line ∈ lines, Record.Spelt line none ∨
    ∃ record x, Record.Spelt line (some record) ∧ grammar.Admits record x) :
    ∃ said, Parses grammar lines said := by
  induction lines with
  | nil => exact ⟨[], .nil⟩
  | cons line lines ih =>
      obtain ⟨said, hsaid⟩ := ih fun later hlater => h later (List.mem_cons_of_mem _ hlater)
      rcases h line List.mem_cons_self with hnone | ⟨record, x, hrecord, hadmits⟩
      · exact ⟨said, .skip hnone hsaid⟩
      · exact ⟨x :: said, .take hrecord hadmits hsaid⟩

/-- Every line of a file that parses can be read by itself. -/
theorem Parses.spelt {said : List (Said ι)} (h : Parses grammar lines said) :
    ∀ line ∈ lines, ∃ record, Record.Spelt line record := by
  induction h with
  | nil => simp
  | skip hnone _ ih => exact List.forall_mem_cons.mpr ⟨⟨none, hnone⟩, ih⟩
  | take hrecord _ _ ih => exact List.forall_mem_cons.mpr ⟨⟨_, hrecord⟩, ih⟩

/-- Either all members have a property, or there is a first one without it. -/
theorem forall_or_first {β : Type} (P : β → Prop) (list : List β) :
    (∀ x ∈ list, P x) ∨
      ∃ before x after, list = before ++ x :: after ∧ (∀ y ∈ before, P y) ∧ ¬P x := by
  classical
  cases hfind : list.find? (fun x => ¬P x) with
  | none =>
      refine .inl fun x hx => ?_
      simpa using List.find?_eq_none.mp hfind x hx
  | some x =>
      obtain ⟨hx, before, after, hlist, hbefore⟩ := List.find?_eq_some_iff_append.mp hfind
      refine .inr ⟨before, x, after, hlist, fun y hy => ?_, by simpa using hx⟩
      simpa using hbefore y hy

namespace Reader

variable {take : σ → Line → Except Error σ} {said more : List (Said ι)} {s : σ}

/-- A reader goes on from what was said to what is said next. -/
theorem foldlM_rowsFrom (h : Reader take grammar Means) (hparses : Parses grammar lines more)
    (hmeans : Means said s) (first : Nat) :
    ∃ s', (rowsFrom first lines).foldlM take s = .ok s' ∧ Means (said ++ more) s' := by
  induction hparses generalizing said s first with
  | nil => exact ⟨s, rfl, by rwa [List.append_nil]⟩
  | skip hnone _ ih =>
      rw [rowsFrom_skip hnone]
      exact ih hmeans (first + 1)
  | @take _ _ record x more hrecord hadmits _ ih =>
      obtain ⟨s', htake, hmeans'⟩ := h.accept { number := first, record } hmeans hadmits
      obtain ⟨stop, hstop, hmeans''⟩ := ih hmeans' (first + 1)
      refine ⟨stop, ?_, ?_⟩
      · rw [rowsFrom_take hrecord, List.foldlM_cons, htake]
        exact hstop
      · rwa [List.append_assoc, List.singleton_append] at hmeans''

/-- **A reader takes a file that parses for what it means, and refuses any other.** -/
theorem settled (h : Reader take grammar Means) {start : σ} (hstart : Means [] start)
    (lines : List String) :
    Settled grammar Means lines (do
      let rows ← Source.read (lines.map some)
      rows.foldlM take start) where
  accepts := by
    intro said hsaid
    obtain ⟨s, hs, hmeans⟩ := h.foldlM_rowsFrom hsaid hstart 1
    rw [Source.read_eq hsaid.spelt]
    exact ⟨s, hs, hmeans⟩
  refuses := by
    intro hnone
    rcases forall_or_first (fun line => ∃ record, Record.Spelt line record) lines with
      hspelt | ⟨before, line, after, rfl, hbefore, hline⟩
    · rcases forall_or_first (fun line => Record.Spelt line none ∨
          ∃ record x, Record.Spelt line (some record) ∧ grammar.Admits record x) lines with
        hall | ⟨before, line, after, rfl, hbefore, hline⟩
      · obtain ⟨said, hsaid⟩ := parses_of_forall hall
        exact absurd hsaid (hnone said)
      · obtain ⟨said, hsaid⟩ := parses_of_forall hbefore
        obtain ⟨s, hs, hmeans⟩ := h.foldlM_rowsFrom hsaid hstart 1
        rw [not_or] at hline
        obtain ⟨record, hrecord⟩ : ∃ record, Record.Spelt line (some record) := by
          obtain ⟨_ | record, hrecord⟩ := hspelt line (by simp)
          · exact absurd hrecord hline.1
          · exact ⟨record, hrecord⟩
        have hadmits : ∀ x, ¬grammar.Admits record x := fun x hx => hline.2 ⟨record, x, hrecord, hx⟩
        obtain ⟨error, herror, hblames⟩ :=
          h.refuse { number := 1 + before.length, record } hmeans hrecord.ne_tokens_nil
            hadmits
        refine ⟨error, before.length + 1, ?_, .use rfl hspelt hsaid hrecord hadmits,
          Nat.add_comm 1 _ ▸ hblames⟩
        rw [Source.read_eq hspelt, rowsFrom_append, rowsFrom_take hrecord]
        change ((rowsFrom 1 before ++ _ :: _).foldlM take start) = _
        rw [List.foldlM_append, hs]
        change List.foldlM take s (_ :: _) = _
        rw [List.foldlM_cons, herror]
        rfl
    · obtain ⟨error, herror, hblames⟩ := Source.read_eq_error after hbefore
        (not_exists.mp hline)
      refine ⟨error, before.length + 1, ?_, .spelling rfl hbefore (not_exists.mp hline), hblames⟩
      rw [herror]
      rfl

end Reader

/-! ### Readers that fill slots -/

section Slots

variable {β : Type} {n : Nat}

/-- A reader with a slot for each epoch: `make` is its state when it has some slots and is at one
of them, and `put` is how a slot takes up an item. -/
structure SlotReader (take : σ → Line → Except Error σ) (make : Vector β n → Nat → σ)
    (put : β → ι → β) (Item : List String → ι → Prop) : Prop where
  move : ∀ {slots : Vector β n} {now number : Nat} {line : Line}, line.record = .horizon number →
    number ≤ n → take (make slots now) line = .ok (make slots (number - 1))
  beyond : ∀ {slots : Vector β n} {now number : Nat} {line : Line},
    line.record = .horizon number → n < number →
    ∃ error, take (make slots now) line = .error error ∧ error.Blames line.number
  item : ∀ {slots : Vector β n} {now : Nat} {line : Line} {tokens : List String} {x : ι}
    (h : now < n), line.record = .tokens tokens → Item tokens x →
    take (make slots now) line = .ok (make (slots.set now (put slots[now] x)) now)
  other : ∀ {slots : Vector β n} {now : Nat} {line : Line} {tokens : List String},
    line.record = .tokens tokens → (∀ x, ¬Item tokens x) →
    ∃ error, take (make slots now) line = .error error ∧ error.Blames line.number

/-- A reader that is at the epoch in force, and has in each slot what was told about it. -/
def SlotsMean (make : Vector β n → Nat → σ) (Means : List ι → β → Prop) (said : List (Said ι))
    (s : σ) : Prop :=
  ∃ slots : Vector β n, s = make slots (Said.inForce said) ∧ Said.inForce said < n ∧
    ∀ (epoch : Nat) (h : epoch < n), Means (Said.about said epoch) slots[epoch]

variable {take : σ → Line → Except Error σ} {make : Vector β n → Nat → σ} {put : β → ι → β}
  {Item : List String → ι → Prop} {Slot : List ι → β → Prop}

theorem slotsMean_replicate {nothing : β} (hpos : 0 < n) (hnothing : Slot [] nothing) :
    SlotsMean make Slot [] (make (Vector.replicate n nothing) 0) := by
  refine ⟨Vector.replicate n nothing, rfl, hpos, fun epoch h => ?_⟩
  rw [Vector.getElem_replicate]
  exact hnothing

/-- **A reader fills its slots with what is told about them.** -/
theorem SlotReader.reader (h : SlotReader take make put Item) (Slot : List ι → β → Prop)
    (hput : ∀ {items slot x}, Slot items slot → Slot (items ++ [x]) (put slot x)) :
    Reader take { Epoch := (· ≤ n), Item } (SlotsMean make Slot) where
  accept := by
    rintro said s x line ⟨slots, rfl, hnow, hslots⟩ hadmits
    generalize hrecord : line.record = record at hadmits
    cases hadmits with
    | @epoch number hnumber =>
        refine ⟨_, h.move hrecord hnumber, slots, by rw [Said.inForce_epoch], ?_, ?_⟩
        · rw [Said.inForce_epoch]
          have : number ≤ n := hnumber
          omega
        · simpa using hslots
    | @item tokens x hitem =>
        refine ⟨_, h.item hnow hrecord hitem, _, by rw [Said.inForce_item], ?_, ?_⟩
        · rwa [Said.inForce_item]
        · intro epoch hepoch
          rw [Said.about_item]
          by_cases heq : Said.inForce said = epoch
          · subst heq
            rw [Vector.getElem_set_self, if_pos rfl]
            exact hput (hslots _ hepoch)
          · rw [Vector.getElem_set_ne _ _ heq, if_neg heq, List.append_nil]
            exact hslots epoch hepoch
  refuse := by
    rintro said s line ⟨slots, rfl, -, -⟩ - hadmits
    cases hrecord : line.record with
    | horizon number =>
        rw [hrecord] at hadmits
        refine h.beyond hrecord (Nat.not_le.mp fun hle => ?_)
        exact hadmits _ (.epoch hle)
    | tokens tokens =>
        rw [hrecord] at hadmits
        exact h.other hrecord fun x hx => hadmits _ (.item hx)

/-- Items that were written with their tokens are put back. -/
theorem SlotReader.fills (h : SlotReader take make put Item) {tokens : ι → List String}
    {Known : ι → Prop} (hknown : ∀ {item}, Known item → Item (tokens item) item) :
    Fills take make put tokens Known where
  move hepoch hline := h.move hline hepoch
  item hepoch hitem hline := h.item hepoch hline (hknown hitem)

end Slots

end MarkovPlanning
