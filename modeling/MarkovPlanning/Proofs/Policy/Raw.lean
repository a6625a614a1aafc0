/-
Lines of any names.

Names are written as they are, so a name may hold what has a meaning on a line.  What can be said
about such lines is that a line of names without number signs and colons is the row of these
names, without the blanks at their ends, or moves on to an epoch (`Record.Spelt.of_writeTokens`),
or has a single blank name and says nothing (`Record.Spelt.blank_of_none`).

A line can say one thing at most if the policy has no use for anything else on it (`Only`).  A
file of such lines is taken for what was written, or refused (`Settled.means_of_only`).
-/
import MarkovPlanning.Proofs.Policy.Reader
import Mathlib

namespace MarkovPlanning

/-- A name as it is read, without the blanks at its ends. -/
def bareName (name : String) : String := String.ofList (Text.trim name.toList)

/-- A name that neither ends its line nor starts a comment. -/
structure Unmarked (name : String) : Prop where
  comment : '#' ∉ name.toList
  feed : '\n' ∉ name.toList

theorem IsToken.unmarked {name : String} (h : IsToken name) : Unmarked name := ⟨h.comment, h.feed⟩

theorem IsToken.bareName_eq {name : String} (h : IsToken name) : bareName name = name := by
  rw [bareName, h.trimmed, String.ofList_toList]

/-- What is found under the name of an entity that has it to itself. -/
theorem Collection.eq_of_find_bareName {kind : Kind} {entities : Collection kind}
    {entity other : Entity kind} (htoken : IsToken entity.name)
    (h : entities.find entity.name = .ok entity)
    (hother : entities.find (bareName entity.name) = .ok other) : other = entity := by
  rw [htoken.bareName_eq, h] at hother
  exact (Except.ok.inj hother).symm

variable {names : List String} {line : String}

theorem notMem_writeTokens {c : Char} (hspace : c ≠ ' ') (hcolon : c ≠ ':')
    (h : ∀ name ∈ names, c ∉ name.toList) : c ∉ (writeTokens names).toList := by
  intro hmem
  rcases mem_writeTokens hmem with heq | heq | ⟨name, hname, hmem⟩
  · exact hspace heq
  · exact hcolon heq
  · exact h name hname hmem

namespace Record

/-! ### One line -/

/-- A line says one thing. -/
theorem Spelt.functional {record other : Option Record} (h : Spelt line record)
    (hother : Spelt line other) : record = other :=
  Except.ok.inj ((ofLine_eq_ok_iff.mpr h).symm.trans (ofLine_eq_ok_iff.mpr hother))

theorem content_of_notMem (h : '#' ∉ line.toList) : content line = line.toList :=
  (Text.uncommented_iff.mp ⟨h, .inl rfl⟩).symm

/-- A carriage return at the end of a line makes no difference to what it says. -/
theorem spelt_chomp {record : Option Record} :
    Spelt (Text.chomp line) record ↔ Spelt line record := by
  rw [Text.chomp]
  by_cases hlast : line.toList.getLast? = some '\r'
  · obtain ⟨before, hbefore⟩ := List.getLast?_eq_some_iff.mp hlast
    rw [if_pos hlast, hbefore, List.dropLast_concat, ← ofLine_eq_ok_iff, ← ofLine_eq_ok_iff]
    have hline : ofLine (String.ofList before) = ofLine line := by
      by_cases hmark : '#' ∈ before
      · -- it is a part of the comment
        have hcontent : content line = content (String.ofList before) := by
          obtain ⟨start, comment, rfl, hstart⟩ := List.eq_append_cons_of_mem hmark
          have hboth : ∀ rest : List Char, Text.Uncommented (start ++ '#' :: rest) start :=
            fun rest => ⟨hstart, .inr ⟨rest, rfl⟩⟩
          rw [content, content, hbefore, String.toList_ofList, List.append_assoc, List.cons_append,
            ← Text.uncommented_iff.mp (hboth _), ← Text.uncommented_iff.mp (hboth _)]
        rw [ofLine, ofLine, hcontent]
      · -- it is a blank after the last token
        have hmark' : '#' ∉ line.toList := by
          rw [hbefore, List.mem_append, not_or]
          exact ⟨hmark, by decide⟩
        have hbefore' : '#' ∉ (String.ofList before).toList := by rwa [String.toList_ofList]
        rw [ofLine, ofLine, content_of_notMem hmark', content_of_notMem hbefore', hbefore,
          String.toList_ofList, tokensOf_append_blank (by simp [Text.isBlank]), List.all_append]
        simp [Text.isBlank]
    rw [hline]
  · rw [if_neg hlast]

/-- How many tokens a record is written with. -/
def width : Record → Nat
  | .horizon _ => 2
  | .tokens list => list.length

theorem Spelt.length_tokensOf {record : Record} (h : Spelt line (some record)) :
    (tokensOf (content line)).length = record.width := by
  cases record with
  | horizon number =>
      obtain ⟨token, htokens, -⟩ := h.of_horizon
      rw [htokens]
      rfl
  | tokens list =>
      rw [h.of_tokens.1]
      rfl

theorem content_writeTokens (h : ∀ name ∈ names, '#' ∉ name.toList) :
    content (writeTokens names) = (writeTokens names).toList :=
  content_of_notMem (notMem_writeTokens (by decide) (by decide) h)

/-- A line with as many tokens as names has no colons in the names. -/
theorem Spelt.notMem_colon {record : Record} (h : Spelt (writeTokens names) (some record))
    (hmark : ∀ name ∈ names, '#' ∉ name.toList) (hwidth : record.width = names.length) :
    ∀ name ∈ names, ':' ∉ name.toList := by
  refine notMem_of_length_tokensOf ?_
  rw [← content_writeTokens hmark, h.length_tokensOf, hwidth]

/-- Only a line of one blank name says nothing. -/
theorem Spelt.blank_of_none (h : Spelt (writeTokens names) none) (hne : names ≠ [])
    (hmark : ∀ name ∈ names, '#' ∉ name.toList) : ∃ name, names = [name] ∧ bareName name = "" := by
  have hblank := content_writeTokens hmark ▸ h.of_none
  have hcolon : ':' ∉ (writeTokens names).toList := fun hmem =>
    absurd (hblank _ hmem) (by decide)
  have hlength := length_le_count hne
  rw [List.count_eq_zero.mpr hcolon] at hlength
  match names with
  | [] => exact absurd rfl hne
  | [name] =>
      refine ⟨name, rfl, ?_⟩
      rw [writeTokens, String.intercalate_singleton] at hblank
      rw [bareName, Text.trim_of_blank hblank, String.ofList_nil]
  | _ :: _ :: _ => simp at hlength

/-- **A line of names without number signs and colons lists them, or moves on to an epoch.** -/
theorem Spelt.of_writeTokens {record : Record} (h : Spelt (writeTokens names) (some record))
    (hne : names ≠ []) (hmark : ∀ name ∈ names, '#' ∉ name.toList)
    (hcolon : ∀ name ∈ names, ':' ∉ name.toList) :
    record = .tokens (names.map bareName) ∨
      ∃ token number, record = .horizon number ∧ Decimal.Counts token number ∧ 0 < number ∧
        names.map bareName = [horizonToken, token] := by
  have htokens : tokensOf (content (writeTokens names)) = names.map bareName := by
    rw [content_writeTokens hmark]
    exact tokensOf_writeTokens_of_notMem hcolon hne
  cases record with
  | horizon number =>
      obtain ⟨token, htoken, hnumber, hpos⟩ := h.of_horizon
      exact .inr ⟨token, number, rfl, hnumber, hpos, htokens.symm.trans htoken⟩
  | tokens list =>
      rw [← htokens, h.of_tokens.1]
      exact .inl rfl

/-- The line that moves on to an epoch says nothing else. -/
theorem spelt_horizonLine {number : Nat} {record : Option Record}
    (h : Spelt (horizonLine number) record) : record = some (.horizon number) := by
  have hcontent : content (horizonLine number) = (horizonLine number).toList :=
    content_of_notMem (notMem_horizonLine number)
  have htokens := tokensOf_horizonLine number
  rw [← hcontent] at htokens
  match record with
  | none =>
      obtain ⟨c, hc, hblank⟩ := exists_mem_horizonLine number
      exact absurd ((h.of_none c (hcontent ▸ hc)).symm.trans hblank) (by decide)
  | some (.horizon other) =>
      obtain ⟨token, htoken, hnumber, -⟩ := h.of_horizon
      rw [htokens] at htoken
      obtain rfl : toString number = token := by simpa using htoken
      rw [hnumber.eq_of_toString]
  | some (.tokens list) =>
      obtain ⟨hlist, hhead⟩ := h.of_tokens
      rw [← hlist, htokens] at hhead
      exact absurd rfl hhead

end Record

/-! ### Files of such lines -/

variable {ι : Type} {grammar : Grammar ι} {lines : List String} {said xs : List (Said ι)}

/-- A line that can say one thing at most. -/
def Only (grammar : Grammar ι) (line : String) (x : Said ι) : Prop :=
  ¬Record.Spelt line none ∧
    ∀ record y, Record.Spelt line (some record) → grammar.Admits record y → y = x

namespace Parses

theorem of_skip (h : Parses grammar (line :: lines) said) (hline : Record.Spelt line none) :
    Parses grammar lines said := by
  cases h with
  | skip _ h => exact h
  | take hrecord _ _ => cases hline.functional hrecord

theorem of_map_chomp (h : Parses grammar (lines.map Text.chomp) said) :
    Parses grammar lines said := by
  induction lines generalizing said with
  | nil => exact h
  | cons line lines ih =>
      rw [List.map_cons] at h
      cases h with
      | skip hnone h => exact .skip (Record.spelt_chomp.mp hnone) (ih h)
      | take hrecord hadmits h => exact .take (Record.spelt_chomp.mp hrecord) hadmits (ih h)

/-- **Lines that can say one thing at most say it.** -/
theorem eq_of_only (h : Parses grammar lines said) (honly : List.Forall₂ (Only grammar) lines xs) :
    said = xs := by
  induction h generalizing xs with
  | nil =>
      cases honly
      rfl
  | skip hnone _ _ =>
      cases honly with
      | cons honly _ => exact absurd hnone honly.1
  | take hrecord hadmits _ ih =>
      cases honly with
      | cons honly hrest => rw [honly.2 _ _ hrecord hadmits, ih hrest]

end Parses

/-- The line that moves on to an epoch can say nothing else. -/
theorem only_horizonLine (grammar : Grammar ι) (number : Nat) :
    Only grammar (Record.horizonLine number) (.epoch number) := by
  refine ⟨fun hnone => absurd (Record.spelt_horizonLine hnone) nofun,
    fun record y hrecord hadmits => ?_⟩
  obtain rfl := Option.some.inj (Record.spelt_horizonLine hrecord)
  cases hadmits
  rfl

/-- **What is loaded from lines that can say one thing at most is what they say.** -/
theorem Settled.means_of_only {σ : Type} {Means : List (Said ι) → σ → Prop} {header : String}
    {loaded : σ}
    (h : Settled grammar Means (Text.textLines (unlines (header :: lines))) (.ok loaded))
    (hheader : Record.Spelt header none) (hfeed : ∀ line ∈ header :: lines, '\n' ∉ line.toList)
    (honly : List.Forall₂ (Only grammar) lines xs) : Means xs loaded := by
  obtain ⟨said, hsaid, hmeans⟩ := h.of_eq_ok rfl
  rw [textLines_unlines_of_notMem hfeed] at hsaid
  rwa [(hsaid.of_map_chomp.of_skip hheader).eq_of_only honly] at hmeans

/-! ### Files of slots -/

section Slots

variable {β κ : Type} {items : β → List κ} {tokens : κ → List String} {tell : κ → ι}

/-- What is said by the lines of slots, each of which moves on to its epoch if there is a last
one. -/
def slotSaid (isFinite : Bool) (items : β → List κ) (tell : κ → ι) (slots : List β)
    (first : Nat) : List (Said ι) :=
  (slots.zipIdx first).flatMap fun (slot, epoch) =>
    (if isFinite then [.epoch (epoch + 1)] else []) ++ (items slot).map fun item =>
      .item (tell item)

theorem only_slotLines {isFinite : Bool} {slots : List β} {first : Nat}
    (h : ∀ slot ∈ slots, ∀ item ∈ items slot,
      Only grammar (writeTokens (tokens item)) (.item (tell item))) :
    List.Forall₂ (Only grammar) (slotLines isFinite items tokens slots first)
      (slotSaid isFinite items tell slots first) := by
  induction slots generalizing first with
  | nil => exact .nil
  | cons slot slots ih =>
      rw [slotLines, slotSaid, List.zipIdx_cons, List.flatMap_cons, List.flatMap_cons]
      refine List.rel_append (List.rel_append ?_ ?_)
        (ih fun later hlater => h later (List.mem_cons_of_mem _ hlater))
      · cases isFinite with
        | false => exact .nil
        | true => exact .cons (only_horizonLine grammar (first + 1)) .nil
      · rw [List.forall₂_map_left_iff, List.forall₂_map_right_iff, List.forall₂_same]
        exact h slot List.mem_cons_self

theorem notMem_slotLines {isFinite : Bool} {slots : List β} {first : Nat}
    (h : ∀ slot ∈ slots, ∀ item ∈ items slot, '\n' ∉ (writeTokens (tokens item)).toList) :
    ∀ line ∈ slotLines isFinite items tokens slots first, '\n' ∉ line.toList := by
  induction slots generalizing first with
  | nil => simp [slotLines]
  | cons slot slots ih =>
      rw [slotLines, List.zipIdx_cons, List.flatMap_cons]
      intro line hline
      rcases List.mem_append.mp hline with hline | hline
      · rcases List.mem_append.mp hline with hline | hline
        · cases isFinite with
          | false => exact absurd hline List.not_mem_nil
          | true =>
              obtain rfl := List.mem_singleton.mp hline
              exact (Record.oneLine_horizonLine (first + 1)).feed
        · obtain ⟨item, hitem, rfl⟩ := List.mem_map.mp hline
          exact h slot List.mem_cons_self item hitem
      · exact ih (fun later hlater => h later (List.mem_cons_of_mem _ hlater)) line hline

/-- Slots with their epochs are told while these are in force. -/
theorem aboutFrom_slotSaid (slots : List β) (now first target : Nat) :
    Said.aboutFrom now (slotSaid true items tell slots first) target
      = if first ≤ target then
          (slots[target - first]?.map fun slot => (items slot).map tell).getD []
        else [] := by
  induction slots generalizing now first with
  | nil => simp [slotSaid, Said.aboutFrom]
  | cons slot slots ih =>
      have hcons : slotSaid true items tell (slot :: slots) first
          = .epoch (first + 1) :: (((items slot).map tell).map .item
            ++ slotSaid true items tell slots (first + 1)) := by
        simp [slotSaid, List.zipIdx_cons]
      rw [hcons, Said.aboutFrom, Said.aboutFrom_append, Said.foldl_moves_items,
        Said.aboutFrom_items, ih, Nat.add_sub_cancel]
      rcases Nat.lt_trichotomy first target with hlt | rfl | hlt
      · obtain ⟨before, hbefore⟩ : ∃ before, target - first = before + 1 :=
          ⟨target - first - 1, by omega⟩
        have hrest : target - (first + 1) = before := by omega
        rw [if_neg (by omega), if_pos (by omega), if_pos (by omega), hbefore, hrest,
          List.getElem?_cons_succ, List.nil_append]
      · rw [if_pos rfl, if_neg (by omega), if_pos le_rfl, Nat.sub_self, List.getElem?_cons_zero]
        simp
      · rw [if_neg (by omega), if_neg (by omega), if_neg (by omega), List.nil_append]

/-- **What is told while an epoch is in force is what stands in its slot.** -/
theorem about_slotSaid {span : Span} (slots : Vector β span.slots) {epoch : Nat}
    (h : epoch < span.slots) :
    Said.about (slotSaid span.isFinite items tell slots.toList 0) epoch
      = (items slots[epoch]).map tell := by
  have hslot : slots.toList[epoch]? = some slots[epoch] := by simp [h]
  cases hfinite : span.isFinite with
  | true => simp [Said.about, aboutFrom_slotSaid, hslot]
  | false =>
      -- there is one slot only, which is where a file starts
      have hone : span.slots = 1 := by
        have hzero : span.epochs = 0 := by simpa [Span.isFinite] using hfinite
        rw [Span.slots, hzero]
        rfl
      obtain rfl : epoch = 0 := by omega
      obtain ⟨slot, hslots⟩ : ∃ slot, slots.toList = [slot] :=
        List.length_eq_one_iff.mp (by rw [Vector.length_toList, hone])
      rw [hslots] at hslot ⊢
      obtain rfl : slot = slots[0] := by simpa using hslot
      have hsaid : slotSaid false items tell [slots[0]] 0
          = ((items slots[0]).map tell).map .item := by
        simp [slotSaid]
      rw [hsaid, Said.about, Said.aboutFrom_items, if_pos rfl]

end Slots

end MarkovPlanning
