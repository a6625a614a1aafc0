/-
What policy files say.

Writing a policy and reading it meet at the records between them.  `Says` holds of lines of
text and the records in them, and is built up line by line as a file is written; what a file
says is what comes back when its bytes are read (`Says.read`).  `Leads` holds of records that
take a reader from one state to another, wherever in a file they stand, and is built up in the
same way.  A policy comes back when its lines say records that lead from the empty policy to
it (`Says.foldlM_read`).

Both kinds of policy keep one slot per epoch and write the items in their slots in order.  The
record that moves on to an epoch is only written for spans with a last epoch.  A reader that
starts with nothing in its slots, moves on when it is told to and puts every item where it is,
ends with the slots that were written (`read_slots`).
-/
import MarkovPlanning.Horizon
import MarkovPlanning.Proofs.Decimal.Digits
import MarkovPlanning.Proofs.Text.Token
import Mathlib

namespace MarkovPlanning

/-! ### Lines -/

/-- The first token of a line that moves on to an epoch. -/
abbrev horizonToken : String := "horizon"

theorem isToken_horizon : IsToken horizonToken :=
  .of_forall (by decide) (by simp [horizonToken, Text.isBlank])

theorem isToken_toString (n : Nat) : IsToken (toString n) := by
  refine .of_forall ?_ fun c hc => ?_
  · rw [Nat.toString_eq_repr]
    exact Nat.repr_ne_empty
  · rw [Nat.toString_eq_repr, Nat.toList_repr] at hc
    have hdigit := Decimal.areDigits_toDigits n c hc
    exact ⟨Decimal.isBlank_of_isDigit hdigit, Decimal.ne_of_isDigit hdigit (by decide),
      Decimal.ne_of_isDigit hdigit (by decide)⟩

/-- Tokens that come back from a line of their own. -/
structure AreTokens (tokens : List String) : Prop where
  isToken : ∀ token ∈ tokens, IsToken token
  nonempty : tokens ≠ []
  /-- This token is kept for the lines that move on to an epoch. -/
  head : tokens.head? ≠ some horizonToken

namespace Record

/-- A line without a comment says what its tokens say. -/
theorem ofLine_eq {line : String} (hcomment : '#' ∉ line.toList)
    (hblank : ∃ c ∈ line.toList, Text.isBlank c = false) :
    ofLine line = (ofTokens (tokensOf line.toList)).map some := by
  have hcontent : content line = line.toList := by
    refine List.takeWhile_eq_self_iff.mpr fun c hc => bne_iff_ne.mpr ?_
    rintro rfl
    exact hcomment hc
  have hall : ¬line.toList.all Text.isBlank = true := by
    obtain ⟨c, hc, hblank⟩ := hblank
    intro hall
    exact Bool.false_ne_true (hblank.symm.trans (List.all_eq_true.mp hall c hc))
  rw [ofLine, hcontent, if_neg hall]

theorem ofTokens_eq {tokens : List String} (hempty : "" ∉ tokens)
    (hhead : tokens.head? ≠ some horizonToken) : ofTokens tokens = .ok (.tokens tokens) := by
  rw [ofTokens, if_neg hempty]
  rintro rest rfl
  exact hhead rfl

theorem ofTokens_horizon {number : Nat} (hpos : 0 < number)
    (h : number ≤ Decimal.greatestWhole) :
    ofTokens [horizonToken, toString number] = .ok (.horizon number) := by
  have hempty : "" ∉ [horizonToken, toString number] := by
    rintro hmem
    rcases List.mem_cons.mp hmem with heq | hmem
    · exact isToken_horizon.nonempty heq.symm
    · exact (isToken_toString number).nonempty (List.mem_singleton.mp hmem).symm
  obtain ⟨before, rfl⟩ := Nat.exists_eq_succ_of_ne_zero hpos.ne'
  unfold ofTokens
  rw [if_neg hempty]
  simp only [Decimal.whole?_toString h]

/-- **A line of tokens says them.** -/
theorem ofLine_writeTokens {tokens : List String} (h : AreTokens tokens) :
    ofLine (writeTokens tokens) = .ok (some (.tokens tokens)) := by
  have hcomment : '#' ∉ (writeTokens tokens).toList := by
    intro hmem
    rcases mem_writeTokens hmem with h' | h' | ⟨token, htoken, h'⟩
    · exact absurd h' (by decide)
    · exact absurd h' (by decide)
    · exact (h.isToken token htoken).comment h'
  have hblank : ∃ c ∈ (writeTokens tokens).toList, Text.isBlank c = false := by
    obtain ⟨c, hc, hblank⟩ := getLast?_writeTokens h.isToken h.nonempty
    exact ⟨c, List.mem_of_getLast? hc, hblank⟩
  have hempty : "" ∉ tokens := fun hmem => (h.isToken "" hmem).nonempty rfl
  rw [ofLine_eq hcomment hblank, tokensOf_writeTokens h.isToken h.nonempty,
    ofTokens_eq hempty h.head]
  rfl

/-- The line that moves on to an epoch. -/
def horizonLine (number : Nat) : String := "horizon: " ++ toString number

theorem toList_horizonLine (number : Nat) :
    (horizonLine number).toList
      = horizonToken.toList ++ ':' :: ([' '] ++ (toString number).toList) := by
  rw [horizonLine, String.toList_append]
  rfl

theorem notMem_horizonLine (number : Nat) : '#' ∉ (horizonLine number).toList := by
  rw [toList_horizonLine]
  simp only [List.mem_append, List.mem_cons, List.not_mem_nil, or_false, not_or]
  exact ⟨isToken_horizon.comment, by decide, by decide, (isToken_toString number).comment⟩

theorem exists_mem_horizonLine (number : Nat) :
    ∃ c ∈ (horizonLine number).toList, Text.isBlank c = false := by
  refine ⟨'h', ?_, by decide⟩
  rw [toList_horizonLine]
  exact List.mem_append_left _ (by decide)

theorem tokensOf_horizonLine (number : Nat) :
    tokensOf (horizonLine number).toList = [horizonToken, toString number] := by
  have hnumber := isToken_toString number
  have hsecond : ':' ∉ [' '] ++ (toString number).toList := by
    rw [List.mem_append, not_or]
    exact ⟨by decide, hnumber.colon⟩
  rw [toList_horizonLine, tokensOf_append _ isToken_horizon.colon, tokensOf_of_notMem hsecond,
    Text.trim_append_left (by simp [Text.isBlank]), hnumber.trimmed, isToken_horizon.trimmed,
    String.ofList_toList, String.ofList_toList]

/-- **The line that moves on to an epoch says so.** -/
theorem ofLine_horizonLine {number : Nat} (hpos : 0 < number)
    (h : number ≤ Decimal.greatestWhole) :
    ofLine (horizonLine number) = .ok (some (.horizon number)) := by
  rw [ofLine_eq (notMem_horizonLine number) (exists_mem_horizonLine number),
    tokensOf_horizonLine, ofTokens_horizon hpos h]
  rfl

theorem oneLine_horizonLine (number : Nat) : Text.OneLine (horizonLine number) where
  feed := by
    rw [toList_horizonLine]
    simp only [List.mem_append, List.mem_cons, List.not_mem_nil, or_false, not_or]
    exact ⟨isToken_horizon.feed, by decide, by decide, (isToken_toString number).feed⟩
  last := by
    obtain ⟨before, c, hlast, hc⟩ := (isToken_toString number).bare.last
    intro heq
    rw [toList_horizonLine, hlast, ← List.append_assoc, ← List.cons_append, ← List.append_assoc,
      List.getLast?_concat] at heq
    have hcarriage : c = '\r' := Option.some.inj heq
    subst hcarriage
    exact absurd hc (by decide)

end Record

/-! ### Files -/

/-- Lines of text, and the records in them. -/
inductive Says : List String → List Record → Prop
  | nil : Says [] []
  /-- A line that says nothing. -/
  | skip {text : String} {texts : List String} {records : List Record} :
      Text.OneLine text → Record.ofLine text = .ok none → Says texts records →
      Says (text :: texts) records
  /-- A line with a record. -/
  | take {text : String} {texts : List String} {record : Record} {records : List Record} :
      Text.OneLine text → Record.ofLine text = .ok (some record) → Says texts records →
      Says (text :: texts) (record :: records)

namespace Says

variable {texts later : List String} {records more : List Record}

theorem append (h : Says texts records) (hlater : Says later more) :
    Says (texts ++ later) (records ++ more) := by
  induction h with
  | nil => exact hlater
  | skip hline hrecord _ ih => exact ih.skip hline hrecord
  | take hline hrecord _ ih => exact ih.take hline hrecord

theorem oneLine (h : Says texts records) : ∀ text ∈ texts, Text.OneLine text := by
  induction h with
  | nil => simp
  | skip hline _ _ ih => exact List.forall_mem_cons.mpr ⟨hline, ih⟩
  | take hline _ _ ih => exact List.forall_mem_cons.mpr ⟨hline, ih⟩

/-- A line of tokens for every one of some items. -/
theorem map {ι : Type} {items : List ι} {tokens : ι → List String}
    (h : ∀ item ∈ items, AreTokens (tokens item)) :
    Says (items.map fun item => writeTokens (tokens item))
      (items.map fun item => .tokens (tokens item)) := by
  induction items with
  | nil => exact nil
  | cons item items ih =>
      have hitem := h item List.mem_cons_self
      exact (ih fun item hitem => h item (List.mem_cons_of_mem _ hitem)).take
        (oneLine_writeTokens hitem.isToken hitem.nonempty) (Record.ofLine_writeTokens hitem)

/-- The records of a file are numbered by their lines. -/
theorem mapM_readLine (h : Says texts records) (start : Nat) :
    ∃ lines, ((texts.map some).zipIdx start).mapM
        (fun (line, number) => readLine line number) = Except.ok lines ∧
      (lines.filterMap id).map Line.record = records := by
  induction h generalizing start with
  | nil => exact ⟨[], rfl, rfl⟩
  | skip _ hrecord _ ih =>
      obtain ⟨lines, hlines, hrecords⟩ := ih (start + 1)
      refine ⟨none :: lines, ?_, hrecords⟩
      rw [List.map_cons, List.zipIdx_cons, List.mapM_cons, hlines]
      simp only [readLine, hrecord]
      rfl
  | @take _ _ record _ _ hrecord _ ih =>
      obtain ⟨lines, hlines, hrecords⟩ := ih (start + 1)
      refine ⟨some { number := start, record } :: lines, ?_, ?_⟩
      · rw [List.map_cons, List.zipIdx_cons, List.mapM_cons, hlines]
        simp only [readLine, hrecord]
        rfl
      · exact congrArg (record :: ·) hrecords

/-- **What lines say comes back when the bytes of their text are read.** -/
theorem read (h : Says texts records) :
    ∃ lines, Source.read (.ofBytes (unlines texts).toUTF8.data.toList) = .ok lines ∧
      lines.map Line.record = records := by
  obtain ⟨lines, hlines, hrecords⟩ := h.mapM_readLine 1
  refine ⟨lines.filterMap id, ?_, hrecords⟩
  rw [Source.ofBytes, Text.byteLines_toUTF8, textLines_unlines h.oneLine, Source.read, hlines]
  rfl

end Says

/-! ### Readers -/

section Readers

variable {σ : Type} {take : σ → Line → Except Error σ}

/-- Records that take a reader from one state to another, wherever they stand. -/
def Leads (take : σ → Line → Except Error σ) (records : List Record) (start stop : σ) : Prop :=
  ∀ lines : List Line, lines.map Line.record = records → lines.foldlM take start = .ok stop

namespace Leads

variable {start middle stop : σ} {record : Record} {records more : List Record}

theorem nil : Leads take [] start start := by
  intro lines hlines
  obtain rfl := List.map_eq_nil_iff.mp hlines
  rfl

theorem single (h : ∀ line : Line, line.record = record → take start line = .ok stop) :
    Leads take [record] start stop := by
  intro lines hlines
  obtain ⟨line, rfl, hline⟩ := List.map_eq_singleton_iff.mp hlines
  rw [List.foldlM_cons, h line hline]
  rfl

theorem append (h : Leads take records start middle) (hmore : Leads take more middle stop) :
    Leads take (records ++ more) start stop := by
  intro lines hlines
  obtain ⟨first, rest, rfl, hfirst, hrest⟩ := List.map_eq_append_iff.mp hlines
  rw [List.foldlM_append, h first hfirst]
  exact hmore rest hrest

end Leads

/-- **Lines that say what leads to a state are read to it.** -/
theorem Says.foldlM_read {texts : List String} {records : List Record} {start stop : σ}
    (h : Says texts records) (hleads : Leads take records start stop) :
    (do let lines ← Source.read (.ofBytes (unlines texts).toUTF8.data.toList)
        lines.foldlM take start) = .ok stop := by
  obtain ⟨lines, hlines, hrecords⟩ := h.read
  rw [hlines]
  exact hleads lines hrecords

end Readers

/-! ### Slots -/

section Slots

variable {β ι : Type} {isFinite : Bool}

/-- The record that moves on to an epoch, if it is written. -/
def epochRecords (isFinite : Bool) (epoch : Nat) : List Record :=
  if isFinite then [.horizon (epoch + 1)] else []

theorem says_epochLines {epoch : Nat} (h : isFinite = true → epoch < Decimal.greatestWhole) :
    Says (epochLines isFinite epoch) (epochRecords isFinite epoch) := by
  cases isFinite with
  | false => exact .nil
  | true =>
      exact .take (Record.oneLine_horizonLine _)
        (Record.ofLine_horizonLine epoch.succ_pos (h rfl)) .nil

/-- The lines of slots. -/
def slotLines (isFinite : Bool) (items : β → List ι) (tokens : ι → List String)
    (slots : List β) (first : Nat) : List String :=
  (slots.zipIdx first).flatMap fun (slot, epoch) =>
    epochLines isFinite epoch ++ (items slot).map fun item => writeTokens (tokens item)

/-- The records of slots. -/
def slotRecords (isFinite : Bool) (items : β → List ι) (tokens : ι → List String)
    (slots : List β) (first : Nat) : List Record :=
  (slots.zipIdx first).flatMap fun (slot, epoch) =>
    epochRecords isFinite epoch ++ (items slot).map fun item => .tokens (tokens item)

variable {items : β → List ι} {tokens : ι → List String}

theorem says_slotLines {slots : List β} {first : Nat}
    (h : ∀ slot ∈ slots, ∀ item ∈ items slot, AreTokens (tokens item))
    (hcount : isFinite = true → first + slots.length ≤ Decimal.greatestWhole) :
    Says (slotLines isFinite items tokens slots first)
      (slotRecords isFinite items tokens slots first) := by
  induction slots generalizing first with
  | nil => exact .nil
  | cons slot slots ih =>
      have hfirst : isFinite = true → first < Decimal.greatestWhole := by
        intro hfinite
        have := hcount hfinite
        rw [List.length_cons] at this
        omega
      have hrest : isFinite = true → first + 1 + slots.length ≤ Decimal.greatestWhole := by
        intro hfinite
        have := hcount hfinite
        rw [List.length_cons] at this
        omega
      rw [slotLines, slotRecords, List.zipIdx_cons, List.flatMap_cons, List.flatMap_cons]
      exact ((says_epochLines hfirst).append (.map (h slot List.mem_cons_self))).append
        (ih (fun later hlater => h later (List.mem_cons_of_mem _ hlater)) hrest)

/-- The first slots, and nothing yet in those after them. -/
def filled {n : Nat} (slots : Vector β n) (nothing : β) (count : Nat) : Vector β n :=
  .ofFn fun slot => if slot < count then slots[slot] else nothing

variable {n : Nat} {slots : Vector β n} {nothing : β}

theorem filled_zero : filled slots nothing 0 = Vector.replicate n nothing := by
  ext slot hslot
  simp [filled]

theorem filled_all : filled slots nothing n = slots := by
  ext slot hslot
  simp [filled]

theorem getElem_filled {count : Nat} (h : count < n) :
    (filled slots nothing count)[count] = nothing := by
  simp [filled]

theorem set_filled {count : Nat} (h : count < n) :
    (filled slots nothing count).set count slots[count] = filled slots nothing (count + 1) := by
  ext slot hslot
  rw [Vector.getElem_set]
  simp only [filled, Vector.getElem_ofFn]
  by_cases heq : count = slot
  · subst heq
    simp
  · have hlt : slot < count ↔ slot < count + 1 := by omega
    simp [heq, hlt]

/-- A reader that fills slots, starting at the first one: `make` is its state when it has read
some of them and is at one of them, and `put` is how it takes up an item. -/
structure Fills {σ : Type} (take : σ → Line → Except Error σ) (make : Vector β n → Nat → σ)
    (put : β → ι → β) (tokens : ι → List String) (Known : ι → Prop) : Prop where
  move : ∀ {slots : Vector β n} {before epoch : Nat} {line : Line}, epoch < n →
    line.record = .horizon (epoch + 1) → take (make slots before) line = .ok (make slots epoch)
  item : ∀ {slots : Vector β n} {epoch : Nat} {line : Line} {item : ι} (h : epoch < n),
    Known item → line.record = .tokens (tokens item) →
    take (make slots epoch) line = .ok (make (slots.set epoch (put slots[epoch] item)) epoch)

namespace Fills

variable {σ : Type} {span : Span} {take : σ → Line → Except Error σ} {put : β → ι → β}
  {Known : ι → Prop} {slots : Vector β span.slots} {make : Vector β span.slots → Nat → σ}

/-- An endless span has one slot, which is where the reader starts. -/
theorem leads_epochRecords (h : Fills take make put tokens Known) {epoch : Nat}
    (hepoch : epoch < span.slots) :
    Leads take (epochRecords span.isFinite epoch) (make slots (epoch - 1)) (make slots epoch) := by
  cases hfinite : span.isFinite with
  | true => exact .single fun line hline => h.move hepoch hline
  | false =>
      have hzero : span.epochs = 0 := by simpa [Span.isFinite] using hfinite
      have hfirst : epoch = 0 := by
        rw [Span.slots, hzero] at hepoch
        omega
      subst hfirst
      exact .nil

theorem leads_items (h : Fills take make put tokens Known) (slots : Vector β span.slots)
    {epoch : Nat} (hepoch : epoch < span.slots) {items : List ι}
    (hknown : ∀ item ∈ items, Known item) :
    Leads take (items.map fun item => .tokens (tokens item)) (make slots epoch)
      (make (slots.set epoch (items.foldl put slots[epoch])) epoch) := by
  induction items generalizing slots with
  | nil =>
      rw [List.foldl_nil, Vector.set_getElem_self]
      exact .nil
  | cons item items ih =>
      have hitem : Leads take [.tokens (tokens item)] (make slots epoch)
          (make (slots.set epoch (put slots[epoch] item)) epoch) :=
        .single fun line hline => h.item hepoch (hknown item List.mem_cons_self) hline
      have hitems := ih (slots.set epoch (put slots[epoch] item))
        fun later hlater => hknown later (List.mem_cons_of_mem _ hlater)
      rw [Vector.getElem_set_self, Vector.set_set] at hitems
      exact hitem.append hitems

/-- **A reader with nothing in its slots is led to the slots by their records.** -/
theorem leads_slotRecords (h : Fills take make put tokens Known)
    (hknown : ∀ slot ∈ slots.toList, ∀ item ∈ items slot, Known item)
    (hbuild : ∀ slot ∈ slots.toList, (items slot).foldl put nothing = slot) :
    Leads take (slotRecords span.isFinite items tokens slots.toList 0)
      (make (Vector.replicate span.slots nothing) 0) (make slots (span.slots - 1)) := by
  -- a reader that has filled the first slots is still at the last of them
  suffices hrest : ∀ (rest : List β) (first : Nat), first + rest.length = span.slots →
      slots.toList.drop first = rest →
      Leads take (slotRecords span.isFinite items tokens rest first)
        (make (filled slots nothing first) (first - 1)) (make slots (span.slots - 1)) by
    have hall := hrest slots.toList 0 (by rw [Vector.length_toList, Nat.zero_add]) rfl
    rwa [filled_zero] at hall
  intro rest
  induction rest with
  | nil =>
      intro first hfirst _
      rw [List.length_nil, Nat.add_zero] at hfirst
      subst hfirst
      rw [filled_all]
      exact .nil
  | cons slot rest ih =>
      intro first hfirst hdrop
      have hlt : first < span.slots := by
        rw [List.length_cons] at hfirst
        omega
      have hlength : first < slots.toList.length := by rwa [Vector.length_toList]
      rw [List.drop_eq_getElem_cons hlength, Vector.getElem_toList, List.cons.injEq] at hdrop
      obtain ⟨rfl, hdrop⟩ := hdrop
      have hmem : slots[first] ∈ slots.toList := by simp
      have hitems := h.leads_items (filled slots nothing first) hlt
        (hknown slots[first] hmem)
      rw [getElem_filled hlt, hbuild slots[first] hmem, set_filled hlt] at hitems
      rw [slotRecords, List.zipIdx_cons, List.flatMap_cons]
      refine ((h.leads_epochRecords hlt).append hitems).append (ih (first + 1) ?_ hdrop)
      rw [List.length_cons] at hfirst
      omega

/-- **Slots that were written are read.** -/
theorem read_slots (h : Fills take make put tokens Known) (items : β → List ι) (nothing : β)
    (hepochs : span.epochs ≤ Decimal.greatestWhole)
    (hknown : ∀ slot ∈ slots.toList, ∀ item ∈ items slot, Known item)
    (htokens : ∀ slot ∈ slots.toList, ∀ item ∈ items slot, AreTokens (tokens item))
    (hbuild : ∀ slot ∈ slots.toList, (items slot).foldl put nothing = slot)
    {header : String} (hheader : Says [header] []) :
    (do let lines ← Source.read (.ofBytes (unlines
            (header :: slotLines span.isFinite items tokens slots.toList 0)).toUTF8.data.toList)
        lines.foldlM take (make (Vector.replicate span.slots nothing) 0))
      = .ok (make slots (span.slots - 1)) := by
  have hcount : span.isFinite = true → 0 + slots.toList.length ≤ Decimal.greatestWhole := by
    intro hfinite
    have hpos : 0 < span.epochs := of_decide_eq_true hfinite
    rw [Vector.length_toList, Span.slots]
    omega
  exact (hheader.append (says_slotLines htokens hcount)).foldlM_read
    (h.leads_slotRecords hknown hbuild)

end Fills

end Slots

end MarkovPlanning
