/-
What stands on a line, said without cutting it.

A line is what comes before the first number sign (`Uncommented`), and that is a row of tokens
with colons between them and blanks around them (`Row`).  Cutting and trimming find exactly the
rows: the pieces of a text, trimmed, are the tokens of the row that it is, and it is none if one
of them is empty (`row_iff`).

There are as many tokens as there are colons and one more.  So a colon in a name makes a line of
names into one of more tokens than names (`notMem_of_length_tokensOf`).
-/
import MarkovPlanning.Proofs.Text.Token
import Mathlib

namespace MarkovPlanning

namespace Text

/-! ### Rows -/

/-- What stands on a line before a comment. -/
def Uncommented (line content : List Char) : Prop :=
  '#' ∉ content ∧ (line = content ∨ ∃ comment, line = content ++ '#' :: comment)

/-- A token with blanks around it. -/
def Padded (piece token : List Char) : Prop :=
  ∃ before after, piece = before ++ token ++ after ∧ (∀ c ∈ before, isBlank c = true) ∧
    (∀ c ∈ after, isBlank c = true) ∧ Bare token

/-- Tokens with colons between them and blanks around them. -/
inductive Row : List Char → List String → Prop
  | last {piece : List Char} {token : String} :
      ':' ∉ piece → Padded piece token.toList → Row piece [token]
  | cons {piece rest : List Char} {token : String} {tokens : List String} :
      ':' ∉ piece → Padded piece token.toList → Row rest tokens →
      Row (piece ++ ':' :: rest) (token :: tokens)

variable {piece rest token content : List Char}

/-- What stands before a comment is found by looking for it. -/
theorem uncommented_iff {line : List Char} :
    Uncommented line content ↔ content = line.takeWhile (· != '#') := by
  have hpos : ∀ content : List Char, '#' ∉ content → ∀ c ∈ content, (c != '#') = true := by
    intro content hmark c hc
    rw [bne_iff_ne]
    rintro rfl
    exact hmark hc
  constructor
  · rintro ⟨hmark, rfl | ⟨comment, rfl⟩⟩
    · exact (List.takeWhile_eq_self_iff.mpr (hpos _ hmark)).symm
    · rw [List.takeWhile_append_of_pos (hpos _ hmark),
        List.takeWhile_cons_of_neg (by decide), List.append_nil]
  · rintro rfl
    refine ⟨fun hmem => by simpa using List.mem_takeWhile_imp hmem, ?_⟩
    have hsplit := List.takeWhile_append_dropWhile (p := (· != '#')) (l := line)
    cases hdrop : line.dropWhile (· != '#') with
    | nil =>
        rw [hdrop, List.append_nil] at hsplit
        exact .inl hsplit.symm
    | cons c comment =>
        have hc := List.head?_dropWhile_not (· != '#') line
        rw [hdrop] at hc hsplit
        obtain rfl : c = '#' := by simpa using hc
        exact .inr ⟨comment, hsplit.symm⟩

/-! ### Trimming -/

/-- A text is its trimmed form with blanks around it, or has nothing but blanks. -/
theorem padded_trim (hne : trim piece ≠ []) : Padded piece (trim piece) := by
  have hrest : piece.dropWhile isBlank
      = trim piece ++ ((piece.dropWhile isBlank).reverse.takeWhile isBlank).reverse := by
    rw [trim, ← List.reverse_append, List.takeWhile_append_dropWhile, List.reverse_reverse]
  refine ⟨piece.takeWhile isBlank,
    ((piece.dropWhile isBlank).reverse.takeWhile isBlank).reverse, ?_,
    fun c hc => List.mem_takeWhile_imp hc,
    fun c hc => List.mem_takeWhile_imp (List.mem_reverse.mp hc), ?_⟩
  · rw [List.append_assoc, ← hrest, List.takeWhile_append_dropWhile]
  · constructor
    · obtain ⟨c, rest, htrim⟩ := List.exists_cons_of_ne_nil hne
      have hfirst := List.head?_dropWhile_not isBlank piece
      rw [hrest, htrim] at hfirst
      exact ⟨c, rest, htrim, hfirst⟩
    · have hlast := List.head?_dropWhile_not isBlank (piece.dropWhile isBlank).reverse
      rw [trim, Ne, List.reverse_eq_nil_iff] at hne
      obtain ⟨c, rest, hdrop⟩ := List.exists_cons_of_ne_nil hne
      rw [hdrop] at hlast
      exact ⟨rest.reverse, c, by rw [trim, hdrop, List.reverse_cons], hlast⟩

theorem padded_iff : Padded piece token ↔ token ≠ [] ∧ trim piece = token := by
  constructor
  · rintro ⟨before, after, rfl, hbefore, hafter, hbare⟩
    refine ⟨?_, trim_padded before after hbare hbefore hafter⟩
    obtain ⟨c, rest, rfl, -⟩ := hbare.first
    exact List.cons_ne_nil _ _
  · rintro ⟨hne, rfl⟩
    exact padded_trim hne

end Text

namespace Record

variable {content : List Char} {tokens : List String}

/-! ### Finding rows -/

/-- A colon starts another token. -/
theorem length_tokensOf (content : List Char) :
    (tokensOf content).length = content.count ':' + 1 := by
  induction content using Text.pieces_induction with
  | last piece hpiece =>
      rw [tokensOf_of_notMem hpiece, List.count_eq_zero.mpr hpiece]
      rfl
  | cons piece rest hpiece ih =>
      rw [tokensOf_append rest hpiece, List.length_cons, ih, List.count_append,
        List.count_eq_zero.mpr hpiece, List.count_cons_self, Nat.zero_add]

/-- What cutting makes of a row is its tokens. -/
theorem tokensOf_eq (h : Text.Row content tokens) :
    tokensOf content = tokens ∧ "" ∉ tokens := by
  have htoken : ∀ {piece : List Char} {token : String}, Text.Padded piece token.toList →
      String.ofList (Text.trim piece) = token ∧ "" ≠ token := by
    intro piece token hpadded
    obtain ⟨hne, htrim⟩ := Text.padded_iff.mp hpadded
    refine ⟨by rw [htrim, String.ofList_toList], ?_⟩
    rintro rfl
    exact hne rfl
  induction h with
  | last hpiece hpadded =>
      obtain ⟨heq, hne⟩ := htoken hpadded
      rw [tokensOf_of_notMem hpiece, heq]
      exact ⟨rfl, by simpa using hne⟩
  | cons hpiece hpadded _ ih =>
      obtain ⟨heq, hne⟩ := htoken hpadded
      rw [tokensOf_append _ hpiece, heq, ih.1]
      exact ⟨rfl, fun hmem => (List.mem_cons.mp hmem).elim hne ih.2⟩

/-- Whatever is cut into tokens is a row of them. -/
theorem row_tokensOf (h : "" ∉ tokensOf content) : Text.Row content (tokensOf content) := by
  have hpadded : ∀ {piece : List Char}, "" ≠ String.ofList (Text.trim piece) →
      Text.Padded piece (String.ofList (Text.trim piece)).toList := by
    intro piece hne
    rw [String.toList_ofList]
    exact Text.padded_trim fun hnil => hne (by rw [hnil])
  induction content using Text.pieces_induction with
  | last piece hpiece =>
      rw [tokensOf_of_notMem hpiece] at h ⊢
      exact .last hpiece (hpadded fun heq => h (List.mem_singleton.mpr heq))
  | cons piece rest hpiece ih =>
      rw [tokensOf_append rest hpiece, List.mem_cons, not_or] at h
      rw [tokensOf_append rest hpiece]
      exact .cons hpiece (hpadded h.1) (ih h.2)

/-- **Cutting and trimming find exactly the rows.** -/
theorem row_iff : Text.Row content tokens ↔ tokensOf content = tokens ∧ "" ∉ tokens := by
  constructor
  · exact tokensOf_eq
  · rintro ⟨rfl, h⟩
    exact row_tokensOf h

/-- Blanks after the last token make no difference. -/
theorem tokensOf_append_blank {after : List Char}
    (h : ∀ c ∈ after, Text.isBlank c = true ∧ c ≠ ':') (content : List Char) :
    tokensOf (content ++ after) = tokensOf content := by
  have hblank : ∀ c ∈ after, Text.isBlank c = true := fun c hc => (h c hc).1
  induction content using Text.pieces_induction with
  | last piece hpiece =>
      have hcolon : ':' ∉ piece ++ after := fun hmem =>
        (List.mem_append.mp hmem).elim hpiece fun hmem => (h _ hmem).2 rfl
      rw [tokensOf_of_notMem hcolon, tokensOf_of_notMem hpiece, Text.trim_append_right hblank]
  | cons piece rest hpiece ih =>
      rw [List.append_assoc, List.cons_append, tokensOf_append _ hpiece, ih,
        tokensOf_append _ hpiece]

end Record

/-! ### Colons in names -/

/-- There is a colon between any two names, and there may be others in them. -/
theorem count_writeTokens (name : String) {names : List String} (h : names ≠ []) :
    (writeTokens (name :: names)).toList.count ':'
      = name.toList.count ':' + 1 + (writeTokens names).toList.count ':' := by
  rw [toList_writeTokens_cons name h, List.count_append, List.count_cons_of_ne (by decide),
    List.count_cons_self, List.count_cons_of_ne (by decide)]
  omega

theorem length_le_count {names : List String} (h : names ≠ []) :
    names.length ≤ (writeTokens names).toList.count ':' + 1 := by
  induction names with
  | nil => exact absurd rfl h
  | cons name rest ih =>
      by_cases hrest : rest = []
      · subst hrest
        simp
      · have := ih hrest
        rw [count_writeTokens name hrest, List.length_cons]
        omega

/-- **If a line has as many tokens as names, there are no colons in the names.** -/
theorem notMem_of_length_tokensOf {names : List String}
    (h : (Record.tokensOf (writeTokens names).toList).length = names.length) :
    ∀ name ∈ names, ':' ∉ name.toList := by
  rw [Record.length_tokensOf] at h
  induction names with
  | nil => simp
  | cons name rest ih =>
      by_cases hrest : rest = []
      · subst hrest
        rw [writeTokens, String.intercalate_singleton] at h
        exact List.forall_mem_singleton.mpr (List.count_eq_zero.mp (Nat.succ.inj h))
      · have hle := length_le_count hrest
        rw [count_writeTokens name hrest, List.length_cons] at h
        refine List.forall_mem_cons.mpr ⟨List.count_eq_zero.mp ?_, ih ?_⟩ <;> omega

end MarkovPlanning
