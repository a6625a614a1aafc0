/-
Tokens on a line.

Tokens are written with a colon and blanks between them, and a line is read by cutting it at
the colons and taking the blanks away from the ends of the pieces.  Names without colons come
back without the blanks at their ends (`tokensOf_writeTokens_of_notMem`).  A token that holds no
colon, and has no blanks at its ends that could be taken for those of the line, comes back as
it was (`tokensOf_writeTokens`).  Blanks inside of a token are its own.

For that to be the whole line, no token may hold a number sign, and for the line to be a line,
none may hold a line feed.  `IsToken` is all of this.
-/
import MarkovPlanning.Proofs.Text.Line
import Mathlib

namespace MarkovPlanning

namespace Text

/-! ### Blanks at the ends -/

/-- A text that neither starts nor ends with a blank. -/
structure Bare (text : List Char) : Prop where
  first : ∃ c rest, text = c :: rest ∧ isBlank c = false
  last : ∃ before c, text = before ++ [c] ∧ isBlank c = false

/-- A text that is not changed by taking blanks away from its ends has none there. -/
theorem bare_of_trim {text : List Char} (hne : text ≠ []) (h : trim text = text) : Bare text := by
  have hlength : text.length ≤ (text.dropWhile isBlank).length := by
    calc text.length = (trim text).length := by rw [h]
      _ ≤ (text.dropWhile isBlank).length := by
        rw [trim, List.length_reverse]
        exact ((List.dropWhile_sublist _).length_le).trans_eq List.length_reverse
  have hdrop : text.dropWhile isBlank = text :=
    (List.dropWhile_sublist _).eq_of_length_le hlength
  constructor
  · obtain ⟨c, rest, rfl⟩ := List.exists_cons_of_ne_nil hne
    refine ⟨c, rest, rfl, ?_⟩
    have := List.head?_dropWhile_not isBlank (c :: rest)
    rwa [hdrop] at this
  · rw [trim, hdrop] at h
    have hreverse : text.reverse.dropWhile isBlank = text.reverse := by
      have := congrArg List.reverse h
      rwa [List.reverse_reverse] at this
    obtain ⟨before, c, rfl⟩ := (List.eq_nil_or_concat text).resolve_left hne
    refine ⟨before, c, List.concat_eq_append, ?_⟩
    have := List.head?_dropWhile_not isBlank (before.concat c).reverse
    rw [hreverse, List.concat_eq_append, List.reverse_append] at this
    exact this

/-- Blanks are taken away from the ends as far as they go. -/
theorem trim_padded (before : List Char) {text : List Char} (after : List Char) (h : Bare text)
    (hbefore : ∀ c ∈ before, isBlank c = true) (hafter : ∀ c ∈ after, isBlank c = true) :
    trim (before ++ text ++ after) = text := by
  have hfront : (before ++ text ++ after).dropWhile isBlank = text ++ after := by
    obtain ⟨c, rest, rfl, hc⟩ := h.first
    rw [List.append_assoc, List.dropWhile_append_of_pos hbefore, List.cons_append,
      List.dropWhile_cons_of_neg (by rw [hc]; exact Bool.false_ne_true)]
  have hback : (text ++ after).reverse.dropWhile isBlank = text.reverse := by
    obtain ⟨init, c, rfl, hc⟩ := h.last
    rw [List.reverse_append, List.dropWhile_append_of_pos fun c hc => hafter c
      (List.mem_reverse.mp hc), List.reverse_append, List.reverse_singleton, List.singleton_append,
      List.dropWhile_cons_of_neg (by rw [hc]; exact Bool.false_ne_true)]
  rw [trim, hfront, hback, List.reverse_reverse]

theorem trim_of_blank {piece : List Char} (h : ∀ c ∈ piece, isBlank c = true) :
    trim piece = [] := by
  rw [trim, List.dropWhile_eq_nil_iff.mpr h]
  rfl

/-- Blanks before a text make no difference. -/
theorem trim_append_left {before : List Char} (h : ∀ c ∈ before, isBlank c = true)
    (text : List Char) : trim (before ++ text) = trim text := by
  rw [trim, List.dropWhile_append_of_pos h, ← trim]

/-- Blanks after a text make no difference. -/
theorem trim_append_right {after : List Char} (h : ∀ c ∈ after, isBlank c = true)
    (text : List Char) : trim (text ++ after) = trim text := by
  by_cases hblank : ∀ c ∈ text, isBlank c = true
  · rw [trim_of_blank hblank, trim_of_blank]
    intro c hc
    exact (List.mem_append.mp hc).elim (hblank c) (h c)
  · have hne : text.dropWhile isBlank ≠ [] := fun hnil =>
      hblank (List.dropWhile_eq_nil_iff.mp hnil)
    rw [trim, trim, List.dropWhile_append, if_neg (by simpa using hne), List.reverse_append,
      List.dropWhile_append_of_pos fun c hc => h c (List.mem_reverse.mp hc)]

/-! ### Pieces between separators -/

theorem split_of_notMem {separator : Char} {piece : List Char} (h : separator ∉ piece) :
    split separator piece = [piece] := by
  induction piece with
  | nil => rfl
  | cons c piece ih =>
      obtain ⟨hc, hpiece⟩ := not_or.mp (List.mem_cons.not.mp h)
      rw [split, if_neg (Ne.symm hc), ih hpiece]

theorem split_append {separator : Char} {piece : List Char} (rest : List Char)
    (h : separator ∉ piece) :
    split separator (piece ++ separator :: rest) = piece :: split separator rest := by
  induction piece with
  | nil => exact if_pos rfl
  | cons c piece ih =>
      obtain ⟨hc, hpiece⟩ := not_or.mp (List.mem_cons.not.mp h)
      rw [List.cons_append, split, if_neg (Ne.symm hc), ih hpiece]

/-- A text is a piece without colons, or one with another text after it. -/
theorem pieces_induction {P : List Char → Prop} (last : ∀ piece, ':' ∉ piece → P piece)
    (cons : ∀ piece rest, ':' ∉ piece → P rest → P (piece ++ ':' :: rest))
    (content : List Char) : P content := by
  induction hlength : content.length using Nat.strong_induction_on generalizing content with
  | _ n ih =>
      by_cases hcolon : ':' ∈ content
      · obtain ⟨piece, rest, rfl, hpiece⟩ := List.eq_append_cons_of_mem hcolon
        refine cons piece rest hpiece (ih rest.length ?_ rest rfl)
        rw [← hlength, List.length_append, List.length_cons]
        omega
      · exact last content hcolon

end Text

namespace Record

variable {content piece : List Char}

theorem tokensOf_of_notMem (h : ':' ∉ content) :
    tokensOf content = [String.ofList (Text.trim content)] := by
  rw [tokensOf, Text.split_of_notMem h, List.map_singleton]

theorem tokensOf_append (rest : List Char) (h : ':' ∉ piece) :
    tokensOf (piece ++ ':' :: rest) = String.ofList (Text.trim piece) :: tokensOf rest := by
  rw [tokensOf, Text.split_append rest h, List.map_cons, ← tokensOf]

/-- Blanks before the first token make no difference. -/
theorem tokensOf_blank_append {before : List Char}
    (h : ∀ c ∈ before, Text.isBlank c = true ∧ c ≠ ':') (content : List Char) :
    tokensOf (before ++ content) = tokensOf content := by
  have hblank : ∀ c ∈ before, Text.isBlank c = true := fun c hc => (h c hc).1
  have hcolon : ∀ {piece : List Char}, ':' ∉ piece → ':' ∉ before ++ piece := by
    intro piece hpiece hmem
    exact (List.mem_append.mp hmem).elim (fun hmem => (h _ hmem).2 rfl) hpiece
  induction content using Text.pieces_induction with
  | last piece hpiece =>
      rw [tokensOf_of_notMem (hcolon hpiece), tokensOf_of_notMem hpiece,
        Text.trim_append_left hblank]
  | cons piece rest hpiece _ =>
      rw [← List.append_assoc, tokensOf_append rest (hcolon hpiece), tokensOf_append rest hpiece,
        Text.trim_append_left hblank]

end Record

/-! ### Tokens -/

/-- A text that comes back as it is when it is written on a line. -/
structure IsToken (text : String) : Prop where
  nonempty : text ≠ ""
  trimmed : Text.trim text.toList = text.toList
  colon : ':' ∉ text.toList
  comment : '#' ∉ text.toList
  feed : '\n' ∉ text.toList

namespace IsToken

instance (text : String) : Decidable (IsToken text) :=
  decidable_of_iff
    (text ≠ "" ∧ Text.trim text.toList = text.toList ∧ ':' ∉ text.toList ∧ '#' ∉ text.toList ∧
      '\n' ∉ text.toList)
    ⟨fun ⟨h₁, h₂, h₃, h₄, h₅⟩ => ⟨h₁, h₂, h₃, h₄, h₅⟩,
      fun ⟨h₁, h₂, h₃, h₄, h₅⟩ => ⟨h₁, h₂, h₃, h₄, h₅⟩⟩

variable {token : String} {tokens : List String}

theorem bare (h : IsToken token) : Text.Bare token.toList :=
  Text.bare_of_trim (fun hnil => h.nonempty (String.toList_eq_nil_iff.mp hnil)) h.trimmed

/-- Texts without blanks are tokens, unless they hold one of the marks. -/
theorem of_forall (hne : token ≠ "")
    (h : ∀ c ∈ token.toList, Text.isBlank c = false ∧ c ≠ ':' ∧ c ≠ '#') : IsToken token where
  nonempty := hne
  trimmed := by
    obtain ⟨c, rest, hfirst⟩ :=
      List.exists_cons_of_ne_nil fun hnil => hne (String.toList_eq_nil_iff.mp hnil)
    obtain ⟨before, d, hlast⟩ := (List.eq_nil_or_concat token.toList).resolve_left
      fun hnil => hne (String.toList_eq_nil_iff.mp hnil)
    rw [List.concat_eq_append] at hlast
    have hbare : Text.Bare token.toList :=
      ⟨⟨c, rest, hfirst, (h c (by simp [hfirst])).1⟩, before, d, hlast, (h d (by simp [hlast])).1⟩
    simpa using Text.trim_padded [] [] hbare (by simp) (by simp)
  colon := fun hmem => (h _ hmem).2.1 rfl
  comment := fun hmem => (h _ hmem).2.2 rfl
  feed := fun hmem => absurd (h _ hmem).1 (by decide)

end IsToken

/-- What is written about tokens, as characters. -/
theorem toList_writeTokens_cons (token : String) {tokens : List String} (h : tokens ≠ []) :
    (writeTokens (token :: tokens)).toList
      = token.toList ++ ' ' :: ':' :: ' ' :: (writeTokens tokens).toList := by
  rw [writeTokens, String.intercalate_cons_of_ne_nil h, String.toList_append,
    String.toList_append, List.append_assoc]
  rfl

/-- The characters of a line of tokens are those of the tokens and what stands between them. -/
theorem mem_writeTokens {tokens : List String} {c : Char}
    (h : c ∈ (writeTokens tokens).toList) :
    c = ' ' ∨ c = ':' ∨ ∃ token ∈ tokens, c ∈ token.toList := by
  induction tokens with
  | nil => simp [writeTokens] at h
  | cons token rest ih =>
      by_cases hrest : rest = []
      · subst hrest
        rw [writeTokens, String.intercalate_singleton] at h
        exact .inr (.inr ⟨token, List.mem_cons_self, h⟩)
      · rw [toList_writeTokens_cons token hrest] at h
        simp only [List.mem_append, List.mem_cons] at h
        rcases h with h | h | h | h | h
        · exact .inr (.inr ⟨token, List.mem_cons_self, h⟩)
        · exact .inl h
        · exact .inr (.inl h)
        · exact .inl h
        · rcases ih h with h | h | ⟨later, hlater, h⟩
          · exact .inl h
          · exact .inr (.inl h)
          · exact .inr (.inr ⟨later, List.mem_cons_of_mem _ hlater, h⟩)

/-- A line of tokens ends with the end of the last one. -/
theorem getLast?_writeTokens {tokens : List String} (h : ∀ token ∈ tokens, IsToken token)
    (hne : tokens ≠ []) :
    ∃ c, (writeTokens tokens).toList.getLast? = some c ∧ Text.isBlank c = false := by
  induction tokens with
  | nil => exact absurd rfl hne
  | cons token rest ih =>
      by_cases hrest : rest = []
      · subst hrest
        obtain ⟨before, c, hlast, hc⟩ := (h token List.mem_cons_self).bare.last
        rw [writeTokens, String.intercalate_singleton, hlast]
        exact ⟨c, List.getLast?_concat, hc⟩
      · obtain ⟨c, hlast, hc⟩ := ih (fun later hlater => h later (List.mem_cons_of_mem _ hlater))
          hrest
        refine ⟨c, ?_, hc⟩
        rw [toList_writeTokens_cons token hrest, List.getLast?_append, List.getLast?_cons_cons,
          List.getLast?_cons_cons, List.getLast?_cons, hlast]
        rfl

/-- **A line of tokens is one line.** -/
theorem oneLine_writeTokens {tokens : List String} (h : ∀ token ∈ tokens, IsToken token)
    (hne : tokens ≠ []) : Text.OneLine (writeTokens tokens) where
  feed := by
    intro hmem
    rcases mem_writeTokens hmem with h' | h' | ⟨token, htoken, h'⟩
    · exact absurd h' (by decide)
    · exact absurd h' (by decide)
    · exact (h token htoken).feed h'
  last := by
    intro hlast
    obtain ⟨c, hc, hblank⟩ := getLast?_writeTokens h hne
    obtain rfl := Option.some.inj (hlast.symm.trans hc)
    exact absurd hblank (by decide)

/-- **Names without colons come back from their line, less the blanks at their ends.** -/
theorem tokensOf_writeTokens_of_notMem {names : List String}
    (h : ∀ name ∈ names, ':' ∉ name.toList) (hne : names ≠ []) :
    Record.tokensOf (writeTokens names).toList
      = names.map fun name => String.ofList (Text.trim name.toList) := by
  have hspace : ∀ c ∈ [' '], Text.isBlank c = true := by simp [Text.isBlank]
  induction names with
  | nil => exact absurd rfl hne
  | cons name rest ih =>
      have hname := h name List.mem_cons_self
      by_cases hrest : rest = []
      · subst hrest
        rw [writeTokens, String.intercalate_singleton, Record.tokensOf_of_notMem hname,
          List.map_singleton]
      · have hpiece : ':' ∉ name.toList ++ [' '] := by
          rw [List.mem_append, not_or]
          exact ⟨hname, by decide⟩
        have hline : (writeTokens (name :: rest)).toList
            = (name.toList ++ [' ']) ++ ':' :: ([' '] ++ (writeTokens rest).toList) := by
          rw [toList_writeTokens_cons name hrest]
          simp
        rw [hline, Record.tokensOf_append _ hpiece, Text.trim_append_right hspace,
          Record.tokensOf_blank_append (by simp [Text.isBlank]),
          ih (fun later hlater => h later (List.mem_cons_of_mem _ hlater)) hrest, List.map_cons]

/-- **The tokens of a line come back.** -/
theorem tokensOf_writeTokens {tokens : List String} (h : ∀ token ∈ tokens, IsToken token)
    (hne : tokens ≠ []) : Record.tokensOf (writeTokens tokens).toList = tokens := by
  rw [tokensOf_writeTokens_of_notMem (fun token htoken => (h token htoken).colon) hne]
  refine (List.map_congr_left fun token htoken => ?_).trans (List.map_id tokens)
  rw [(h token htoken).trimmed, String.ofList_toList, id_eq]

end MarkovPlanning
