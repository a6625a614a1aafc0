/-
What a line of a policy file may say.

A line says nothing, moves on to an epoch or lists tokens, and `Record.Spelt` says which
without cutting the line: up to a comment it is blank or a row of tokens, and the first of them
may be the one that is kept for epochs, with a whole number after it.  It is exactly what the
reader of lines accepts, and what it makes of a line (`Record.ofLine_eq_ok_iff`).
-/
import MarkovPlanning.Proofs.Policy.Script
import MarkovPlanning.Proofs.Text.Row
import Mathlib

namespace MarkovPlanning

namespace Decimal

/-! ### Whole numbers -/

/-- A token for a whole number: digits, perhaps after a plus sign. -/
def Counts (token : String) (number : Nat) : Prop :=
  ∃ digits, digits ≠ [] ∧ AreDigits digits ∧
    (token.toList = digits ∨ token.toList = '+' :: digits) ∧
    ofDigits digits = number ∧ number ≤ greatestWhole

theorem digits?_eq_some_iff {text : List Char} {number : Nat} :
    digits? text = some number ↔ text ≠ [] ∧ AreDigits text ∧ ofDigits text = number := by
  rw [digits?, AreDigits]
  by_cases hne : text = [] <;> by_cases hall : ∀ c ∈ text, c.isDigit = true <;> simp [hne, hall]

theorem Counts.eq_of_toString {written number : Nat} (h : Counts (toString written) number) :
    number = written := by
  obtain ⟨digits, -, -, hform, hvalue, -⟩ := h
  rw [Nat.toString_eq_repr, Nat.toList_repr] at hform
  rcases hform with rfl | hform
  · rw [← hvalue, ofDigits_toDigits]
  · -- a plus sign is no digit
    have hplus : '+' ∈ Nat.toDigits 10 written := hform ▸ List.mem_cons_self
    exact absurd (areDigits_toDigits written '+' hplus) (by decide)

/-- **The tokens for whole numbers are read as what they stand for.** -/
theorem whole?_eq_some_iff {token : String} {number : Nat} :
    whole? token = some number ↔ Counts token number := by
  have hplus : ∀ rest, ¬AreDigits ('+' :: rest) := fun rest h =>
    absurd (h '+' List.mem_cons_self) (by decide)
  have hwhole : ∀ digits, ((do
        let value ← digits? digits
        guard (value ≤ greatestWhole)
        return value) = some number)
      ↔ digits? digits = some number ∧ number ≤ greatestWhole := by
    intro digits
    cases hdigits : digits? digits with
    | none => simp
    | some value =>
        by_cases hle : value ≤ greatestWhole <;> simp [hle]
        · rintro rfl
          exact hle
        · rintro rfl
          omega
  unfold whole? Counts
  split
  · next rest heq =>
      rw [hwhole, digits?_eq_some_iff]
      constructor
      · rintro ⟨⟨hne, hdigits, hvalue⟩, hle⟩
        exact ⟨rest, hne, hdigits, .inr heq, hvalue, hle⟩
      · rintro ⟨digits, hne, hdigits, hform, hvalue, hle⟩
        rw [heq] at hform
        rcases hform with rfl | hform
        · exact absurd hdigits (hplus rest)
        · obtain rfl : rest = digits := (List.cons.inj hform).2
          exact ⟨⟨hne, hdigits, hvalue⟩, hle⟩
  · next hform' =>
      rw [hwhole, digits?_eq_some_iff]
      constructor
      · rintro ⟨⟨hne, hdigits, hvalue⟩, hle⟩
        exact ⟨_, hne, hdigits, .inl rfl, hvalue, hle⟩
      · rintro ⟨digits, hne, hdigits, hform, hvalue, hle⟩
        rcases hform with rfl | hform
        · exact ⟨⟨hne, hdigits, hvalue⟩, hle⟩
        · exact absurd hform (hform' digits)

end Decimal

namespace Record

variable {line : String} {content : List Char} {tokens : List String}

/-! ### Lines -/

/-- What a line says, if it says anything. -/
inductive Spelt (line : String) : Option Record → Prop
  | nothing {content : List Char} : Text.Uncommented line.toList content →
      (∀ c ∈ content, Text.isBlank c = true) → Spelt line none
  | horizon {content : List Char} {token : String} {number : Nat} :
      Text.Uncommented line.toList content → Text.Row content [horizonToken, token] →
      Decimal.Counts token number → 0 < number → Spelt line (some (.horizon number))
  | tokens {content : List Char} {tokens : List String} :
      Text.Uncommented line.toList content → Text.Row content tokens →
      tokens.head? ≠ some horizonToken → Spelt line (some (.tokens tokens))

theorem uncommented_iff : Text.Uncommented line.toList content ↔ content = Record.content line :=
  Text.uncommented_iff

theorem Spelt.of_none (h : Spelt line none) : ∀ c ∈ Record.content line, Text.isBlank c = true := by
  cases h with
  | nothing h hblank => exact uncommented_iff.mp h ▸ hblank

theorem Spelt.of_horizon {number : Nat} (h : Spelt line (some (.horizon number))) :
    ∃ token, tokensOf (Record.content line) = [horizonToken, token] ∧
      Decimal.Counts token number ∧ 0 < number := by
  cases h with
  | @horizon _ token _ h hrow hnumber hpos =>
      exact ⟨token, uncommented_iff.mp h ▸ (row_iff.mp hrow).1, hnumber, hpos⟩

theorem Spelt.of_tokens (h : Spelt line (some (.tokens tokens))) :
    tokensOf (Record.content line) = tokens ∧ tokens.head? ≠ some horizonToken := by
  cases h with
  | tokens h hrow hhead => exact ⟨uncommented_iff.mp h ▸ (row_iff.mp hrow).1, hhead⟩

/-- Tokens say something if none is missing, and the epoch to move on to is a whole number. -/
theorem ofTokens_eq_ok_iff {record : Record} :
    ofTokens tokens = .ok record ↔ "" ∉ tokens ∧
      ((∃ token number, tokens = [horizonToken, token] ∧ Decimal.whole? token = some number ∧
          0 < number ∧ record = .horizon number) ∨
        tokens.head? ≠ some horizonToken ∧ record = .tokens tokens) := by
  by_cases hempty : "" ∈ tokens
  · unfold ofTokens
    rw [if_pos hempty]
    exact iff_of_false nofun fun h => h.1 hempty
  rw [and_iff_right hempty]
  by_cases hhead : tokens.head? = some horizonToken
  · obtain ⟨rest, rfl⟩ := List.head?_eq_some_iff.mp hhead
    unfold ofTokens
    rw [if_neg hempty]
    match rest with
    | [token] =>
        cases hwhole : Decimal.whole? token with
        | none => simp [hwhole]
        | some number =>
            cases number with
            | zero => simp [hwhole]
            | succ number => simp [hwhole, @eq_comm _ record]
    | [] => simp
    | _ :: _ :: _ => simp
  · rw [ofTokens_eq hempty hhead]
    constructor
    · rintro ⟨⟩
      exact .inr ⟨hhead, rfl⟩
    · rintro (⟨token, number, rfl, -⟩ | ⟨-, rfl⟩)
      · exact absurd rfl hhead
      · rfl

/-- There is something on a row. -/
theorem exists_of_row (h : Text.Row content tokens) : ∃ c ∈ content, Text.isBlank c = false := by
  by_contra! hblank
  have hblank : ∀ c ∈ content, Text.isBlank c = true := fun c hc => by simpa using hblank c hc
  have hcolon : ':' ∉ content := fun hmem => absurd (hblank _ hmem) (by decide)
  obtain ⟨heq, hempty⟩ := row_iff.mp h
  rw [tokensOf_of_notMem hcolon, Text.trim_of_blank hblank] at heq
  exact hempty (heq ▸ List.mem_singleton.mpr rfl)

/-- **A line is read as what it says, and refused if it says nothing that can be read.** -/
theorem ofLine_eq_ok_iff {record : Option Record} :
    ofLine line = .ok record ↔ Spelt line record := by
  have huncommented : Text.Uncommented line.toList (Record.content line) :=
    uncommented_iff.mpr rfl
  by_cases hblank : ∀ c ∈ Record.content line, Text.isBlank c = true
  · rw [ofLine, if_pos (List.all_eq_true.mpr hblank)]
    have hrow : ∀ {tokens : List String}, ¬Text.Row (Record.content line) tokens := by
      intro tokens hrow
      obtain ⟨c, hc, hc'⟩ := exists_of_row hrow
      exact Bool.false_ne_true (hc'.symm.trans (hblank c hc))
    constructor
    · rintro ⟨⟩
      exact .nothing huncommented hblank
    · rintro (_ | ⟨h, h', -, -⟩ | ⟨h, h', -⟩)
      · rfl
      · exact absurd (uncommented_iff.mp h ▸ h') hrow
      · exact absurd (uncommented_iff.mp h ▸ h') hrow
  · rw [ofLine, if_neg fun h => hblank (List.all_eq_true.mp h)]
    constructor
    · intro h
      cases hrecord : ofTokens (tokensOf (Record.content line)) with
      | error fault => rw [hrecord] at h; cases h
      | ok record' =>
          rw [hrecord] at h
          cases h
          obtain ⟨hempty, ⟨token, number, htokens, hwhole, hpos, rfl⟩ | ⟨hhead, rfl⟩⟩ :=
            ofTokens_eq_ok_iff.mp hrecord
          · exact .horizon huncommented (row_iff.mpr ⟨htokens, htokens ▸ hempty⟩)
              (Decimal.whole?_eq_some_iff.mp hwhole) hpos
          · exact .tokens huncommented (row_iff.mpr ⟨rfl, hempty⟩) hhead
    · rintro (⟨h, h'⟩ | ⟨h, hrow, hnumber, hpos⟩ | ⟨h, hrow, hhead⟩)
      · exact absurd (uncommented_iff.mp h ▸ h') hblank
      · obtain ⟨htokens, hempty⟩ := row_iff.mp (uncommented_iff.mp h ▸ hrow)
        rw [htokens, ofTokens_eq_ok_iff.mpr ⟨hempty, .inl ⟨_, _, rfl,
          Decimal.whole?_eq_some_iff.mpr hnumber, hpos, rfl⟩⟩]
        rfl
      · obtain ⟨htokens, hempty⟩ := row_iff.mp (uncommented_iff.mp h ▸ hrow)
        rw [htokens, ofTokens_eq_ok_iff.mpr ⟨hempty, .inr ⟨hhead, rfl⟩⟩]
        rfl

end Record

end MarkovPlanning
