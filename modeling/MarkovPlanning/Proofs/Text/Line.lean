/-
Cutting a text into lines.

A text that was written line by line is cut where it was joined, provided that no line holds a
line feed.  A carriage return at the end of a line is taken for a part of the ending
(`textLines_unlines_of_notMem`), so lines without one come back as they were
(`textLines_unlines`).  A text that stops after some of its lines has just those lines
(`textLines_firstLines`).

A file is cut as bytes before each line is read as text.  No character but the line feed has
the byte of a line feed in its encoding, and the same goes for the carriage return, so both
ways of cutting meet the same places: the lines of the bytes of a text are the lines of the
text (`byteLines_toUTF8`).
-/
import MarkovPlanning.Policy.Script
import Mathlib

namespace MarkovPlanning

namespace Text

variable {β : Type} [DecidableEq β] {feed carriage : β}

/-! ### Symbols -/

/-- Symbols that end no line are put before the first line. -/
theorem lines_append_of_notMem {symbols : List β} (rest : List β) (hne : symbols ≠ [])
    (hfeed : feed ∉ symbols) (hcarriage : carriage ∉ symbols) :
    lines feed carriage (symbols ++ rest) =
      match lines feed carriage rest with
      | [] => [symbols]
      | line :: more => (symbols ++ line) :: more := by
  induction symbols with
  | nil => exact absurd rfl hne
  | cons c symbols ih =>
      obtain ⟨hc, hfeed⟩ := not_or.mp (List.mem_cons.not.mp hfeed)
      obtain ⟨hc', hcarriage⟩ := not_or.mp (List.mem_cons.not.mp hcarriage)
      rw [List.cons_append, lines, if_neg (Ne.symm hc)]
      by_cases hnil : symbols = []
      · subst hnil
        rw [List.nil_append]
        cases lines feed carriage rest with
        | nil => rfl
        | cons line more => exact if_neg fun h => hc' h.1.symm
      · rw [ih hnil hfeed hcarriage]
        cases lines feed carriage rest with
        | nil => exact if_neg fun h => hc' h.1.symm
        | cons line more => exact if_neg fun h => hc' h.1.symm

/-- A line that is ended by a feed is the first one. -/
theorem lines_append_feed {line : List β} (rest : List β) (hfeed : feed ∉ line)
    (hlast : line.getLast? ≠ some carriage) :
    lines feed carriage (line ++ feed :: rest) = line :: lines feed carriage rest := by
  induction line with
  | nil => exact if_pos rfl
  | cons c line ih =>
      obtain ⟨hc, hfeed⟩ := not_or.mp (List.mem_cons.not.mp hfeed)
      rw [List.cons_append, lines, if_neg (Ne.symm hc)]
      cases line with
      | nil =>
          have hne : ¬(c = carriage ∧ ([] ++ feed :: rest).head? = some feed) :=
            fun h => hlast (congrArg some h.1)
          rw [ih hfeed (by simp)]
          exact if_neg hne
      | cons d line =>
          have hd : d ≠ feed := fun h => hfeed (h ▸ List.mem_cons_self)
          have hne : ¬(c = carriage ∧ (d :: line ++ feed :: rest).head? = some feed) :=
            fun h => hd (Option.some.inj h.2)
          rw [ih hfeed (by rwa [List.getLast?_cons_cons] at hlast)]
          exact if_neg hne

/-- A carriage return just before a feed belongs to the ending. -/
theorem lines_append_carriage {line : List β} (rest : List β) (hne : carriage ≠ feed)
    (hfeed : feed ∉ line) :
    lines feed carriage (line ++ carriage :: feed :: rest) = line :: lines feed carriage rest := by
  induction line with
  | nil =>
      rw [List.nil_append, lines, if_neg hne, lines, if_pos rfl]
      exact if_pos ⟨rfl, rfl⟩
  | cons c line ih =>
      obtain ⟨hc, hfeed⟩ := not_or.mp (List.mem_cons.not.mp hfeed)
      have hhead : (line ++ carriage :: feed :: rest).head? ≠ some feed := by
        cases line with
        | nil => exact fun h => hne (Option.some.inj h)
        | cons d line => exact fun h => hfeed (Option.some.inj h ▸ List.mem_cons_self)
      rw [List.cons_append, lines, if_neg (Ne.symm hc), ih hfeed]
      exact if_neg fun h => hhead h.2

/-- The symbols up to the end of some lines. -/
def leading (feed : β) : Nat → List β → List β
  | 0, _ => []
  | _ + 1, [] => []
  | count + 1, c :: rest => c :: leading feed (if c = feed then count else count + 1) rest

theorem head?_leading (count : Nat) (text : List β) :
    (leading feed (count + 1) text).head? = text.head? := by
  cases text with
  | nil => rfl
  | cons c rest => rfl

/-- **The symbols up to the end of some lines are those lines.** -/
theorem lines_leading (count : Nat) (text : List β) :
    lines feed carriage (leading feed count text) = (lines feed carriage text).take count := by
  induction text generalizing count with
  | nil =>
      rw [show lines feed carriage ([] : List β) = [] from rfl, List.take_nil]
      cases count with
      | zero => rfl
      | succ count => rfl
  | cons c rest ih =>
      cases count with
      | zero => rfl
      | succ count =>
          rw [leading]
          by_cases hfeed : c = feed
          · rw [if_pos hfeed, lines, if_pos hfeed, lines, if_pos hfeed, ih, List.take_succ_cons]
          · rw [if_neg hfeed, lines, if_neg hfeed, lines, if_neg hfeed, ih, head?_leading]
            cases lines feed carriage rest with
            | nil =>
                rw [List.take_nil]
                show [[c]] = List.take (count + 1) [[c]]
                rw [List.take_succ_cons, List.take_nil]
            | cons line more =>
                rw [List.take_succ_cons]
                dsimp only
                split
                · rw [List.take_succ_cons]
                · rw [List.take_succ_cons]

end Text

/-! ### Texts -/

/-- The text of the first lines of a text, with what ends them. -/
def Text.firstLines (count : Nat) (text : String) : String :=
  String.ofList (leading '\n' count text.toList)

theorem textLines_firstLines (count : Nat) (text : String) :
    Text.textLines (Text.firstLines count text) = (Text.textLines text).take count := by
  unfold Text.textLines Text.firstLines
  rw [String.toList_ofList, Text.lines_leading, List.map_take]

example : Text.firstLines 2 "a\r\nb\n\nc" = "a\r\nb\n" := by decide

/-- A text that is one line when it is written with a line feed after it. -/
structure Text.OneLine (text : String) : Prop where
  feed : '\n' ∉ text.toList
  last : text.toList.getLast? ≠ some '\r'

theorem toList_unlines (texts : List String) :
    (unlines texts).toList = texts.flatMap fun text => text.toList ++ ['\n'] := by
  simp [unlines, List.flatMap_map]

/-- A line as it is read, without a carriage return at its end. -/
def Text.chomp (line : String) : String :=
  if line.toList.getLast? = some '\r' then String.ofList line.toList.dropLast else line

/-- A text is cut where it was joined, whatever its lines end with. -/
theorem textLines_unlines_of_notMem {texts : List String}
    (h : ∀ text ∈ texts, '\n' ∉ text.toList) :
    Text.textLines (unlines texts) = texts.map Text.chomp := by
  unfold Text.textLines
  rw [toList_unlines]
  induction texts with
  | nil => rfl
  | cons text texts ih =>
      have hfeed := h text List.mem_cons_self
      have hrest := ih fun text htext => h text (List.mem_cons_of_mem _ htext)
      rw [List.flatMap_cons, List.append_assoc, List.singleton_append, List.map_cons, Text.chomp]
      by_cases hlast : text.toList.getLast? = some '\r'
      · obtain ⟨before, hbefore⟩ := List.getLast?_eq_some_iff.mp hlast
        rw [hbefore, List.mem_append, not_or] at hfeed
        rw [if_pos hlast, hbefore, List.append_assoc, List.singleton_append,
          Text.lines_append_carriage _ (by decide) hfeed.1, List.dropLast_concat, List.map_cons,
          hrest]
      · rw [if_neg hlast, Text.lines_append_feed _ hfeed hlast, List.map_cons,
          String.ofList_toList, hrest]

/-- **A text that was written line by line is cut where it was joined.** -/
theorem textLines_unlines {texts : List String} (h : ∀ text ∈ texts, Text.OneLine text) :
    Text.textLines (unlines texts) = texts := by
  rw [textLines_unlines_of_notMem fun text htext => (h text htext).feed]
  refine (List.map_congr_left fun text htext => ?_).trans (List.map_id texts)
  exact if_neg (h text htext).last

namespace Text

/-! ### Bytes -/

/-- The bytes of a character are that of an ASCII character, or all of them are beyond ASCII. -/
theorem toNat_of_mem_utf8EncodeChar {c : Char} {byte : UInt8}
    (h : byte ∈ String.utf8EncodeChar c) :
    byte.toNat = c.toNat ∨ 0x80 ≤ byte.toNat := by
  have hc : c.val.toNat = c.toNat := rfl
  simp only [String.utf8EncodeChar, hc] at h
  split at h
  · rw [List.mem_singleton] at h
    subst h
    rw [UInt8.toNat_ofNat']
    omega
  · split at h
    · simp only [List.mem_cons, List.not_mem_nil, or_false] at h
      rcases h with rfl | rfl <;> rw [UInt8.toNat_ofNat'] <;> omega
    · split at h <;> simp only [List.mem_cons, List.not_mem_nil, or_false] at h
      · rcases h with rfl | rfl | rfl <;> rw [UInt8.toNat_ofNat'] <;> omega
      · rcases h with rfl | rfl | rfl | rfl <;> rw [UInt8.toNat_ofNat'] <;> omega

/-- The line feed has a byte that no other character has, and so has the carriage return. -/
theorem eq_of_mem_utf8EncodeChar {c d : Char} {byte : UInt8} (hbyte : byte.toNat = d.toNat)
    (hd : d.toNat < 0x80) (h : byte ∈ String.utf8EncodeChar c) : c = d := by
  rcases toNat_of_mem_utf8EncodeChar h with hc | hc
  · exact Char.toNat_inj.mp (hc.symm.trans hbyte)
  · omega

theorem head?_flatMap_utf8EncodeChar {text : List Char} :
    (text.flatMap String.utf8EncodeChar).head? = some 0x0a ↔ text.head? = some '\n' := by
  cases text with
  | nil => simp
  | cons c text =>
      obtain ⟨byte, bytes, hbytes⟩ :=
        List.exists_cons_of_ne_nil (String.utf8EncodeChar_ne_nil (c := c))
      rw [List.flatMap_cons, hbytes, List.cons_append, List.head?_cons, List.head?_cons,
        Option.some_inj, Option.some_inj]
      constructor
      · intro hbyte
        have hmem : (0x0a : UInt8) ∈ String.utf8EncodeChar c := hbytes ▸ hbyte ▸ List.mem_cons_self
        exact eq_of_mem_utf8EncodeChar rfl (by decide) hmem
      · intro hc
        subst hc
        exact (List.cons.inj hbytes).1.symm

/-- Bytes are cut where their characters are. -/
theorem lines_flatMap_utf8EncodeChar (text : List Char) :
    lines 0x0a 0x0d (text.flatMap String.utf8EncodeChar)
      = (lines '\n' '\r' text).map fun line => line.flatMap String.utf8EncodeChar := by
  induction text with
  | nil => rfl
  | cons c text ih =>
      rw [List.flatMap_cons]
      by_cases hfeed : c = '\n'
      · subst hfeed
        rw [show String.utf8EncodeChar '\n' = [0x0a] from rfl, List.singleton_append, lines,
          if_pos rfl, ih, lines, if_pos rfl]
        rfl
      rw [lines, if_neg hfeed]
      by_cases hcarriage : c = '\r'
      · -- a carriage return goes with the feed after it, for bytes as for characters
        subst hcarriage
        rw [show String.utf8EncodeChar '\r' = [0x0d] from rfl, List.singleton_append, lines,
          if_neg (by decide), ih]
        cases lines '\n' '\r' text with
        | nil => rfl
        | cons line more =>
            rw [List.map_cons]
            simp only [head?_flatMap_utf8EncodeChar, true_and]
            split <;> rfl
      · have hbytes : ∀ {d : Char} {byte : UInt8}, byte.toNat = d.toNat → d.toNat < 0x80 →
            c ≠ d → byte ∉ String.utf8EncodeChar c :=
          fun hbyte hd hne h => hne (eq_of_mem_utf8EncodeChar hbyte hd h)
        rw [lines_append_of_notMem _ String.utf8EncodeChar_ne_nil
          (hbytes (d := '\n') rfl (by decide) hfeed)
          (hbytes (d := '\r') rfl (by decide) hcarriage), ih]
        cases lines '\n' '\r' text with
        | nil => simp
        | cons line more =>
            rw [List.map_cons]
            dsimp only
            rw [if_neg fun h => hcarriage h.1, List.map_cons, List.flatMap_cons]

/-- The bytes of a text. -/
theorem toList_toUTF8 (text : String) :
    text.toUTF8.data.toList = text.toList.flatMap String.utf8EncodeChar := by
  rw [String.toUTF8_eq_toByteArray, ← String.utf8Encode_toList]
  simp [List.utf8Encode]

theorem fromUTF8?_toUTF8 (text : String) : String.fromUTF8? text.toUTF8 = some text := by
  unfold String.fromUTF8?
  rw [dif_pos (show text.toUTF8.IsValidUTF8 from text.isValidUTF8)]
  rfl

/-- **The lines of the bytes of a text are the lines of the text.** -/
theorem byteLines_toUTF8 (text : String) :
    byteLines text.toUTF8.data.toList = (textLines text).map some := by
  unfold byteLines textLines
  rw [toList_toUTF8, lines_flatMap_utf8EncodeChar, List.map_map, List.map_map]
  refine List.map_congr_left fun line _ => ?_
  have hline : ByteArray.mk (line.flatMap String.utf8EncodeChar).toArray
      = (String.ofList line).toUTF8 := by
    apply ByteArray.ext
    rw [← Array.toList_inj, toList_toUTF8, String.toList_ofList]
  rw [Function.comp_apply, Function.comp_apply, hline, fromUTF8?_toUTF8]

end Text

end MarkovPlanning
