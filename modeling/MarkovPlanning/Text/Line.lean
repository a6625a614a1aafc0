/-
Lines of a text.

A line ends with a line feed, and a carriage return just before it belongs to the
ending.  What follows the last line feed is a line too, unless it is empty.  Text
and its bytes are cut at the same places, because no character but the line feed
has the byte of a line feed in it, so a file is cut first and each of its lines is
read as text by itself.
-/
namespace MarkovPlanning.Text

/-- The lines of a sequence of symbols: each ends with `feed`, perhaps after a `carriage`. -/
def lines {β : Type} [DecidableEq β] (feed carriage : β) : List β → List (List β)
  | [] => []
  | c :: rest =>
    if c = feed then [] :: lines feed carriage rest
    else
      match lines feed carriage rest with
      | [] => [[c]]
      | line :: more =>
        if c = carriage ∧ rest.head? = some feed then line :: more else (c :: line) :: more

/-- The lines of a text. -/
def textLines (text : String) : List String :=
  (lines '\n' '\r' text.toList).map String.ofList

/-- The lines of a file, and `none` for a line that is not UTF-8. -/
def byteLines (bytes : List UInt8) : List (Option String) :=
  (lines 0x0a 0x0d bytes).map fun line => String.fromUTF8? (ByteArray.mk line.toArray)

example : textLines "a\r\nb\n\nc" = ["a", "b", "", "c"] := by decide

end MarkovPlanning.Text
