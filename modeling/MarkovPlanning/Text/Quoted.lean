/-
Texts shown between quotes.

A quoted text stays on one line and ends at the first bare quote: the quote and
the backslash are preceded by a backslash, and a character that cannot be seen as
itself is replaced by its short escape or by its code in braces.
-/
import MarkovPlanning.Text.Visible

namespace MarkovPlanning.Text

/-- How one character is written inside quotes. -/
def escape (c : Char) : List Char :=
  match c with
  | '"' => ['\\', '"']
  | '\\' => ['\\', '\\']
  | '\t' => ['\\', 't']
  | '\n' => ['\\', 'n']
  | '\r' => ['\\', 'r']
  | '\x00' => ['\\', '0']
  | c => if isVisible c then [c] else ['\\', 'u', '\x7b'] ++ Nat.toDigits 16 c.toNat ++ ['\x7d']

/-- A text between quotes. -/
def quoted (text : String) : String :=
  String.ofList ('"' :: text.toList.flatMap escape ++ ['"'])

example : quoted "a\"b\\c\td\x1b" = "\"a\\\"b\\\\c\\td\\u\x7b1b\x7d\"" := by decide

end MarkovPlanning.Text
