/-
The lines of policy files.

A number sign starts a comment, which runs to the end of the line, and a line with
nothing else on it does not count.  Every other line is a list of tokens separated
by colons, with blanks around them that do not count.  A line whose first token is
`horizon` gives the epoch that the lines after it are about, counted from one.
-/
import MarkovPlanning.Decimal.Numeral
import MarkovPlanning.Entity.Collection
import MarkovPlanning.Text.Blank
import MarkovPlanning.Text.Line

namespace MarkovPlanning

/-- What a line of a policy file says. -/
inductive Record where
  /-- The lines that follow are about this epoch, counted from one. -/
  | horizon (number : Nat)
  | tokens (tokens : List String)
deriving DecidableEq, Repr

/-- A line that says something, with its number in the file. -/
structure Line where
  number : Nat
  record : Record
deriving DecidableEq, Repr

/-- The lines of a file; a line that is not text is missing. -/
abbrev Source := List (Option String)

namespace Source

def ofText (text : String) : Source := (Text.textLines text).map some

def ofBytes (bytes : List UInt8) : Source := Text.byteLines bytes

end Source

namespace Record

/-- The part of a line before a comment. -/
def content (line : String) : List Char := line.toList.takeWhile (· != '#')

/-- The tokens of a line without its comment. -/
def tokensOf (content : List Char) : List String :=
  (Text.split ':' content).map fun token => String.ofList (Text.trim token)

/-- What the tokens of a line say. -/
def ofTokens (tokens : List String) : Except LineFault Record :=
  if "" ∈ tokens then .error .emptyToken
  else
    match tokens with
    | "horizon" :: rest =>
      match rest with
      | [token] =>
        match Decimal.whole? token with
        | none => .error (.horizonNumber token)
        | some 0 => .error .horizonZero
        | some number => .ok (.horizon number)
      | _ => .error .horizonForm
    | tokens => .ok (.tokens tokens)

/-- What a line says, if it says anything. -/
def ofLine (line : String) : Except LineFault (Option Record) :=
  if (content line).all Text.isBlank then .ok none
  else (ofTokens (tokensOf (content line))).map some

end Record

/-- Reads one line. -/
def readLine (line : Option String) (number : Nat) : Except Error (Option Line) :=
  match line with
  | none => .error .unreadable
  | some text =>
    match Record.ofLine text with
    | .ok record => .ok (record.map fun record => { number, record })
    | .error fault => .error (.line number fault)

/-- Reads the lines of a file that say something. -/
def Source.read (source : Source) : Except Error (List Line) := do
  let lines ← (source.zipIdx 1).mapM fun (line, number) => readLine line number
  return lines.filterMap id

/-- The entity that a line names. -/
def Line.find {kind : Kind} (line : Line) (entities : Collection kind) (name : String) :
    Except Error (Entity kind) :=
  (entities.find name).mapError (.atLine line.number)

/-- Refuses a line. -/
def Line.refuse {β : Type} (line : Line) (fault : LineFault) : Except Error β :=
  .error (.line line.number fault)

/-- The epoch, counted from zero, that a line moves on to. -/
def Line.epoch (line : Line) (span : Nat) (number : Nat) : Except Error Nat :=
  if span < number then line.refuse (.horizonBeyond number span) else .ok (number - 1)

/-- A text of lines, each with a line feed at its end. -/
def unlines (lines : List String) : String := String.join (lines.map (· ++ "\n"))

/-- The line that moves on to an epoch, which is only written for spans with a last epoch. -/
def epochLines (isFinite : Bool) (epoch : Nat) : List String :=
  if isFinite then ["horizon: " ++ toString (epoch + 1)] else []

/-- Tokens as they are written on a line. -/
def writeTokens (tokens : List String) : String := " : ".intercalate tokens

end MarkovPlanning
