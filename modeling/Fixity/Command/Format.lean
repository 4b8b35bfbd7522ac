import Fixity.Command.Outcome

/-!
# Formatting lines

Every line holds one expression, and is written in canonical form.  Blank lines stay, and a faulty
line is replaced by messages on standard error.  A file is formatted as a whole; lines that are
typed one after the other are each answered after a prompt.
-/

namespace Fixity.Format

/-- What comes of a line. -/
inductive Line where
  | blank
  | canonical (text : Bytes)
  | faulty (error : SourceError)
deriving DecidableEq

namespace Line

def format (T : Table) (number : Int64) (line : Bytes) : Line :=
  if Text.isBlankText line then blank
  else match Expr.parseAt T number line with
    | .ok e => canonical (e.source T)
    | .error error => faulty error

def isFaulty : Line → Bool
  | faulty _ => true
  | _ => false

def complaint : Line → Bytes
  | faulty error => messageLines error.messages
  | _ => []

def placed : Line → Bytes
  | blank => "\n"
  | canonical text => text ++ [10]
  | faulty _ => []

/-- The notice about a line that is not in canonical form. -/
def notice (path : Bytes) (number : Nat) (was : Bytes) : Line → Bytes
  | canonical text =>
    if text = was then [] else path ++ ":" ++ Bytes.ofNat number ++ ": " ++ text ++ "\n"
  | _ => []

def answer : Line → Bytes
  | canonical text => text ++ [10]
  | _ => []

end Line

/-! ### Files -/

/-- The lines of a file, without their ends.  The last one need not have an end. -/
def lines (content : Bytes) : List Bytes :=
  (Bytes.splitAt 10 (Bytes.dropTail [10] content)).map (Bytes.dropTail [13])

/-- Formats a line of a file, or only tells whether that would change it. -/
def fileLine (T : Table) (check : Bool) (path line : Bytes) (number : Nat) : Output × Bool :=
  let result := Line.format T (Int64.ofNat number) line
  let shown := if check then result.notice path number line else result.placed
  (⟨shown, result.complaint⟩, result.isFaulty)

/-- Formats a file, or only lists the lines that this would change.  Also tells whether there was a
faulty line. -/
def file (T : Table) (check : Bool) (path content : Bytes) : Output × Bool :=
  let results := ((lines content).zipIdx 1).map fun (line, number) =>
    fileLine T check path line number
  (⟨results.flatMap (·.1.stdout), results.flatMap (·.1.stderr)⟩, results.any (·.2))

/-! ### Typed lines -/

/-- A line has to be shorter than this. -/
def lineLimit : Nat := 65536

/-- The lines that are typed, as far as they can be read, and whether one is too long.  A last line
without an end counts unless it is empty. -/
def typedLines (input : Bytes) : List Bytes × Bool :=
  let all := Bytes.splitAt 10 input
  let all := if all.getLast? = some [] then all.dropLast else all
  let fits (line : Bytes) : Bool := line.length < lineLimit
  ((all.takeWhile fits).map (Bytes.dropTail [13]), !all.all fits)

def prompt : Bytes := "> "

def typedLine (T : Table) (line : Bytes) : Output :=
  let result := Line.format T 1 line
  ⟨result.answer, result.complaint⟩

/-- Answers typed lines, with a prompt before each and one at the end.  Also tells whether a line
was too long. -/
def typed (T : Table) (input : Bytes) : Output × Bool :=
  let (lines, tooLong) := typedLines input
  let answers := lines.map (typedLine T)
  (⟨answers.flatMap (prompt ++ ·.stdout) ++ prompt ++ [10], answers.flatMap (·.stderr)⟩, tooLong)

end Fixity.Format
