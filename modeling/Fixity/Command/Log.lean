import Fixity.Text.Quoted

/-!
# Log lines

    time=2024-05-01T09:30:00.000Z level=DEBUG msg="formatting file" path=sums.dry lines=3

A line names a time, a level, a message and fields.  A value is written in quotes when it could not be
told apart from what stands around it.
-/

namespace Fixity.Log

def isDelicate (c : Char) : Bool :=
  c == ' ' || c == '"' || c == '=' || c == '\uFFFD' || !(Text.isPrintable c || c == '\x7F')

/-- The value cannot stand bare. -/
def needsQuotes (bs : Bytes) : Bool :=
  bs.isEmpty || (Utf8.pieces bs).any fun
    | .char c => isDelicate c
    | .stray _ => true

def value (bs : Bytes) : Bytes := if needsQuotes bs then Text.quote bs else bs

def truth (b : Bool) : Bytes := if b then "true" else "false"

/-- A line for those who asked for details, before it has a time. -/
structure Line where
  message : Bytes
  fields : List (Bytes × Bytes)

def Line.toBytes (time : Bytes) (l : Line) : Bytes :=
  let field (f : Bytes × Bytes) : Bytes := " " ++ f.1 ++ "=" ++ value f.2
  "time=" ++ time ++ " level=DEBUG msg=" ++ value l.message ++ l.fields.flatMap field ++ "\n"

end Fixity.Log
