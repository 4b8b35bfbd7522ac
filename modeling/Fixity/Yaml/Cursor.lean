/-!
# Places in a YAML text

What is left to read of a text, with the place that has been reached.  YAML needs the column for its
indentation and the line to know where a key may be.
-/

namespace Fixity.Yaml

/-- What is left of a text, and how much of it has been read. -/
structure Cursor where
  rest : List Char
  index : Nat
  line : Nat
  column : Nat

def isBreak (c : Char) : Bool :=
  c == '\n' || c == '\r' || c == '\u0085' || c == '\u2028' || c == '\u2029'

def isBlank (c : Char) : Bool := c == ' ' || c == '\t'

def atBreak (cs : List Char) : Bool := cs.head?.any isBreak

def atBlank (cs : List Char) : Bool := cs.head?.any isBlank

/-- The text is used up or begins with a space, a tab or a line break. -/
def atGap (cs : List Char) : Bool := cs.head?.all fun c => isBlank c || isBreak c

def atLineEnd (cs : List Char) : Bool := cs.head?.all isBreak

namespace Cursor

def start (cs : List Char) : Cursor := ⟨cs, 0, 0, 0⟩

/-- After `n` characters of the same line. -/
def skip (c : Cursor) (n : Nat) : Cursor :=
  ⟨c.rest.drop n, c.index + n, c.line, c.column + n⟩

/-- After a line break, with the character it stands for. -/
def skipBreak (c : Cursor) : Cursor × Char :=
  let after (n : Nat) : Cursor := ⟨c.rest.drop n, c.index + n, c.line + 1, 0⟩
  match c.rest with
  | '\r' :: '\n' :: _ => (after 2, '\n')
  | '\u2028' :: _ => (after 1, '\u2028')
  | '\u2029' :: _ => (after 1, '\u2029')
  | _ => (after 1, '\n')

def skipWhile (c : Cursor) (p : Char → Bool) : Cursor := c.skip (c.rest.takeWhile p).length

/-- A line begins with three hyphens or three dots on their own: the border of a document. -/
def atBorder (c : Cursor) : Bool :=
  c.column == 0 && match c.rest with
    | '-' :: '-' :: '-' :: cs => atGap cs
    | '.' :: '.' :: '.' :: cs => atGap cs
    | _ => false

end Cursor

end Fixity.Yaml
