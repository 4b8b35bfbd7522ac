import Fixity.Toml.Scalar

/-!
# Reading TOML

A TOML text is a sequence of statements: table headers `[a.b]` and `[[a.b]]`, and pairs `a.b =
value`.  This module reads the statements; what they say together is worked out by `Toml.Tree`.

Readers that call each other take a bound on how often they may do so.  Every call reads at least
one character, so the length of the text is always enough.
-/

namespace Fixity.Toml

abbrev Key := List Bytes

inductive Value where
  | scalar (s : Scalar)
  | array (items : List Value)
  | inlineTable (pairs : List (Key × Value))

inductive Statement where
  | table (key : Key)
  | arrayTable (key : Key)
  | pair (key : Key) (value : Value)

/-! ### Characters -/

def isBlankChar (c : Char) : Bool := c == ' ' || c == '\t'

def skipBlank (cs : List Char) : List Char := cs.dropWhile isBlankChar

/-- A character that may not stand anywhere, even in a comment. -/
def isControl (c : Char) : Bool := (c.toNat < 0x20 && c != '\t' && !isLineEnd c) || c.toNat == 0x7F

/-- There are no control characters, and a carriage return only stands before a line feed. -/
def isClean : List Char → Bool
  | [] => true
  | '\r' :: cs => cs.head? == some '\n' && isClean cs
  | c :: cs => !isControl c && isClean cs

def skipLayout (inComment : Bool) : List Char → List Char
  | [] => []
  | c :: cs =>
    if inComment then skipLayout (c != '\n') cs
    else if c == '#' then skipLayout true cs
    else if isBlankChar c || isLineEnd c then skipLayout false cs
    else c :: cs

/-- What follows the line a statement ends on, where only a comment may stand. -/
def endOfLine? (cs : List Char) : Option (List Char) :=
  match skipBlank cs with
  | [] => some []
  | '#' :: cs => some (cs.dropWhile (· != '\n'))
  | c :: cs => if isLineEnd c then some cs else none

/-! ### Keys -/

def isBareKeyChar (c : Char) : Bool :=
  isDigit c || ('a' ≤ c && c ≤ 'z') || ('A' ≤ c && c ≤ 'Z') || c == '_' || c == '-'

def keyPart? (cs : List Char) : Option (Bytes × List Char) :=
  match cs with
  | '"' :: cs => (basic? [] (cs.length + 1) cs).map fun (s, cs) => (Utf8.encode s, cs)
  | '\'' :: cs => (literal? cs).map fun (s, cs) => (Utf8.encode s, cs)
  | _ =>
    let part := cs.takeWhile isBareKeyChar
    if part.isEmpty then none else some (Utf8.encode part, cs.drop part.length)

/-- A key up to what cannot continue it. -/
def key? (read : Key) : Nat → List Char → Option (Key × List Char)
  | 0, _ => none
  | bound + 1, cs =>
    match keyPart? (skipBlank cs) with
    | none => none
    | some (part, cs) =>
      match skipBlank cs with
      | '.' :: cs => key? (part :: read) bound cs
      | cs => some ((part :: read).reverse, cs)

/-! ### Values -/

mutual

def value? : Nat → List Char → Option (Value × List Char)
  | 0, _ => none
  | bound + 1, cs =>
    match skipBlank cs with
    | '[' :: cs => items? bound [] cs
    | '{' :: cs =>
      match skipBlank cs with
      | '}' :: cs => some (.inlineTable [], cs)
      | cs => pairs? bound [] cs
    | cs => (scalar? cs).map fun (s, cs) => (.scalar s, cs)

/-- The items of an array after its bracket or after a comma. -/
def items? : Nat → List Value → List Char → Option (Value × List Char)
  | 0, _, _ => none
  | bound + 1, read, cs =>
    match skipLayout false cs with
    | ']' :: cs => some (.array read.reverse, cs)
    | cs =>
      match value? bound cs with
      | none => none
      | some (v, cs) =>
        match skipLayout false cs with
        | ',' :: cs => items? bound (v :: read) cs
        | ']' :: cs => some (.array (v :: read).reverse, cs)
        | _ => none

/-- The pairs of an inline table after its brace or after a comma.  There must be one. -/
def pairs? : Nat → List (Key × Value) → List Char → Option (Value × List Char)
  | 0, _, _ => none
  | bound + 1, read, cs =>
    match key? [] bound cs with
    | some (key, '=' :: cs) =>
      match value? bound cs with
      | none => none
      | some (v, cs) =>
        match skipBlank cs with
        | ',' :: cs => pairs? bound ((key, v) :: read) cs
        | '}' :: cs => some (.inlineTable ((key, v) :: read).reverse, cs)
        | _ => none
    | _ => none

end

/-! ### Statements -/

def statement? (bound : Nat) (cs : List Char) : Option (Statement × List Char) :=
  match cs with
  | '[' :: '[' :: cs => do
    match ← key? [] bound cs with
    | (key, ']' :: ']' :: cs) => return (.arrayTable key, ← endOfLine? cs)
    | _ => none
  | '[' :: cs => do
    match ← key? [] bound cs with
    | (key, ']' :: cs) => return (.table key, ← endOfLine? cs)
    | _ => none
  | cs => do
    match ← key? [] bound cs with
    | (key, '=' :: cs) =>
      let (v, cs) ← value? bound cs
      return (.pair key v, ← endOfLine? cs)
    | _ => none

/-- The statements up to the end of the text, of which there are at most `bound`. -/
def statements? (total : Nat) (read : List Statement) : Nat → List Char → Option (List Statement)
  | 0, _ => none
  | bound + 1, cs =>
    match skipLayout false cs with
    | [] => some read.reverse
    | cs =>
      match statement? total cs with
      | none => none
      | some (s, cs) => statements? total (s :: read) bound cs

/-- The bytes after a mark of the encoding. -/
def dropMark : Bytes → Bytes
  | 0xEF :: 0xBB :: 0xBF :: bs => bs
  | 0xFF :: 0xFE :: bs => bs
  | 0xFE :: 0xFF :: bs => bs
  | bs => bs

def read? (bs : Bytes) : Option (List Statement) :=
  let bs := dropMark bs
  let cs := Utf8.decode bs
  if Utf8.isValid bs && isClean cs then
    statements? (2 * cs.length + 2) [] (cs.length + 1) cs
  else none

end Fixity.Toml
