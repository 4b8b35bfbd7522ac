import Fixity.Decimal.Numeral
import Fixity.Text.DigitChar
import Fixity.Text.Letter
import Fixity.Text.Utf8
import Fixity.Token

/-!
# Scanning

A text is cut into segments, each one white-space character, one comment, one lexeme or one
stretch that is rejected.  Where several lexemes could begin, the longest one does.  The lexemes
become tokens and the rejected stretches errors, each placed where its segment begins, and the
tokens end with one of type `eof` placed after the whole text.
-/

namespace Fixity

inductive ScanFault where
  | unexpectedCharacter
  | unterminatedString
  | unterminatedComment
deriving DecidableEq, Repr

def ScanFault.message : ScanFault → Bytes
  | unexpectedCharacter => "Unexpected character."
  | unterminatedString => "Unterminated string."
  | unterminatedComment => "Unterminated multiline comment."

/-- A rejected stretch of text, by the place where it begins. -/
structure ScanError where
  pos : Pos
  fault : ScanFault
deriving DecidableEq, Repr

def ScanError.message (e : ScanError) : Bytes :=
  "[line " ++ e.pos.toBytes ++ "] Error: " ++ e.fault.message

/-- What a segment of a text is. -/
inductive Lexeme where
  | blank
  | comment
  | token (type : TokenType)
  | rejected (fault : ScanFault)
deriving DecidableEq

namespace Lexeme

/-! ### Characters -/

def isDigit (c : Char) : Bool := '0' ≤ c && c ≤ '9'

/-- An identifier begins with a letter of any script or an underscore. -/
def beginsWord (c : Char) : Bool := c == '_' || Text.isLetter c

/-- An identifier goes on with letters, decimal digits of any script and underscores. -/
def continuesWord (c : Char) : Bool := beginsWord c || Text.isDigitChar c

/-! ### Lexemes of more than one character -/

/-- The operator `long` when `c` comes next, else `short`. -/
def either (cs : List Char) (c : Char) (long short : Operator) : Lexeme × Nat :=
  if cs.head? = some c then (.token (.op long), 1) else (.token (.op short), 0)

/-- How many characters there are up to the first `*/` and with it, `n` of them already counted. -/
def toCommentEnd? (n : Nat) : List Char → Option Nat
  | [] => none
  | [_] => none
  | c :: d :: cs => if c = '*' ∧ d = '/' then some (n + 2) else toCommentEnd? (n + 1) (d :: cs)

/-- A slash is a division, or begins a comment up to the end of the line or up to `*/`. -/
def slash : List Char → Lexeme × Nat
  | '/' :: cs => (.comment, 1 + (cs.takeWhile (· != '\n')).length)
  | '*' :: cs =>
    match toCommentEnd? 0 cs with
    | some n => (.comment, 1 + n)
    | none => (.rejected .unterminatedComment, 1 + cs.length)
  | _ => (.token (.op .slash), 0)

/-- A string goes up to the next quote, over line ends too. -/
def quoted (cs : List Char) : Lexeme × Nat :=
  let n := (cs.takeWhile (· != '"')).length
  if n < cs.length then (.token .string, n + 1) else (.rejected .unterminatedString, n)

/-- A number has a fraction only if a digit follows the point. -/
def number (cs : List Char) : Lexeme × Nat :=
  let whole := (cs.takeWhile isDigit).length
  match cs.drop whole with
  | '.' :: d :: rest =>
    if isDigit d then (.token .number, whole + 2 + (rest.takeWhile isDigit).length)
    else (.token .number, whole)
  | _ => (.token .number, whole)

def word (c : Char) (cs : List Char) : Lexeme × Nat :=
  let rest := cs.takeWhile continuesWord
  (.token ((TokenType.ofWord? (Utf8.encode (c :: rest))).getD .identifier), rest.length)

/-- What begins with `c` in front of `cs`, and how many characters of `cs` belong to it. -/
def lead (c : Char) (cs : List Char) : Lexeme × Nat :=
  match c with
  | ' ' | '\r' | '\t' | '\n' => (.blank, 0)
  | '(' => (.token .leftParen, 0)
  | ')' => (.token .rightParen, 0)
  | ',' => (.token .comma, 0)
  | '-' => (.token (.op .minus), 0)
  | '+' => (.token (.op .plus), 0)
  | '%' => (.token (.op .percent), 0)
  | '&' => (.token (.op .ampersand), 0)
  | '|' => (.token (.op .pipe), 0)
  | '^' => (.token (.op .caret), 0)
  | '~' => (.token (.op .tilde), 0)
  | '*' => either cs '*' .starStar .star
  | '!' => either cs '=' .bangEqual .bang
  | '=' => if cs.head? = some '=' then (.token (.op .equalEqual), 1)
    else (.rejected .unexpectedCharacter, 0)
  | '<' =>
    if cs.head? = some '=' then (.token (.op .lessEqual), 1) else either cs '<' .lessLess .less
  | '>' => if cs.head? = some '=' then (.token (.op .greaterEqual), 1)
    else either cs '>' .greaterGreater .greater
  | '/' => slash cs
  | '"' => quoted cs
  | _ =>
    if isDigit c then number cs
    else if beginsWord c then word c cs
    else (.rejected .unexpectedCharacter, 0)

def segments (src : List Char) : List (Segment Char Lexeme) := Segment.cut lead src

end Lexeme

/-! ### Tokens -/

namespace Literal

/-- The number a numeral of digits with an optional fraction stands for, infinity when it is too
large. -/
def ofNumber (lexeme : Bytes) : Literal := .number ((Double.read? lexeme).getD Double.infinity)

def ofLexeme (type : TokenType) (lexeme : Bytes) : Literal :=
  match type with
  | .number => ofNumber lexeme
  | .string => .string (lexeme.drop 1).dropLast
  | .trueWord => .bool true
  | .falseWord => .bool false
  | _ => .none

end Literal

/-- A sequence of tokens: those before the first of type `eof`, and that one. -/
structure TokenStream where
  tokens : List Token
  last : Token
deriving DecidableEq

namespace TokenStream

/-- The tokens up to the first one of type `eof`, which must be there. -/
def ofList? (ts : List Token) : Option TokenStream :=
  let tokens := ts.takeWhile (·.type != .eof)
  (ts.drop tokens.length).head?.map (⟨tokens, ·⟩)

def toList (s : TokenStream) : List Token := s.tokens ++ [s.last]

end TokenStream

structure Scan where
  stream : TokenStream
  errors : List ScanError
deriving DecidableEq

namespace Scan

/-- The tokens and errors of the segments read so far, the last ones first, and the place
reached. -/
structure Progress where
  tokens : List Token
  errors : List ScanError
  pos : Pos

def Progress.read (p : Progress) (s : Segment Char Lexeme) : Progress :=
  let pos := p.pos.after s.text
  match s.label with
  | .blank | .comment => { p with pos }
  | .token type =>
    let lexeme := Utf8.encode s.text
    { p with tokens := ⟨type, lexeme, Literal.ofLexeme type lexeme, p.pos⟩ :: p.tokens, pos }
  | .rejected fault => { p with errors := ⟨p.pos, fault⟩ :: p.errors, pos }

def ofChars (line : Int64) (src : List Char) : Scan :=
  let p := (Lexeme.segments src).foldl Progress.read ⟨[], [], ⟨line, 1⟩⟩
  ⟨⟨p.tokens.reverse, ⟨.eof, [], .none, p.pos⟩⟩, p.errors.reverse⟩

def ofBytes (line : Int64) (src : Bytes) : Scan := ofChars line (Utf8.decode src)

end Scan

end Fixity
