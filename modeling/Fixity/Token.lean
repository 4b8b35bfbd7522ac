import Fixity.Decimal.Shortest
import Fixity.Operator

/-!
# Tokens

A token is a lexeme with its type, its value and the place where it begins.  The type of an
operator or of a reserved word is named by its spelling, and types outside the language carry
any other name, so that a name always determines the type:

    TokenType.ofName t.name = t        (TokenType.ofName n).name = n
-/

namespace Fixity

def reservedNames : List Bytes :=
  (["(", ")", ",", "identifier", "string", "number", "true", "false", "nil", "eof"] : List Bytes) ++
    Operator.all.map Operator.symbol

/-- The lexical category of a token. -/
inductive TokenType where
  | leftParen
  | rightParen
  | comma
  | op (o : Operator)
  | identifier
  | string
  | number
  | trueWord
  | falseWord
  | nilWord
  | eof
  /-- A type that is not one of the language. -/
  | other (name : Bytes) (free : name ∉ reservedNames)
deriving DecidableEq

namespace TokenType

def name : TokenType → Bytes
  | leftParen => "("
  | rightParen => ")"
  | comma => ","
  | op o => o.symbol
  | identifier => "identifier"
  | string => "string"
  | number => "number"
  | trueWord => "true"
  | falseWord => "false"
  | nilWord => "nil"
  | eof => "eof"
  | other name _ => name

def reserved : List TokenType :=
  [leftParen, rightParen, comma, identifier, string, number, trueWord, falseWord, nilWord, eof] ++
    Operator.all.map op

def ofName (n : Bytes) : TokenType :=
  if h : n ∈ reservedNames then (reserved.find? (·.name = n)).getD eof else other n h

def ofWord? (s : Bytes) : Option TokenType :=
  ([op .and, op .or, trueWord, falseWord, nilWord] : List TokenType).find? (·.name = s)

/-! ### Types and names -/

@[simp] theorem name_ofName (n : Bytes) : (ofName n).name = n := by
  unfold ofName
  split
  case isTrue h => revert n; decide
  case isFalse => rfl

@[simp] theorem ofName_name (t : TokenType) : ofName t.name = t := by
  cases t with
  | op o => cases o <;> decide
  | other n free => simp [ofName, name, free]
  | _ => decide

end TokenType

inductive Literal where
  | none
  | bool (b : Bool)
  | string (s : Bytes)
  /-- A floating-point number, by its bits. -/
  | number (bits : UInt64)
deriving DecidableEq, Repr

def Literal.toBytes : Literal → Bytes
  | .none => "<nil>"
  | .bool true => "true"
  | .bool false => "false"
  | .string s => s
  | .number bits => Double.toBytes bits

/-- A place in a text.  Lines and columns start at one and are 64-bit words. -/
structure Pos where
  line : Int64
  column : Int64
deriving DecidableEq, Repr

namespace Pos

def next (p : Pos) (c : Char) : Pos :=
  if c = '\n' then ⟨p.line + 1, 1⟩ else ⟨p.line, p.column + 1⟩

def after (p : Pos) (cs : List Char) : Pos := cs.foldl next p

def toBytes (p : Pos) : Bytes := Bytes.ofInt p.line.toInt ++ ":" ++ Bytes.ofInt p.column.toInt

end Pos

/-- A lexeme with its type, its value and the place where it begins. -/
structure Token where
  type : TokenType
  lexeme : Bytes
  literal : Literal
  pos : Pos
deriving DecidableEq

namespace Token

/-- The token as it is shown: type, lexeme and value. -/
def toBytes (t : Token) : Bytes := t.type.name ++ " " ++ t.lexeme ++ " " ++ t.literal.toBytes

/-- The place of a token in a message: its line and its lexeme. -/
def place (t : Token) : Bytes :=
  "[line " ++ Bytes.ofInt t.pos.line.toInt ++ "] Error at '" ++ t.lexeme ++ "': "

end Token

end Fixity
