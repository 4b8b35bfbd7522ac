import Fixity.Text.DigitChar
import Fixity.Text.Letter
import Fixity.Text.Utf8
import Fixity.Token

/-!
# Expression trees

A tree is made of literals and names, prefix and binary operations, calls and subscripts.  Every
node holds the token that defines it, and every inner node holds its depth, so that a tree that
would become too deep is refused without walking it.

The functions `Expr.newLiteral`, …, `Expr.newCall` are the ways to make a node.  They refuse a token
that is missing or does not belong to the node, a missing operand, and a depth above `maxDepth`;
of several faults they name the first in this order.
-/

namespace Fixity

inductive Expr where
  /-- A number, a string, `true`, `false` or `nil`. -/
  | literal (token : Token)
  /-- A reference to a name. -/
  | ident (name : Token)
  /-- A prefix operator before its operand. -/
  | unary (op : Token) (operand : Expr) (depth : Nat)
  /-- A binary operator between its operands. -/
  | binary (category : Category) (op : Token) (left right : Expr) (depth : Nat)
  /-- A call; its token is the opening parenthesis. -/
  | call (paren : Token) (callee : Expr) (args : List Expr) (depth : Nat)
  /-- A subscript `target[index]`, which no source text spells. -/
  | subscript (bracket : Token) (target index : Expr) (depth : Nat)

/-- The sort of a node. -/
inductive Shape where
  | literal
  | ident
  | unary
  | binary (category : Category)
  | call
  | subscript
deriving DecidableEq, Repr

namespace Expr

/-- The deepest tree that is accepted.  A leaf has depth one. -/
def maxDepth : Nat := 10000

def token : Expr → Token
  | literal t | ident t | unary t _ _ | binary _ t _ _ _ | call t _ _ _ | subscript t _ _ _ => t

def children : Expr → List Expr
  | literal _ | ident _ => []
  | unary _ e _ => [e]
  | binary _ _ l r _ => [l, r]
  | call _ f args _ => f :: args
  | subscript _ e i _ => [e, i]

def depth : Expr → Nat
  | literal _ | ident _ => 1
  | unary _ _ d | binary _ _ _ _ d | call _ _ _ d | subscript _ _ _ d => d

def shape : Expr → Shape
  | literal _ => .literal
  | ident _ => .ident
  | unary .. => .unary
  | binary c .. => .binary c
  | call .. => .call
  | subscript .. => .subscript

end Expr

/-! ### What is refused -/

/-- What a token was needed for. -/
inductive TokenRole where
  | literal
  | identifier
  | operator
  | paren
deriving DecidableEq, Repr

def TokenRole.name : TokenRole → Bytes
  | literal => "literal"
  | identifier => "identifier"
  | operator => "operator"
  | paren => "'('"

/-- A category with its article. -/
def Category.phrase : Category → Bytes
  | arithmetic => "an arithmetic"
  | comparison => "a comparison"
  | logical => "a logical"
  | bitwise => "a bitwise"

inductive NodeFault where
  | missingToken (role : TokenRole)
  | notLiteral (type : TokenType)
  | emptyLiteral
  | misspelt (lexeme : Bytes) (type : TokenType)
  | notIdentifier
  | notUnary (type : TokenType)
  | notOfCategory (type : TokenType) (category : Category)
  | notCall
  | missingOperand (number : Nat)
  | tooDeep
deriving DecidableEq

inductive NodeCause where
  | malformed
  | unknownOperator
  | tooDeep
deriving DecidableEq, Repr

namespace NodeFault

def cause : NodeFault → NodeCause
  | notUnary _ | notOfCategory _ _ => .unknownOperator
  | tooDeep => .tooDeep
  | _ => .malformed

def message : NodeFault → Bytes
  | missingToken role => "Missing " ++ role.name ++ " token."
  | notLiteral type => "Token '" ++ type.name ++ "' is not a literal."
  | emptyLiteral => "Literal has no lexeme."
  | misspelt lexeme type => "'" ++ lexeme ++ "' is not a valid " ++ type.name ++ " literal."
  | notIdentifier => "Expect identifier."
  | notUnary type => "'" ++ type.name ++ "' is not a unary operator."
  | notOfCategory type category =>
    "'" ++ type.name ++ "' is not " ++ category.phrase ++ " operator."
  | notCall => "Expect '(' to start a call."
  | missingOperand number => "Missing operand " ++ Bytes.ofNat number ++ "."
  | tooDeep => "Expression is nested deeper than " ++ Bytes.ofNat Expr.maxDepth ++ "."

end NodeFault

/-- A refused node, with the token it would have had. -/
structure NodeError where
  token : Option Token
  fault : NodeFault
deriving DecidableEq

def NodeError.message (e : NodeError) : Bytes :=
  match e.token with
  | none => "Error: " ++ e.fault.message
  | some t => t.place ++ e.fault.message

/-! ### Spelling of leaves -/

namespace Spelling

/-- At least one decimal digit and nothing else. -/
def isDigits (bs : Bytes) : Bool := !bs.isEmpty && bs.all fun b => 48 ≤ b && b ≤ 57

def isNumber (bs : Bytes) : Bool :=
  let whole := bs.takeWhile (· != 46)
  match bs.drop whole.length with
  | [] => isDigits whole
  | _ :: fraction => isDigits whole && isDigits fraction

/-- Text between two quotes with no quote inside. -/
def isString : Bytes → Bool
  | 34 :: rest => rest.getLast? == some 34 && !rest.dropLast.contains 34
  | _ => false

def isLiteral (type : TokenType) (lexeme : Bytes) : Bool :=
  match type with
  | .number => isNumber lexeme
  | .string => isString lexeme
  | _ => lexeme == type.name

/-- A letter or underscore, then letters, digits and underscores; no reserved word. -/
def isIdentifier (lexeme : Bytes) : Bool :=
  (TokenType.ofWord? lexeme).isNone && match Utf8.decode lexeme with
    | [] => false
    | c :: cs =>
      (c == '_' || Text.isLetter c) &&
        cs.all fun c => c == '_' || Text.isLetter c || Text.isDigitChar c

end Spelling

def TokenType.isLiteral : TokenType → Bool
  | number | string | trueWord | falseWord | nilWord => true
  | _ => false

def TokenType.isUnary : TokenType → Bool
  | op o => o.isUnary
  | _ => false

def TokenType.category? : TokenType → Option Category
  | op o => o.category?
  | _ => none

/-! ### Making nodes -/

namespace Expr

def present (role : TokenRole) : Option Token → Except NodeError Token
  | none => .error ⟨none, .missingToken role⟩
  | some t => .ok t

/-- Refuses the node with the given token unless the condition holds. -/
def require (t : Token) (ok : Bool) (fault : NodeFault) : Except NodeError Unit :=
  if ok then .ok () else .error ⟨some t, fault⟩

def operand (t : Token) (number : Nat) : Option Expr → Except NodeError Expr
  | none => .error ⟨some t, .missingOperand number⟩
  | some e => .ok e

def operands (t : Token) (number : Nat) (es : List (Option Expr)) : Except NodeError (List Expr) :=
  (es.zipIdx number).mapM fun (e, n) => operand t n e

def depthOver (t : Token) (es : List Expr) : Except NodeError Nat :=
  let d := es.foldl (fun d e => max d e.depth) 0 + 1
  if maxDepth < d then .error ⟨some t, .tooDeep⟩ else .ok d

def newLiteral (token : Option Token) : Except NodeError Expr := do
  let t ← present .literal token
  require t t.type.isLiteral (.notLiteral t.type)
  require t (!t.lexeme.isEmpty) .emptyLiteral
  require t (Spelling.isLiteral t.type t.lexeme) (.misspelt t.lexeme t.type)
  return literal t

def newIdent (name : Option Token) : Except NodeError Expr := do
  let t ← present .identifier name
  require t (t.type == .identifier && Spelling.isIdentifier t.lexeme) .notIdentifier
  return ident t

def newUnary (op : Option Token) (e : Option Expr) : Except NodeError Expr := do
  let t ← present .operator op
  require t t.type.isUnary (.notUnary t.type)
  let e ← operand t 1 e
  return unary t e (← depthOver t [e])

def newBinary (category : Category) (op : Option Token) (l r : Option Expr) :
    Except NodeError Expr := do
  let t ← present .operator op
  require t (t.type.category? == some category) (.notOfCategory t.type category)
  let l ← operand t 1 l
  let r ← operand t 2 r
  return binary category t l r (← depthOver t [l, r])

def newCall (paren : Option Token) (callee : Option Expr) (args : List (Option Expr)) :
    Except NodeError Expr := do
  let t ← present .paren paren
  require t (t.type == .leftParen) .notCall
  let f ← operand t 1 callee
  let args ← operands t 2 args
  return call t f args (← depthOver t (f :: args))

/-- A subscript; its depth is not limited. -/
def newSubscript (bracket : Token) (target index : Expr) : Expr :=
  subscript bracket target index (max target.depth index.depth + 1)

end Expr

end Fixity
