import Fixity.Expr.Source
import Fixity.Token.Scan

/-!
# Parsing

    expression  →  binary(1)
    binary(p)   →  operand ( OP binary(p') )*          OP binds at least as tightly as p
    operand     →  UNARY binary(level of UNARY)  |  primary ( "(" arguments? ")" )*
    arguments   →  expression ( "," expression )*
    primary     →  NUMBER | STRING | IDENTIFIER | "true" | "false" | "nil" | "(" expression ")"

Here `p'` is the precedence of OP when it groups to the right and the next higher one otherwise.
Two operators of one precedence that do not associate cannot follow each other.

The parser reads one token after the other and keeps what it has begun on a stack of frames.  Each
token either moves it to a new state or is the first that cannot be right, so an error depends on
nothing that comes after it.
-/

namespace Fixity

/-! ### Errors -/

inductive ParseFault where
  | expectExpression
  | expectEnd
  | unclosedGroup
  | unclosedArguments
  | nonAssociative (type : TokenType)
  | node (error : NodeError)
deriving DecidableEq

def ParseFault.message : ParseFault → Bytes
  | expectExpression => "Expect expression."
  | expectEnd => "Expect end of expression."
  | unclosedGroup => "Expect ')' after expression."
  | unclosedArguments => "Expect ')' after arguments."
  | nonAssociative type => "Operator '" ++ type.name ++ "' is non-associative, use parentheses."
  | node error => "Invalid expression: " ++ error.message ++ "."

/-- The token the parser stopped at, and why. -/
structure ParseError where
  token : Token
  fault : ParseFault
deriving DecidableEq

def ParseError.message (e : ParseError) : Bytes :=
  if e.token.type = .eof then
    "[line " ++ Bytes.ofInt e.token.pos.line.toInt ++ "] Error at end: " ++ e.fault.message
  else e.token.place ++ e.fault.message

/-- A node that was made, or an error at the token it was made for. -/
def ParseError.ofNode (token : Token) : Except NodeError Expr → Except ParseError Expr
  | .ok e => .ok e
  | .error error => .error ⟨token, .node error⟩

/-! ### States -/

namespace Parser

/-- Something begun that waits for an expression. -/
inductive Frame where
  /-- Takes the expression as a left operand of operators with at least this precedence. -/
  | climb (least : Int)
  /-- The right operand of a binary operator. -/
  | right (op : BinaryOp) (token : Token) (left : Expr)
  /-- The operand of a prefix operator. -/
  | operand (token : Token)
  /-- An expression in parentheses. -/
  | group
  /-- An argument of a call, after those already read, the last one first. -/
  | argument (paren : Token) (callee : Expr) (read : List Expr)

/-- What the tokens read so far amount to. -/
inductive State where
  /-- An operand must follow. -/
  | expect (stack : List Frame)
  /-- The arguments of a call begin, or there are none. -/
  | opened (paren : Token) (callee : Expr) (stack : List Frame)
  /-- An expression that can still be called is complete. -/
  | complete (e : Expr) (stack : List Frame)
  /-- The whole expression has been read. -/
  | finished (e : Expr)

/-- A token that cannot follow.  `taken` says whether it was read before the error was found. -/
structure Stop where
  error : ParseError
  taken : Bool

/-- The frames for an expression in front of others. -/
def expression (stack : List Frame) : List Frame := .climb (Precedence.lowest + 1) :: stack

/-- The least precedence of operators in the right operand of an operator. -/
def rightLeast (op : BinaryOp) : Int :=
  if op.assoc = .right then op.precedence else op.precedence + 1

/-- A node made after its last token was read. -/
def taken (r : Except ParseError Expr) : Except Stop Expr := r.mapError (⟨·, true⟩)

/-- A node made when the token after it is seen. -/
def untaken (r : Except ParseError Expr) : Except Stop Expr := r.mapError (⟨·, false⟩)

def stopAt {α : Type} (t : Token) (fault : ParseFault) : Except Stop α := .error ⟨⟨t, fault⟩, false⟩

/-! ### Steps -/

/-- An operand must begin with the token. -/
def begin (T : Table) (stack : List Frame) (t : Token) : Except Stop State :=
  if t.type = .eof then stopAt t .expectExpression
  else match T.unary? t.type with
    | some op => .ok (.expect (.climb op.precedence :: .operand t :: stack))
    | none =>
      match t.type with
      | .number | .string | .trueWord | .falseWord | .nilWord => do
        let e ← taken (ParseError.ofNode t (Expr.newLiteral t))
        return .complete e stack
      | .identifier => do
        let e ← taken (ParseError.ofNode t (Expr.newIdent t))
        return .complete e stack
      | .leftParen => .ok (.expect (expression (.group :: stack)))
      | _ => stopAt t .expectExpression

/-- An operator that does not associate is not followed by one of its precedence. -/
def checkNonAssoc (T : Table) (op : BinaryOp) (t : Token) : Except Stop Unit :=
  if op.assoc = .none then
    match T.binary? t.type with
    | some other =>
      if other.precedence = op.precedence then stopAt t (.nonAssociative other.type) else .ok ()
    | none => .ok ()
  else .ok ()

/-- An expression is complete and the token does not call it: hands the expression to the frames
that wait for one, up to the first that takes the token. -/
def settle (T : Table) (t : Token) (e : Expr) : List Frame → Except Stop State
  | .climb least :: stack =>
    match T.binary? t.type with
    | some op =>
      if op.precedence < least then settle T t e stack
      else if t.type = .eof then stopAt t .expectExpression
      else .ok (.expect (.climb (rightLeast op) :: .right op t e :: .climb least :: stack))
    | none => settle T t e stack
  | .right op token left :: stack => do
    let e ← untaken (ParseError.ofNode token (Expr.newBinary op.builder token left e))
    checkNonAssoc T op t
    settle T t e stack
  | .operand token :: stack => do
    let e ← untaken (ParseError.ofNode token (Expr.newUnary token e))
    settle T t e stack
  | .group :: stack =>
    if t.type = .rightParen then .ok (.complete e stack) else stopAt t .unclosedGroup
  | .argument paren callee read :: stack =>
    match t.type with
    | .comma => .ok (.expect (expression (.argument paren callee (e :: read) :: stack)))
    | .rightParen => do
      let args := (e :: read).reverse
      let call ← taken (ParseError.ofNode paren (Expr.newCall paren callee (args.map some)))
      return .complete call stack
    | _ => stopAt t .unclosedArguments
  | [] => if t.type = .eof then .ok (.finished e) else stopAt t .expectEnd

/-- With nothing left to wait for an operand, only the end of the expression can follow it. -/
theorem settle_nil_eq_ok {T : Table} {t : Token} {e : Expr} {s : State}
    (h : settle T t e [] = .ok s) : t.type = .eof ∧ s = .finished e := by
  rw [settle] at h
  split at h
  · exact ⟨‹_›, (Except.ok.inj h).symm⟩
  · cases h

def step (T : Table) (t : Token) : State → Except Stop State
  | .expect stack => begin T stack t
  | .opened paren callee stack =>
    if t.type = .rightParen then do
      let call ← taken (ParseError.ofNode paren (Expr.newCall paren callee []))
      return .complete call stack
    else begin T (expression (.argument paren callee [] :: stack)) t
  | .complete e stack =>
    if t.type = .leftParen then .ok (.opened t e stack) else settle T t e stack
  | .finished e => .ok (.finished e)

def start : State := .expect (expression [])

structure Outcome where
  result : Except ParseError Expr
  rest : List Token

/-- Reads tokens from a state up to the end of the expression or the first error.  The tokens end
with `last`, of type `eof`, which is never taken. -/
def run (T : Table) (last : Token) (s : State) : List Token → Outcome
  | [] =>
    match step T last s with
    | .ok (.finished e) => ⟨.ok e, []⟩
    -- no other state accepts a token of type `eof`
    | .ok _ => ⟨.error ⟨last, .expectExpression⟩, []⟩
    | .error stop => ⟨.error stop.error, []⟩
  | t :: ts =>
    match step T t s with
    | .ok s => run T last s ts
    | .error stop => ⟨.error stop.error, if stop.taken then ts else t :: ts⟩

end Parser

/-- Parses one expression that reaches up to the end, and leaves the tokens that were not read. -/
def TokenStream.parse (T : Table) (s : TokenStream) : Except ParseError Expr × TokenStream :=
  let outcome := Parser.run T s.last Parser.start s.tokens
  (outcome.result, { s with tokens := outcome.rest })

/-! ### From text to trees -/

/-- Why a text is no expression: stretches that were rejected, or else a token. -/
inductive SourceError where
  | scan (first : ScanError) (more : List ScanError)
  | parse (error : ParseError)
deriving DecidableEq

def SourceError.messages : SourceError → List Bytes
  | scan first more => (first :: more).map ScanError.message
  | parse error => [error.message]

def SourceError.message (e : SourceError) : Bytes := Bytes.join "\n" e.messages

def Expr.parseAt (T : Table) (line : Int64) (src : Bytes) : Except SourceError Expr :=
  let scan := Scan.ofBytes line src
  match scan.errors with
  | first :: more => .error (.scan first more)
  | [] => (scan.stream.parse T).1.mapError .parse

def Expr.parse (T : Table) (src : Bytes) : Except SourceError Expr := Expr.parseAt T 1 src

end Fixity
