import Fixity.Expr
import Fixity.Table

/-!
# Source text of a tree

A tree is written with the parentheses its operator table asks for and no others.  An operand is
put in parentheses when it binds looser than the operator it belongs to, or equally tight while the
operator does not group towards its side.

Text is written in front of what follows it (`Writer`), so that a tree is written in one pass:

    e.write T rest = e.source T ++ rest
-/

namespace Fixity

/-- Text, as what it puts in front of the text after it. -/
abbrev Writer := Bytes → Bytes

/-- The side of an operator an operand stands on. -/
inductive Side where
  | left
  | right
deriving DecidableEq, Repr

def needsParens (precedence : Int) (parent : Binding) (side : Side) : Bool :=
  if precedence < parent.precedence then true
  else if parent.precedence < precedence then false
  else match parent.assoc with
    | .left => side == .right
    | .right => side == .left
    | _ => true

namespace Writer

def text (s : Bytes) : Writer := (s ++ ·)

@[inline] def group (body : Writer) : Writer := fun rest => 40 :: body (41 :: rest)

/-- An operand of the given precedence beside an operator. -/
@[inline] def operand (precedence : Int) (parent : Binding) (side : Side) (body : Writer) :
    Writer :=
  if needsParens precedence parent side then group body else body

/-- A symbol that would run into a word after it. -/
def isWord (symbol : Bytes) : Bool :=
  !symbol.isEmpty && (Utf8.decode symbol).all fun c => Text.isLetter c || c == '_'

@[inline] def prefixed (symbol : Bytes) (operator : Int) (precedence : Int) (body : Writer) :
    Writer := fun rest =>
  symbol ++ (if isWord symbol then [32] else []) ++
    operand precedence ⟨operator, .right⟩ .right body rest

@[inline] def joined (symbol : Bytes) (operator : Binding) (leftPrecedence rightPrecedence : Int)
    (left right : Writer) : Writer := fun rest =>
  operand leftPrecedence operator .left left
    (32 :: (symbol ++ 32 :: operand rightPrecedence operator .right right rest))

end Writer

namespace Expr

def precedence (T : Table) : Expr → Int
  | literal _ | ident _ => Precedence.primary
  | unary op _ _ => ((T.unary? op.type).map (·.precedence)).getD Precedence.lowest
  | binary _ op _ _ _ => (T.binding op.type).precedence
  | call .. | subscript .. => Precedence.call

/-- How tightly a prefix operator binds its operand.  One that the table does not have leaves only
calls, literals and names without parentheses. -/
def unaryLevel (T : Table) (type : TokenType) : Int :=
  ((T.unary? type).map (·.precedence)).getD Precedence.call

/-- How calls and subscripts bind what they apply to. -/
def appliedBinding : Binding := ⟨Precedence.call, .left⟩

mutual

def write (T : Table) : Expr → Writer
  | literal t => Writer.text t.lexeme
  | ident t => Writer.text t.lexeme
  | unary op e _ =>
    Writer.prefixed op.type.name (unaryLevel T op.type) (e.precedence T) (e.write T)
  | binary _ op l r _ =>
    Writer.joined op.type.name (T.binding op.type) (l.precedence T) (r.precedence T)
      (l.write T) (r.write T)
  | call _ f args _ => fun rest =>
    Writer.operand (f.precedence T) appliedBinding .left (f.write T)
      (40 :: writeArgs T args (41 :: rest))
  | subscript _ e i _ => fun rest =>
    Writer.operand (e.precedence T) appliedBinding .left (e.write T)
      (91 :: i.write T (93 :: rest))

def writeArgs (T : Table) : List Expr → Writer
  | [] => id
  | [e] => e.write T
  | e :: es => fun rest => e.write T (44 :: 32 :: writeArgs T es rest)

end

def source (T : Table) (e : Expr) : Bytes := e.write T []

end Expr

end Fixity
