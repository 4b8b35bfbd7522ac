import Fixity.Bytes

/-!
# Operators

The operators of the language and what they are used for.  Nineteen of them join two operands and
fall into four categories; three stand before a single operand.  `-` does both.
-/

namespace Fixity

inductive Operator where
  | plus
  | minus
  | star
  | starStar
  | slash
  | percent
  | ampersand
  | pipe
  | caret
  | tilde
  | lessLess
  | greaterGreater
  | bang
  | bangEqual
  | equalEqual
  | greater
  | greaterEqual
  | less
  | lessEqual
  | and
  | or
deriving DecidableEq, Repr

/-- What a binary operator computes with. -/
inductive Category where
  | arithmetic
  | comparison
  | logical
  | bitwise
deriving DecidableEq, Repr

namespace Operator

def all : List Operator :=
  [plus, minus, star, starStar, slash, percent, ampersand, pipe, caret, tilde, lessLess,
    greaterGreater, bang, bangEqual, equalEqual, greater, greaterEqual, less, lessEqual, and, or]

def symbol : Operator → Bytes
  | plus => "+"
  | minus => "-"
  | star => "*"
  | starStar => "**"
  | slash => "/"
  | percent => "%"
  | ampersand => "&"
  | pipe => "|"
  | caret => "^"
  | tilde => "~"
  | lessLess => "<<"
  | greaterGreater => ">>"
  | bang => "!"
  | bangEqual => "!="
  | equalEqual => "=="
  | greater => ">"
  | greaterEqual => ">="
  | less => "<"
  | lessEqual => "<="
  | and => "and"
  | or => "or"

def ofSymbol? (s : Bytes) : Option Operator := all.find? (·.symbol = s)

def category? : Operator → Option Category
  | plus | minus | star | starStar | slash | percent => some .arithmetic
  | equalEqual | bangEqual | greater | greaterEqual | less | lessEqual => some .comparison
  | and | or => some .logical
  | ampersand | pipe | caret | lessLess | greaterGreater => some .bitwise
  | tilde | bang => none

/-- The operator can stand before a single operand. -/
def isUnary : Operator → Bool
  | minus | bang | tilde => true
  | _ => false

theorem mem_all (o : Operator) : o ∈ all := by cases o <;> decide

theorem ofSymbol?_symbol (o : Operator) : ofSymbol? o.symbol = some o := by cases o <;> decide

end Operator

end Fixity
