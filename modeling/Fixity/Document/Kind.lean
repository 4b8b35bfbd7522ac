import Fixity.Expr
import Fixity.Text.Quoted

/-!
# Kinds of nodes in documents

A document names the sort of each node by its kind.  A registry pairs shapes of nodes with kinds and
says what a kind is rebuilt into.  Entries are only ever added, and only when neither the shape nor
the kind is taken, so shapes and kinds determine each other.
-/

namespace Fixity

/-- The name of a shape in messages about the registry. -/
def Shape.typeName : Shape → Bytes
  | literal => "*ast.LiteralExpr"
  | ident => "*ast.IdentExpr"
  | unary => "*ast.UnaryExpr"
  | binary .arithmetic => "*ast.ArithmeticExpr"
  | binary .comparison => "*ast.ComparisonExpr"
  | binary .logical => "*ast.LogicalExpr"
  | binary .bitwise => "*ast.BitwiseExpr"
  | call => "*ast.CallExpr"
  | subscript => "*subscriptExpr"

/-- A kind, the shape it names and the shape it is rebuilt into. -/
structure Kind where
  name : Bytes
  shape : Shape
  build : Shape
deriving DecidableEq

structure Registry where
  kinds : List Kind
deriving DecidableEq

inductive RegisterError where
  | incomplete (name : Bytes)
  | noShape (name : Bytes)
  | shapeTaken (name : Bytes) (shape : Shape) (other : Bytes)
  | nameTaken (name : Bytes)
deriving DecidableEq

def RegisterError.message : RegisterError → Bytes
  | incomplete name => "register " ++ Text.quote name ++ ": kind and builder are required"
  | noShape name => "register " ++ Text.quote name ++ ": sample has no type"
  | shapeTaken name shape other =>
    "register " ++ Text.quote name ++ ": " ++ shape.typeName ++ " is already registered as " ++
      Text.quote other
  | nameTaken name => "register " ++ Text.quote name ++ ": kind is already registered"

namespace Registry

/-- The kinds of the eight shapes that source text can spell. -/
def standard : Registry where
  kinds :=
    [⟨"literal", .literal, .literal⟩, ⟨"ident", .ident, .ident⟩, ⟨"unary", .unary, .unary⟩,
     ⟨"arithmetic", .binary .arithmetic, .binary .arithmetic⟩,
     ⟨"comparison", .binary .comparison, .binary .comparison⟩,
     ⟨"logical", .binary .logical, .binary .logical⟩,
     ⟨"bitwise", .binary .bitwise, .binary .bitwise⟩, ⟨"call", .call, .call⟩]

def kindOf? (R : Registry) (shape : Shape) : Option Bytes :=
  (R.kinds.find? (·.shape = shape)).map (·.name)

/-- What a kind is rebuilt into. -/
def builder? (R : Registry) (name : Bytes) : Option Shape :=
  (R.kinds.find? (·.name = name)).map (·.build)

/-- Adds a kind for a shape that has none.  A kind needs a name and something to be rebuilt into. -/
def register (R : Registry) (name : Bytes) (shape build : Option Shape) :
    Except RegisterError Registry :=
  match build with
  | none => .error (.incomplete name)
  | some build =>
    if name.isEmpty then .error (.incomplete name)
    else match shape with
      | none => .error (.noShape name)
      | some shape =>
        match R.kindOf? shape with
        | some other => .error (.shapeTaken name shape other)
        | none =>
          if (R.builder? name).isSome then .error (.nameTaken name)
          else .ok ⟨R.kinds ++ [⟨name, shape, build⟩]⟩

end Registry

end Fixity
