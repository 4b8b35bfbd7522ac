import Fixity.Command.Outcome
import Fixity.Expr.Walk

/-!
# Showing, writing and reading trees

A tree is shown with one node on each line, indented by its depth.  It is written to a document from
which it can be read back, and then its source text is printed.
-/

namespace Fixity.Store

abbrev kinds : Registry := Registry.standard

/-! ### Listings -/

def listingLine (e : Expr) (depth : Nat) : Bytes :=
  let indent : Bytes := List.replicate (2 * depth) 32
  indent ++ (kinds.kindOf? e.shape).getD e.shape.typeName ++ " " ++
    Text.quote e.token.lexeme ++ " " ++ e.token.pos.toBytes ++ "\n"

def listing (root : Expr) : Bytes := root.preorder.flatMap fun row => listingLine row.1 row.2

/-! ### Documents -/

def encode (Z : Compression) (compressed : Bool) (e : Expr) : Except DocumentError Bytes :=
  if compressed then Document.encodeCompressed Z kinds (some e) else Document.encode kinds (some e)

def decode (Z : Compression) (doc : Bytes) : Except DocumentError Expr := Document.decode Z kinds doc

/-- The source text of a tree, which is parsed again and compared with it if `verify`. -/
def print (T : Table) (verify : Bool) (e : Expr) : Except RoundTripError Bytes :=
  if verify then e.verify T else .ok (e.source T)

end Fixity.Store
