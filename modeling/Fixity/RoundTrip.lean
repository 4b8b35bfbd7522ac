import Fixity.Expr.Same
import Fixity.Parse

/-!
# Round trips

A tree survives a round trip under a table when its source text parses, and parses to a tree of the
same shape.
-/

namespace Fixity

structure RoundTripError where
  source : Bytes
  /-- The error of parsing the source text; none when it parses to another tree. -/
  cause : Option SourceError
deriving DecidableEq

def RoundTripError.message (e : RoundTripError) : Bytes :=
  "tree does not survive a round trip: " ++ Text.quote e.source ++
    match e.cause with
    | none => []
    | some cause => " does not parse: " ++ cause.message

/-- The source text of a tree that survives a round trip. -/
def Expr.verify (T : Table) (e : Expr) : Except RoundTripError Bytes :=
  let src := e.source T
  match Expr.parse T src with
  | .error cause => .error ⟨src, some cause⟩
  | .ok parsed => if Expr.same e parsed then .ok src else .error ⟨src, none⟩

end Fixity
