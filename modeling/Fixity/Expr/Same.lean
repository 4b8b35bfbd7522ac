import Fixity.Expr.Walk

/-!
# Trees of the same shape

Two trees are the same when they have the same sorts of nodes with the same token types, the same
lexemes at their leaves, and the same children in the same order.  Places in the source do not
matter, nor do the lexemes of inner nodes.  The comparison works through a stack of pairs.
-/

namespace Fixity

namespace Expr

/-- The nodes agree, their children apart. -/
def sameHead (a b : Expr) : Bool :=
  a.shape == b.shape && a.token.type == b.token.type &&
    a.children.length == b.children.length &&
    (!a.children.isEmpty || a.token.lexeme == b.token.lexeme)

def allSame : List (Expr × Expr) → Bool
  | [] => true
  | (a, b) :: stack => sameHead a b && allSame ((a.children.zip b.children).reverse ++ stack)
termination_by stack => sizes (stack.map Prod.fst)
decreasing_by
  have h := sizes_children a
  have hZip : ∀ (es fs : List Expr), sizes ((es.zip fs).reverse.map Prod.fst) ≤ sizes es := by
    intro es
    induction es with
    | nil => intro fs; simp [sizes]
    | cons e es ih =>
      intro fs
      cases fs with
      | nil => simp [sizes]
      | cons f fs =>
        have := ih fs
        simp only [List.zip_cons_cons, List.reverse_cons, List.map_append, sizes_append,
          List.map_cons, List.map_nil, sizes]
        omega
  have := hZip a.children b.children
  simp only [List.map_append, sizes_append, List.map_cons, sizes]
  omega

/-- Both are missing, or both are there and of the same shape. -/
def same (a b : Option Expr) : Bool :=
  match a, b with
  | none, none => true
  | some a, some b => allSame [(a, b)]
  | _, _ => false

end Expr

end Fixity
