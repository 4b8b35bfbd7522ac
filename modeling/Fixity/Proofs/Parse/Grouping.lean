import Fixity.Expr.Source
import Fixity.Proofs.Token.Scan

/-!
# Parenthesisations

The token lists that spell a tree under a table.  They are the tokens of its source text, where the
whole, each operand, each callee and each argument may stand in any number of further pairs of
parentheses, but never in fewer than the table asks for:

    a + b * c        a + (b * c)        ((a) + b * (c))        but not        (a + b) * c

`Parenthesised T part ts` says so of one part of a source text.  The parts are a tree without
parentheses around it, a place where a tree stands, and the arguments of a call.
-/

namespace Fixity

/-! ### Operands without parentheses -/

theorem needsParens_left_eq_false {p q : Int} {a : Assoc} :
    needsParens p ⟨q, a⟩ .left = false ↔ q < p ∨ q = p ∧ a = .left := by
  simp only [needsParens]
  split
  · simp only [Bool.true_eq_false, false_iff]
    omega
  · split
    · simp only [true_iff]
      omega
    · have hlt : ¬ q < p := by assumption
      have heq : q = p := by omega
      cases a <;> simp [heq]

theorem needsParens_right_eq_false {p q : Int} {a : Assoc} :
    needsParens p ⟨q, a⟩ .right = false ↔ q < p ∨ q = p ∧ a = .right := by
  simp only [needsParens]
  split
  · simp only [Bool.true_eq_false, false_iff]
    omega
  · split
    · simp only [true_iff]
      omega
    · have hlt : ¬ q < p := by assumption
      have heq : q = p := by omega
      cases a <;> simp [heq]

theorem needsParens_prefix_eq_false {p q : Int} :
    needsParens p ⟨q, .right⟩ .right = false ↔ q ≤ p := by
  rw [needsParens_right_eq_false, and_iff_left rfl]
  omega

theorem needsParens_callee_eq_false {p : Int} :
    needsParens p Expr.appliedBinding .left = false ↔ 1000 ≤ p := by
  rw [Expr.appliedBinding, needsParens_left_eq_false, and_iff_left rfl]
  show 1000 < p ∨ 1000 = p ↔ 1000 ≤ p
  omega

/-! ### Parts of a source text -/

inductive Part where
  /-- A tree with no parentheses around it. -/
  | bare (e : Expr)
  /-- A place where a tree stands, in parentheses at least once if `needed`. -/
  | slot (needed : Bool) (e : Expr)
  /-- Trees with commas between them. -/
  | list (es : List Expr)

/-- The tokens spell the part under the table. -/
inductive Parenthesised (T : Table) : Part → List Token → Prop
  | literal {s t : Token} : t.Spells s.type s.lexeme →
      Parenthesised T (.bare (.literal s)) [t]
  | ident {s t : Token} : t.Spells s.type s.lexeme →
      Parenthesised T (.bare (.ident s)) [t]
  | unary {op o : Token} {x : Expr} {d : Nat} {ts : List Token} :
      o.Spells op.type op.type.name →
      Parenthesised T
        (.slot (needsParens (x.precedence T) ⟨Expr.unaryLevel T op.type, .right⟩ .right) x) ts →
      Parenthesised T (.bare (.unary op x d)) (o :: ts)
  | binary {c : Category} {op o : Token} {l r : Expr} {d : Nat} {ls rs : List Token} :
      Parenthesised T (.slot (needsParens (l.precedence T) (T.binding op.type) .left) l) ls →
      o.Spells op.type op.type.name →
      Parenthesised T (.slot (needsParens (r.precedence T) (T.binding op.type) .right) r) rs →
      Parenthesised T (.bare (.binary c op l r d)) (ls ++ o :: rs)
  | call {paren p q : Token} {f : Expr} {args : List Expr} {d : Nat} {fs ts : List Token} :
      Parenthesised T (.slot (needsParens (f.precedence T) Expr.appliedBinding .left) f) fs →
      p.Spells .leftParen "(" → Parenthesised T (.list args) ts → q.Spells .rightParen ")" →
      Parenthesised T (.bare (.call paren f args d)) (fs ++ p :: (ts ++ [q]))
  | plain {e : Expr} {ts : List Token} :
      Parenthesised T (.bare e) ts → Parenthesised T (.slot false e) ts
  | group {needed : Bool} {e : Expr} {p q : Token} {ts : List Token} :
      p.Spells .leftParen "(" → Parenthesised T (.slot false e) ts → q.Spells .rightParen ")" →
      Parenthesised T (.slot needed e) (p :: (ts ++ [q]))
  | none : Parenthesised T (.list []) []
  | one {e : Expr} {ts : List Token} :
      Parenthesised T (.slot false e) ts → Parenthesised T (.list [e]) ts
  | more {e e' : Expr} {es : List Expr} {comma : Token} {ts us : List Token} :
      Parenthesised T (.slot false e) ts → comma.Spells .comma "," →
      Parenthesised T (.list (e' :: es)) us →
      Parenthesised T (.list (e :: e' :: es)) (ts ++ comma :: us)

/-- The tokens are a parenthesisation of the tree. -/
def Expr.ParenthesisedBy (T : Table) (e : Expr) (ts : List Token) : Prop :=
  Parenthesised T (.slot false e) ts

namespace Parenthesised

variable {T : Table}

theorem ne_nil {part : Part} {ts : List Token} (h : Parenthesised T part ts)
    (hpart : part ≠ .list []) : ts ≠ [] := by
  induction h with
  | plain _ ih => exact ih (by simp)
  | one _ ih => exact ih (by simp)
  | none => exact absurd rfl hpart
  | _ => simp

end Parenthesised

end Fixity
