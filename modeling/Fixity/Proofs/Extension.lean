import Fixity.Proofs.RoundTrip

/-!
# Adding operators

`S.Within T` says that the entries of a table are among those of another, at the same levels and
grouping in the same way.  What is an expression under the first table is then the same expression
under the second (`Table.Within.parse_eq`), though the second may know a prefix operator of the first
as a binary one, too, or the other way round.

The parser asks the table about one token at a time, and so it is enough that every token that it
accepts has the same entry in both tables.  A token that begins an operand and has no prefix entry is a
literal, a name or a parenthesis; a token that ends an operand and has no binary entry is a comma, a
parenthesis or the end of the text.  None of these can be an operator of any well-typed table.
-/

namespace Fixity

namespace Table

/-- Every entry of the first table is one of the second, at the same level and with the same
associativity. -/
structure Within (S T : Table) : Prop where
  binary : ∀ op ∈ S.binary, ∃ op' ∈ T.binary,
    op'.type = op.type ∧ op'.precedence = op.precedence ∧ op'.assoc = op.assoc
  unary : ∀ u ∈ S.unary, ∃ u' ∈ T.unary, u'.type = u.type ∧ u'.precedence = u.precedence

namespace Within

variable {S T : Table} (hS : S.WellTyped) (hT : T.WellTyped) (h : S.Within T)
include hS hT h

theorem binary?_eq_some {type : TokenType} {op : BinaryOp} (hop : S.binary? type = some op) :
    T.binary? type = some op := by
  obtain ⟨hmem, rfl⟩ := mem_of_binary? hop
  obtain ⟨op', hmem', htype, hprecedence, hassoc⟩ := h.binary op hmem
  have hcategory : op'.builder = op.builder := by
    have hop' := hT.binary op' hmem'
    rw [htype, hS.binary op hmem] at hop'
    exact (Option.some.inj hop').symm
  -- the category is that of the type under every well-typed table, so the entries are one
  obtain rfl : op' = op := by
    cases op
    cases op'
    simp only at htype hprecedence hassoc hcategory
    rw [htype, hprecedence, hassoc, hcategory]
  exact hT.accepted.binary?_of_mem hmem'

omit hS in
theorem unary?_eq_some {type : TokenType} {u : UnaryOp} (hu : S.unary? type = some u) :
    T.unary? type = some u := by
  obtain ⟨hmem, rfl⟩ := mem_of_unary? hu
  obtain ⟨u', hmem', htype, hprecedence⟩ := h.unary u hmem
  obtain rfl : u' = u := by
    cases u
    cases u'
    simp only at htype hprecedence
    rw [htype, hprecedence]
  exact hT.accepted.unary?_of_mem hmem'

end Within

end Table

namespace Parser

variable {S T : Table}

/-! ### Tokens with the same entries -/

theorem begin_congr {t : Token} (h : S.unary? t.type = T.unary? t.type) (stack : List Frame) :
    begin S stack t = begin T stack t := by
  rw [begin, begin, h]

theorem checkNonAssoc_congr {t : Token} (h : S.binary? t.type = T.binary? t.type) (op : BinaryOp) :
    checkNonAssoc S op t = checkNonAssoc T op t := by
  rw [checkNonAssoc, checkNonAssoc, h]

theorem settle_congr {t : Token} (h : S.binary? t.type = T.binary? t.type) (stack : List Frame) :
    ∀ e : Expr, settle S t e stack = settle T t e stack := by
  induction stack with
  | nil =>
    intro e
    rw [settle, settle]
  | cons frame stack ih =>
    intro e
    cases frame with
    | climb least => rw [settle, settle, h, ih e]
    | right op o l =>
      rw [settle, settle, checkNonAssoc_congr h]
      simp only [ih]
    | operand o =>
      rw [settle, settle]
      simp only [ih]
    | group => rw [settle, settle]
    | argument paren f read => rw [settle, settle]

/-! ### Tokens that are accepted -/

/-- What begins an operand has a prefix entry or is no prefix operator. -/
theorem unary_of_begin {stack : List Frame} {t : Token} {s : State} (h : begin S stack t = .ok s) :
    (∃ u, S.unary? t.type = some u) ∨ t.type.isUnary = false := by
  rcases begin_eq_ok h with ⟨u, hu, -⟩ | ⟨hnew, -⟩ | ⟨hnew, -⟩ | ⟨ht, -⟩
  · exact Or.inl ⟨u, hu⟩
  · obtain ⟨ht, -, -⟩ := Expr.newLiteral_some_eq_ok.mp hnew
    refine Or.inr ?_
    rcases Expr.type_of_isLiteral ht with ht | ht | ht | ht | ht <;> rw [ht] <;> rfl
  · obtain ⟨ht, -, -⟩ := Expr.newIdent_some_eq_ok.mp hnew
    exact Or.inr (by rw [ht]; rfl)
  · exact Or.inr (by rw [ht]; rfl)

/-- What ends an operand has a binary entry or is no binary operator. -/
theorem binary_of_settle {t : Token} {stack : List Frame} : ∀ {e : Expr} {s : State},
    settle S t e stack = .ok s →
      (∃ op, S.binary? t.type = some op) ∨ t.type.category? = none := by
  induction stack with
  | nil =>
    intro e s h
    obtain ⟨ht, -⟩ := settle_nil_eq_ok h
    exact Or.inr (by rw [ht]; rfl)
  | cons frame stack ih =>
    intro e s h
    cases frame with
    | climb least =>
      rcases settle_climb_eq_ok h with ⟨op, hop, -, -⟩ | ⟨-, h⟩
      · exact Or.inl ⟨op, hop⟩
      · exact ih h
    | right op o l =>
      obtain ⟨_, -, -, h⟩ := settle_right_eq_ok h
      exact ih h
    | operand o =>
      obtain ⟨_, -, h⟩ := settle_operand_eq_ok h
      exact ih h
    | group =>
      obtain ⟨ht, -⟩ := settle_group_eq_ok h
      exact Or.inr (by rw [ht]; rfl)
    | argument paren f read =>
      rcases settle_argument_eq_ok h with ⟨ht, -⟩ | ⟨ht, -⟩ <;>
      exact Or.inr (by rw [ht]; rfl)

/-! ### Runs -/

section Within

variable (hS : S.WellTyped) (hT : T.WellTyped) (hST : S.Within T)
include hS hT hST

theorem begin_of_within {stack : List Frame} {t : Token} {s : State} (h : begin S stack t = .ok s) :
    begin T stack t = .ok s := by
  rw [← h]
  refine (begin_congr ?_ stack).symm
  rcases unary_of_begin h with ⟨u, hu⟩ | hnone
  · rw [hu, hST.unary?_eq_some hT hu]
  · rw [hS.coherent.unary?_eq_none hnone, hT.coherent.unary?_eq_none hnone]

theorem settle_of_within {t : Token} {e : Expr} {stack : List Frame} {s : State}
    (h : settle S t e stack = .ok s) : settle T t e stack = .ok s := by
  rw [← h]
  refine (settle_congr ?_ stack e).symm
  rcases binary_of_settle h with ⟨op, hop⟩ | hnone
  · rw [hop, hST.binary?_eq_some hS hT hop]
  · rw [hS.coherent.binary?_eq_none hnone, hT.coherent.binary?_eq_none hnone]

/-- **One token** that is accepted under the smaller table leads to the same state under the larger. -/
theorem step_of_within {t : Token} {s s' : State} (h : step S t s = .ok s') :
    step T t s = .ok s' := by
  cases s with
  | expect stack => exact begin_of_within hS hT hST h
  | opened paren f stack =>
    rw [step] at h ⊢
    by_cases hparen : t.type = .rightParen
    · rwa [if_pos hparen] at h ⊢
    · rw [if_neg hparen] at h ⊢
      exact begin_of_within hS hT hST h
  | complete e stack =>
    rw [step] at h ⊢
    by_cases hparen : t.type = .leftParen
    · rwa [if_pos hparen] at h ⊢
    · rw [if_neg hparen] at h ⊢
      exact settle_of_within hS hT hST h
  | finished e => exact h

/-- **All tokens** of an expression of the smaller table are read to the same tree under the larger. -/
theorem run_of_within {last : Token} {ts : List Token} {e : Expr}
    (h : (run S last start ts).result = .ok e) : (run T last start ts).result = .ok e := by
  obtain ⟨s, hfeed, hfin⟩ := run_induct (P := fun s us => feed T start us = .ok s)
    (fun s s' us t _ hs hstep => by
      rw [feed_append_of_ok [t] hs, feed_singleton]
      exact step_of_within hS hT hST hstep) start [] e rfl h
  rw [List.nil_append] at hfeed
  have hrun := run_append_of_feed last [] hfeed
  rw [List.append_nil] at hrun
  rw [hrun, run, step_of_within hS hT hST hfin]

end Within

end Parser

/-- **Adding operators never changes what is an expression already.** -/
theorem Table.Within.parse_eq {S T : Table} (hS : S.WellTyped) (hT : T.WellTyped) (h : S.Within T)
    {src : Bytes} {e : Expr} (hparse : Expr.parse S src = .ok e) : Expr.parse T src = .ok e := by
  obtain ⟨herrors, hrun⟩ := Expr.parse_eq_ok.mp hparse
  exact Expr.parse_eq_ok.mpr ⟨herrors, Parser.run_of_within hS hT h hrun⟩

/-- A table where `-a * b` negates a product and `a - b` is a difference at the level of products. -/
def Table.looseDifference : Table :=
  ⟨[⟨.op .minus, 7, .none, .arithmetic⟩, ⟨.op .star, 7, .none, .arithmetic⟩],
    [⟨.op .bang, 2, ()⟩, ⟨.op .minus, 2, ()⟩]⟩

def Expr.negatedProduct : Expr :=
  .unary ⟨.op .minus, "-", .none, ⟨1, 1⟩⟩
    (.binary .arithmetic ⟨.op .star, "*", .none, ⟨1, 4⟩⟩
      (.ident ⟨.identifier, "a", .none, ⟨1, 2⟩⟩) (.ident ⟨.identifier, "b", .none, ⟨1, 6⟩⟩) 2) 3

/-- `-a * b` negates a product also where there are differences. -/
theorem Table.parse_negatedProduct : Expr.looseMinus.WellTyped ∧ looseDifference.WellTyped ∧
    Expr.looseMinus.Within looseDifference ∧
    Expr.parse Expr.looseMinus "-a * b" = .ok Expr.negatedProduct ∧
    Expr.parse looseDifference "-a * b" = .ok Expr.negatedProduct := by
  have hT : looseDifference.WellTyped :=
    ⟨⟨looseDifference.binary.map BinaryOp.draft, looseDifference.unary.map UnaryOp.draft, rfl⟩,
      by decide, by decide⟩
  have hwithin : Expr.looseMinus.Within looseDifference := ⟨by decide, by decide⟩
  have hstream : (Scan.ofBytes 1 "-a * b").stream =
      ⟨[⟨.op .minus, "-", .none, ⟨1, 1⟩⟩, ⟨.identifier, "a", .none, ⟨1, 2⟩⟩,
        ⟨.op .star, "*", .none, ⟨1, 4⟩⟩, ⟨.identifier, "b", .none, ⟨1, 6⟩⟩],
        ⟨.eof, [], .none, ⟨1, 7⟩⟩⟩ := by
    decide +kernel
  have hparse : Expr.parse Expr.looseMinus "-a * b" = .ok Expr.negatedProduct := by
    refine Expr.parse_eq_ok.mpr ⟨by decide +kernel, ?_⟩
    rw [hstream]
    rfl
  exact ⟨Expr.looseMinus_wellTyped, hT, hwithin, hparse,
    Table.Within.parse_eq Expr.looseMinus_wellTyped hT hwithin hparse⟩

end Fixity
