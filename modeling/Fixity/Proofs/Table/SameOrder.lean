import Fixity.Expr.Source
import Fixity.Proofs.Table

/-!
# Tables with the same order of levels

`S.SameOrder T` says that two tables have the same operators, which build the same nodes and group in
the same way, and that any two of them, prefix or binary, are in the same order of levels.  The
numbers that stand for the levels may differ.

Source texts compare levels with each other and with those of nothing at all, of a call and of a leaf.
All levels of a table lie between the first two of these, so they correspond, too (`Level`), and
comparing two levels under one table is comparing the corresponding ones under the other.
-/

namespace Fixity

open Fixity.Expr

namespace Table

def level? (T : Table) : Arity → TokenType → Option Int
  | .binary, type => (T.binary? type).map (·.precedence)
  | .unary, type => (T.unary? type).map (·.precedence)

/-- The tables have the same operators, and any two of them are in the same order of levels. -/
structure SameOrder (S T : Table) : Prop where
  binary : ∀ type, (S.binary? type).map (fun op => (op.assoc, op.builder)) =
    (T.binary? type).map fun op => (op.assoc, op.builder)
  unary : ∀ type, (S.unary? type).isSome = (T.unary? type).isSome
  order : ∀ {a b : Arity} {s t : TokenType} {p q p' q' : Int}, S.level? a s = some p →
    S.level? b t = some q → T.level? a s = some p' → T.level? b t = some q' → (p < q ↔ p' < q')

/-! ### Tables with other numbers for their levels -/

/-- The table with other numbers for its levels. -/
def relabel (f : Int → Int) (T : Table) : Table where
  binary := T.binary.map fun op => { op with precedence := f op.precedence }
  unary := T.unary.map fun op => { op with precedence := f op.precedence }

theorem relabel_binary? (f : Int → Int) (T : Table) (type : TokenType) :
    (T.relabel f).binary? type =
      (T.binary? type).map fun op => { op with precedence := f op.precedence } := by
  rw [binary?, relabel, List.find?_map]
  rfl

theorem relabel_unary? (f : Int → Int) (T : Table) (type : TokenType) :
    (T.relabel f).unary? type =
      (T.unary? type).map fun op => { op with precedence := f op.precedence } := by
  rw [unary?, relabel, List.find?_map]
  rfl

theorem relabel_level? (f : Int → Int) (T : Table) (a : Arity) (type : TokenType) :
    (T.relabel f).level? a type = (T.level? a type).map f := by
  cases a with
  | binary => rw [level?, level?, relabel_binary?, Option.map_map, Option.map_map]; rfl
  | unary => rw [level?, level?, relabel_unary?, Option.map_map, Option.map_map]; rfl

theorem sameOrder_relabel {f : Int → Int} (hf : ∀ p q, p < q ↔ f p < f q) (T : Table) :
    T.SameOrder (T.relabel f) where
  binary type := by
    rw [relabel_binary?, Option.map_map]
    rfl
  unary type := by rw [relabel_unary?, Option.isSome_map]
  order := by
    intro a b s t p q p' q' hp hq hp' hq'
    rw [relabel_level?, hp, Option.map_some, Option.some_inj] at hp'
    rw [relabel_level?, hq, Option.map_some, Option.some_inj] at hq'
    rw [← hp', ← hq', hf]

/-! ### Entries of both tables -/

variable {S T : Table}

theorem Regular.level?_bounds (hT : T.Regular) {a : Arity} {type : TokenType} {p : Int}
    (h : T.level? a type = some p) : 0 < p ∧ p < 1000 := by
  cases a with
  | binary =>
    obtain ⟨op, hop, rfl⟩ := Option.map_eq_some_iff.mp h
    exact hT.binary?_level hop
  | unary =>
    obtain ⟨op, hop, rfl⟩ := Option.map_eq_some_iff.mp h
    exact hT.unary?_level hop

theorem level?_of_binary? {type : TokenType} {op : BinaryOp} (h : T.binary? type = some op) :
    T.level? .binary type = some op.precedence := by
  rw [level?, h]
  rfl

theorem level?_of_unary? {type : TokenType} {op : UnaryOp} (h : T.unary? type = some op) :
    T.level? .unary type = some op.precedence := by
  rw [level?, h]
  rfl

namespace SameOrder

variable (h : S.SameOrder T)
include h

theorem binary_cases (type : TokenType) :
    (S.binary? type = none ∧ T.binary? type = none) ∨
      ∃ op op', S.binary? type = some op ∧ T.binary? type = some op' ∧ op'.assoc = op.assoc ∧
        op'.builder = op.builder ∧ op'.type = op.type := by
  have hmap := h.binary type
  cases hS : S.binary? type with
  | none =>
    rw [hS, Option.map_none, eq_comm, Option.map_eq_none_iff] at hmap
    exact Or.inl ⟨rfl, hmap⟩
  | some op =>
    rw [hS, Option.map_some, eq_comm, Option.map_eq_some_iff] at hmap
    obtain ⟨op', hop', heq⟩ := hmap
    obtain ⟨hassoc, hcategory⟩ := Prod.mk.inj heq
    have htype : op'.type = op.type := (mem_of_binary? hop').2.trans (mem_of_binary? hS).2.symm
    exact Or.inr ⟨op, op', rfl, hop', hassoc, hcategory, htype⟩

theorem unary_cases (type : TokenType) :
    (S.unary? type = none ∧ T.unary? type = none) ∨
      ∃ u u', S.unary? type = some u ∧ T.unary? type = some u' := by
  have hsome := h.unary type
  cases hS : S.unary? type with
  | none =>
    rw [hS, Option.isSome_none, eq_comm, Option.isSome_eq_false_iff, Option.isNone_iff_eq_none]
      at hsome
    exact Or.inl ⟨rfl, hsome⟩
  | some u =>
    rw [hS, Option.isSome_some, eq_comm, Option.isSome_iff_exists] at hsome
    obtain ⟨u', hu'⟩ := hsome
    exact Or.inr ⟨u, u', rfl, hu'⟩

end SameOrder

/-! ### Corresponding levels -/

/-- The levels of one thing under the two tables: of nothing at all, of an entry, of a call or of a
leaf. -/
inductive Level (S T : Table) : Int → Int → Prop
  | lowest : Level S T Precedence.lowest Precedence.lowest
  | entry {a : Arity} {type : TokenType} {p p' : Int} : S.level? a type = some p →
      T.level? a type = some p' → Level S T p p'
  | call : Level S T Precedence.call Precedence.call
  | primary : Level S T Precedence.primary Precedence.primary

/-- **Corresponding levels are in the same order.** -/
theorem Level.lt_iff (hS : S.Regular) (hT : T.Regular) (h : S.SameOrder T) {p p' q q' : Int}
    (hp : Level S T p p') (hq : Level S T q q') : p < q ↔ p' < q' := by
  have hlowest : Precedence.lowest = 0 := rfl
  have hcall : Precedence.call = 1000 := rfl
  have hprimary : Precedence.primary = 1001 := rfl
  cases hp with
  | entry hp hp' =>
    have hbounds := hS.level?_bounds hp
    have hbounds' := hT.level?_bounds hp'
    cases hq with
    | entry hq hq' => exact h.order hp hq hp' hq'
    | _ => omega
  | _ =>
    cases hq with
    | entry hq hq' =>
      have hbounds := hS.level?_bounds hq
      have hbounds' := hT.level?_bounds hq'
      omega
    | _ => rfl

theorem level_binding (h : S.SameOrder T) (type : TokenType) :
    Level S T (S.binding type).precedence (T.binding type).precedence ∧
      (T.binding type).assoc = (S.binding type).assoc := by
  rcases h.binary_cases type with ⟨hS, hT⟩ | ⟨op, op', hS, hT, hassoc, -, -⟩
  · rw [binding_of_none hS, binding_of_none hT]
    exact ⟨.lowest, rfl⟩
  · rw [binding_of_binary? hS, binding_of_binary? hT]
    exact ⟨.entry (level?_of_binary? hS) (level?_of_binary? hT), hassoc⟩

theorem level_unaryLevel (h : S.SameOrder T) (type : TokenType) :
    Level S T (unaryLevel S type) (unaryLevel T type) := by
  rcases h.unary_cases type with ⟨hS, hT⟩ | ⟨u, u', hS, hT⟩
  · rw [unaryLevel, unaryLevel, hS, hT]
    exact .call
  · rw [unaryLevel, unaryLevel, hS, hT]
    exact .entry (level?_of_unary? hS) (level?_of_unary? hT)

theorem level_precedence (h : S.SameOrder T) (e : Expr) :
    Level S T (e.precedence S) (e.precedence T) := by
  cases e with
  | literal | ident => exact .primary
  | call | subscript => exact .call
  | binary c op l r d => exact (level_binding h op.type).1
  | unary op x d =>
    rw [precedence, precedence]
    rcases h.unary_cases op.type with ⟨hS, hT⟩ | ⟨u, u', hS, hT⟩
    · rw [hS, hT]
      exact .lowest
    · rw [hS, hT]
      exact .entry (level?_of_unary? hS) (level?_of_unary? hT)

/-! ### Source texts -/

theorem operand_eq_of_level (hS : S.Regular) (hT : T.Regular) (h : S.SameOrder T) {p p' q q' : Int}
    (hp : Level S T p p') (hq : Level S T q q') (a : Assoc) (side : Side) :
    Writer.operand p ⟨q, a⟩ side = Writer.operand p' ⟨q', a⟩ side := by
  have hparens : needsParens p ⟨q, a⟩ side = needsParens p' ⟨q', a⟩ side := by
    simp only [needsParens, hp.lt_iff hS hT h hq, hq.lt_iff hS hT h hp]
  funext body
  rw [Writer.operand, Writer.operand, hparens]

theorem writeArgs_cons_cons (T : Table) (e e' : Expr) (es : List Expr) :
    writeArgs T (e :: e' :: es) =
      fun rest => e.write T (44 :: 32 :: writeArgs T (e' :: es) rest) := by
  rw [writeArgs]
  simp

mutual

/-- **Trees are written alike under both tables.** -/
theorem write_eq_of_sameOrder (hS : S.Regular) (hT : T.Regular) (h : S.SameOrder T) :
    ∀ e : Expr, e.write S = e.write T
  | .literal t => by rw [write, write]
  | .ident t => by rw [write, write]
  | .unary op e _ => by
    have hoperand := operand_eq_of_level hS hT h (level_precedence h e) (level_unaryLevel h op.type)
      .right .right
    rw [write, write, write_eq_of_sameOrder hS hT h e]
    funext rest
    rw [Writer.prefixed, Writer.prefixed, hoperand]
  | .binary _ op l r _ => by
    obtain ⟨hlevel, hassoc⟩ := level_binding h op.type
    have hoperand : ∀ (e : Expr) (side : Side),
        Writer.operand (e.precedence S) (S.binding op.type) side =
          Writer.operand (e.precedence T) (T.binding op.type) side := by
      intro e side
      have hbinding : T.binding op.type =
          ⟨(T.binding op.type).precedence, (S.binding op.type).assoc⟩ := by rw [← hassoc]
      rw [hbinding]
      exact operand_eq_of_level hS hT h (level_precedence h e) hlevel _ side
    rw [write, write, write_eq_of_sameOrder hS hT h l, write_eq_of_sameOrder hS hT h r]
    funext rest
    rw [Writer.joined, Writer.joined, hoperand, hoperand]
  | .call _ f args _ => by
    have hoperand := operand_eq_of_level hS hT h (level_precedence h f) .call .left .left
    rw [write, write, write_eq_of_sameOrder hS hT h f, writeArgs_eq_of_sameOrder hS hT h args]
    funext rest
    rw [appliedBinding, hoperand]
  | .subscript _ e i _ => by
    have hoperand := operand_eq_of_level hS hT h (level_precedence h e) .call .left .left
    rw [write, write, write_eq_of_sameOrder hS hT h e, write_eq_of_sameOrder hS hT h i]
    funext rest
    rw [appliedBinding, hoperand]

theorem writeArgs_eq_of_sameOrder (hS : S.Regular) (hT : T.Regular) (h : S.SameOrder T) :
    ∀ es : List Expr, writeArgs S es = writeArgs T es
  | [] => by rw [writeArgs, writeArgs]
  | [e] => by rw [writeArgs, writeArgs, write_eq_of_sameOrder hS hT h e]
  | e :: e' :: es => by
    rw [writeArgs_cons_cons, writeArgs_cons_cons, write_eq_of_sameOrder hS hT h e,
      writeArgs_eq_of_sameOrder hS hT h (e' :: es)]

end

end Table

end Fixity
