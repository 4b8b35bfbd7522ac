import Fixity.Proofs.Parse.Feed
import Fixity.Proofs.Table.SameOrder

/-!
# Only the order of levels matters

Under two tables in the same order (`Table.SameOrder`), every tree has the same source text and every
list of tokens is parsed alike: to the same tree, or to the same error at the same place
(`Table.SameOrder.source_and_parse_eq`).

The states of the parser differ under the two tables, since its frames hold levels.  A `climb` need
not even hold the level of an operator: below an operator that does not group to the right it asks for
one more than its level.  All that the frames do with such a number is to compare the levels of binary
operators with it, so frames match when these comparisons come out alike (`Bound`), and each token
keeps states that match.
-/

namespace Fixity

namespace Parser

variable {S T : Table}

/-! ### States that match -/

/-- The same binary operators are below the two numbers. -/
def Bound (S T : Table) (least least' : Int) : Prop :=
  ∀ type op op', S.binary? type = some op → T.binary? type = some op' →
    (op.precedence < least ↔ op'.precedence < least')

/-- The frames wait for the same thing under the two tables. -/
inductive FrameMatch (S T : Table) : Frame → Frame → Prop
  | climb {least least' : Int} : Bound S T least least' →
      FrameMatch S T (.climb least) (.climb least')
  | right {op op' : BinaryOp} {token : Token} {left : Expr} : S.binary? token.type = some op →
      T.binary? token.type = some op' → FrameMatch S T (.right op token left) (.right op' token left)
  | operand {token : Token} : FrameMatch S T (.operand token) (.operand token)
  | group : FrameMatch S T .group .group
  | argument {paren : Token} {callee : Expr} {read : List Expr} :
      FrameMatch S T (.argument paren callee read) (.argument paren callee read)

inductive StateMatch (S T : Table) : State → State → Prop
  | expect {stack stack' : List Frame} : List.Forall₂ (FrameMatch S T) stack stack' →
      StateMatch S T (.expect stack) (.expect stack')
  | opened {paren : Token} {callee : Expr} {stack stack' : List Frame} :
      List.Forall₂ (FrameMatch S T) stack stack' →
      StateMatch S T (.opened paren callee stack) (.opened paren callee stack')
  | complete {e : Expr} {stack stack' : List Frame} :
      List.Forall₂ (FrameMatch S T) stack stack' →
      StateMatch S T (.complete e stack) (.complete e stack')
  | finished {e : Expr} : StateMatch S T (.finished e) (.finished e)

/-- A token has led to states that match, or to the same stop. -/
inductive StepMatch (S T : Table) : Except Stop State → Except Stop State → Prop
  | ok {s s' : State} : StateMatch S T s s' → StepMatch S T (.ok s) (.ok s')
  | error {stop : Stop} : StepMatch S T (.error stop) (.error stop)

theorem StepMatch.bind {α : Type} {f f' : α → Except Stop State} (r : Except Stop α)
    (h : ∀ a, StepMatch S T (f a) (f' a)) : StepMatch S T (r >>= f) (r >>= f') := by
  cases r with
  | error stop => exact .error
  | ok a => exact h a

/-! ### Bounds -/

theorem bound_lowest (hS : S.Regular) (hT : T.Regular) :
    Bound S T (Precedence.lowest + 1) (Precedence.lowest + 1) := by
  intro type op op' hop hop'
  have hpos := (hS.binary?_level hop).1
  have hpos' := (hT.binary?_level hop').1
  show op.precedence < 0 + 1 ↔ op'.precedence < 0 + 1
  omega

theorem bound_unary (h : S.SameOrder T) {type : TokenType} {u u' : UnaryOp}
    (hu : S.unary? type = some u) (hu' : T.unary? type = some u') :
    Bound S T u.precedence u'.precedence := by
  intro type' op op' hop hop'
  exact h.order (Table.level?_of_binary? hop) (Table.level?_of_unary? hu)
    (Table.level?_of_binary? hop') (Table.level?_of_unary? hu')

theorem lt_iff_of_binary? (h : S.SameOrder T) {s t : TokenType} {a a' b b' : BinaryOp}
    (ha : S.binary? s = some a) (ha' : T.binary? s = some a') (hb : S.binary? t = some b)
    (hb' : T.binary? t = some b') : a.precedence < b.precedence ↔ a'.precedence < b'.precedence :=
  h.order (Table.level?_of_binary? ha) (Table.level?_of_binary? hb) (Table.level?_of_binary? ha')
    (Table.level?_of_binary? hb')

/-- Below the number after the level of an operator are the operators that it does not bind looser
than. -/
theorem bound_rightLeast (h : S.SameOrder T) {type : TokenType} {op op' : BinaryOp}
    (hop : S.binary? type = some op) (hop' : T.binary? type = some op')
    (hassoc : op'.assoc = op.assoc) : Bound S T (rightLeast op) (rightLeast op') := by
  intro type' b b' hb hb'
  have hbelow := lt_iff_of_binary? h hb hb' hop hop'
  have habove := lt_iff_of_binary? h hop hop' hb hb'
  unfold rightLeast
  rw [hassoc]
  split <;> omega

/-! ### Steps -/

theorem match_expression (hS : S.Regular) (hT : T.Regular) {stack stack' : List Frame}
    (hstack : List.Forall₂ (FrameMatch S T) stack stack') :
    List.Forall₂ (FrameMatch S T) (expression stack) (expression stack') :=
  .cons (.climb (bound_lowest hS hT)) hstack

theorem stepMatch_begin (hS : S.Regular) (hT : T.Regular) (h : S.SameOrder T)
    {stack stack' : List Frame} (hstack : List.Forall₂ (FrameMatch S T) stack stack') (t : Token) :
    StepMatch S T (begin S stack t) (begin T stack' t) := by
  have hleaf : ∀ r : Except NodeError Expr, StepMatch S T
      (taken (ParseError.ofNode t r) >>= fun e => pure (.complete e stack))
      (taken (ParseError.ofNode t r) >>= fun e => pure (.complete e stack')) :=
    fun r => .bind _ fun e => .ok (.complete hstack)
  unfold begin
  split
  · exact .error
  · rcases h.unary_cases t.type with ⟨hu, hu'⟩ | ⟨u, u', hu, hu'⟩
    · rw [hu, hu']
      simp only
      split
      case h_7 => exact .ok (.expect (match_expression hS hT (.cons .group hstack)))
      case h_8 => exact .error
      all_goals exact hleaf _
    · rw [hu, hu']
      exact .ok (.expect (.cons (.climb (bound_unary h hu hu')) (.cons .operand hstack)))

theorem checkNonAssoc_eq (h : S.SameOrder T) {type : TokenType} {op op' : BinaryOp}
    (hop : S.binary? type = some op) (hop' : T.binary? type = some op')
    (hassoc : op'.assoc = op.assoc) (t : Token) :
    checkNonAssoc S op t = checkNonAssoc T op' t := by
  unfold checkNonAssoc
  rw [hassoc]
  rcases h.binary_cases t.type with ⟨hb, hb'⟩ | ⟨b, b', hb, hb', -, -, htype⟩
  · rw [hb, hb']
  · have hbelow := lt_iff_of_binary? h hb hb' hop hop'
    have habove := lt_iff_of_binary? h hop hop' hb hb'
    have heq : b.precedence = op.precedence ↔ b'.precedence = op'.precedence := by omega
    rw [hb, hb']
    simp only [heq, htype]

/-- **An operand is handed to the frames that wait for it alike under both tables.** -/
theorem stepMatch_settle (hS : S.Regular) (hT : T.Regular) (h : S.SameOrder T) (t : Token)
    {stack stack' : List Frame} (hstack : List.Forall₂ (FrameMatch S T) stack stack') :
    ∀ e : Expr, StepMatch S T (settle S t e stack) (settle T t e stack') := by
  induction hstack with
  | nil =>
    intro e
    rw [settle, settle]
    split
    · exact .ok .finished
    · exact .error
  | @cons frame frame' stack stack' hframe hstack ih =>
    intro e
    cases hframe with
    | @climb least least' hbound =>
      rw [settle, settle]
      rcases h.binary_cases t.type with ⟨hop, hop'⟩ | ⟨op, op', hop, hop', hassoc, -, -⟩
      · rw [hop, hop']
        exact ih e
      · rw [hop, hop']
        simp only [hbound t.type op op' hop hop']
        split
        · exact ih e
        · split
          · exact .error
          · exact .ok (.expect (.cons (.climb (bound_rightLeast h hop hop' hassoc))
              (.cons (.right hop hop') (.cons (.climb hbound) hstack))))
    | @right op op' token left hop hop' =>
      obtain ⟨hassoc, hcategory⟩ : op'.assoc = op.assoc ∧ op'.builder = op.builder := by
        rcases h.binary_cases token.type with ⟨hnone, -⟩ | ⟨b, b', hb, hb', hassoc, hcategory, -⟩
        · rw [hnone] at hop
          cases hop
        · obtain rfl := Option.some.inj (hop.symm.trans hb)
          obtain rfl := Option.some.inj (hop'.symm.trans hb')
          exact ⟨hassoc, hcategory⟩
      rw [settle, settle, hcategory, checkNonAssoc_eq h hop hop' hassoc]
      exact .bind _ fun e => .bind _ fun _ => ih e
    | operand =>
      rw [settle, settle]
      exact .bind _ fun e => ih e
    | group =>
      rw [settle, settle]
      split
      · exact .ok (.complete hstack)
      · exact .error
    | argument =>
      rw [settle, settle]
      split
      · exact .ok (.expect (match_expression hS hT (.cons .argument hstack)))
      · exact .bind _ fun e => .ok (.complete hstack)
      · exact .error

/-- **One token** keeps states that match. -/
theorem stepMatch_step (hS : S.Regular) (hT : T.Regular) (h : S.SameOrder T) (t : Token)
    {s s' : State} (hs : StateMatch S T s s') : StepMatch S T (step S t s) (step T t s') := by
  cases hs with
  | expect hstack => exact stepMatch_begin hS hT h hstack t
  | opened hstack =>
    rw [step, step]
    split
    · exact .bind _ fun e => .ok (.complete hstack)
    · exact stepMatch_begin hS hT h (match_expression hS hT (.cons .argument hstack)) t
  | complete hstack =>
    rw [step, step]
    split
    · exact .ok (.opened hstack)
    · exact stepMatch_settle hS hT h t hstack _
  | finished => exact .ok .finished

/-- **All tokens** are read alike from states that match. -/
theorem run_eq_of_match (hS : S.Regular) (hT : T.Regular) (h : S.SameOrder T) (last : Token)
    (ts : List Token) : ∀ {s s' : State}, StateMatch S T s s' →
      run S last s ts = run T last s' ts := by
  induction ts with
  | nil =>
    intro s s' hs
    have hstep := stepMatch_step hS hT h last hs
    rw [run, run]
    generalize step S last s = r at hstep
    generalize step T last s' = r' at hstep
    cases hstep with
    | error => rfl
    | ok hmatch => cases hmatch <;> rfl
  | cons t ts ih =>
    intro s s' hs
    have hstep := stepMatch_step hS hT h t hs
    rw [run, run]
    generalize step S t s = r at hstep
    generalize step T t s' = r' at hstep
    cases hstep with
    | error => rfl
    | ok hmatch => exact ih hmatch

end Parser

/-! ### Source texts and parsing -/

/-- **Under two accepted tables in the same order every tree has the same source text, and every list
of tokens is parsed alike**, up to the tokens that are left. -/
theorem Table.SameOrder.source_and_parse_eq {S T : Table} (hS : S.Accepted) (hT : T.Accepted)
    (h : S.SameOrder T) :
    (∀ e : Expr, e.source S = e.source T) ∧ ∀ s : TokenStream, s.parse S = s.parse T := by
  constructor
  · intro e
    rw [Expr.source, Expr.source, write_eq_of_sameOrder hS.regular hT.regular h]
  · intro s
    have hstart : Parser.StateMatch S T Parser.start Parser.start :=
      .expect (Parser.match_expression hS.regular hT.regular .nil)
    rw [TokenStream.parse, TokenStream.parse,
      Parser.run_eq_of_match hS.regular hT.regular h s.last s.tokens hstart]

/-- The standard table with a gap of seventy between its levels. -/
def Table.spread : Table := Table.standard.relabel (70 * ·)

/-- The standard grammar does not change when its levels are spread. -/
theorem Table.spread_source_and_parse_eq : Table.standard.Accepted ∧ Table.spread.Accepted ∧
    (∀ e : Expr, e.source Table.standard = e.source Table.spread) ∧
    ∀ s : TokenStream, s.parse Table.standard = s.parse Table.spread := by
  have hstandard : Table.standard.Accepted := ⟨_, _, Table.ofDrafts_standard⟩
  have hspread : Table.spread.Accepted :=
    ⟨Table.spread.binary.map BinaryOp.draft, Table.spread.unary.map UnaryOp.draft, rfl⟩
  have horder : Table.standard.SameOrder Table.spread :=
    Table.sameOrder_relabel (fun p q => by omega) Table.standard
  exact ⟨hstandard, hspread, Table.SameOrder.source_and_parse_eq hstandard hspread horder⟩

end Fixity
