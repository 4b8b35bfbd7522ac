import Fixity.Proofs.Parse.Feed

/-!
# Where the tokens of a text end up

A tree that is parsed holds the tokens it was parsed from, in their order.  Left out are only those
that no node has for a token: the end, closing parentheses, commas, and parentheses that group.  An
opening parenthesis groups unless it follows the end of an operand; then it is the token of a call.

* `Expr.inorder` lists the tokens of a tree in the order of its text;
* `TokenStream.kept` is what is left of a list of tokens;
* `TokenStream.inorder_parse`: under a well-typed table the two agree.

The parser moves tokens from the list to its stack of frames and from there to the tree, so what is
proved of each token is that the tokens of the state are those kept so far (`accounts_step`).
-/

namespace Fixity

/-! ### Tokens of a tree -/

namespace Expr

mutual

def inorder : Expr → List Token
  | literal t | ident t => [t]
  | unary op x _ => op :: x.inorder
  | binary _ op l r _ => l.inorder ++ op :: r.inorder
  | call paren f args _ => f.inorder ++ paren :: inorderAll args
  | subscript bracket x i _ => x.inorder ++ bracket :: i.inorder

def inorderAll : List Expr → List Token
  | [] => []
  | e :: es => e.inorder ++ inorderAll es

end

theorem inorderAll_append (es fs : List Expr) :
    inorderAll (es ++ fs) = inorderAll es ++ inorderAll fs := by
  induction es with
  | nil => rfl
  | cons e es ih => rw [List.cons_append, inorderAll, inorderAll, ih, List.append_assoc]

end Expr

/-! ### Tokens that are kept -/

def TokenType.endsOperand (type : TokenType) : Bool :=
  type.isLiteral || type == .identifier || type == .rightParen

/-- After the token, if there is one, an opening parenthesis begins the arguments of a call. -/
def endsOperand (before : Option Token) : Bool := before.any (·.type.endsOperand)

/-- The token is that of a node when it follows the given one. -/
def Token.isKept (before : Option Token) (t : Token) : Bool :=
  match t.type with
  | .rightParen | .comma | .eof => false
  | .leftParen => endsOperand before
  | _ => true

def keptAfter (before : Option Token) : List Token → List Token
  | [] => []
  | t :: ts => if t.isKept before then t :: keptAfter (some t) ts else keptAfter (some t) ts

/-- What is left of a list of tokens without its end, closing parentheses, commas and the
parentheses that group. -/
def TokenStream.kept (s : TokenStream) : List Token := keptAfter none s.toList

def Token.keep (before : Option Token) (t : Token) : List Token :=
  if t.isKept before then [t] else []

theorem keptAfter_concat (ts : List Token) (t : Token) : ∀ before : Option Token,
    keptAfter before (ts ++ [t]) = keptAfter before ts ++ t.keep (ts.getLast?.or before) := by
  induction ts with
  | nil =>
    intro before
    rfl
  | cons u ts ih =>
    intro before
    have hlast : (u :: ts).getLast?.or before = ts.getLast?.or (some u) := by
      rw [List.getLast?_cons]
      cases ts.getLast? <;> rfl
    rw [List.cons_append, keptAfter, keptAfter, ih, hlast]
    split <;> rfl

section keep

variable {before : Option Token} {t : Token}

theorem Token.keep_of_op {o : Operator} (h : t.type = .op o) : t.keep before = [t] := by
  simp [Token.keep, Token.isKept, h]

theorem Token.keep_of_isLiteral (h : t.type.isLiteral = true) : t.keep before = [t] := by
  rcases Expr.type_of_isLiteral h with h | h | h | h | h <;> simp [Token.keep, Token.isKept, h]

theorem Token.keep_of_identifier (h : t.type = .identifier) : t.keep before = [t] := by
  simp [Token.keep, Token.isKept, h]

theorem Token.keep_of_leftParen (h : t.type = .leftParen) :
    t.keep before = if endsOperand before then [t] else [] := by
  simp [Token.keep, Token.isKept, h]

theorem Token.keep_eq_nil (h : t.type = .rightParen ∨ t.type = .comma ∨ t.type = .eof) :
    t.keep before = [] := by
  rcases h with h | h | h <;> simp [Token.keep, Token.isKept, h]

end keep

/-! ### Tokens of the parser -/

namespace Parser

open Fixity.Expr

def Frame.tokens : Frame → List Token
  | .climb _ | .group => []
  | .right _ op left => left.inorder ++ [op]
  | .operand op => [op]
  | .argument paren callee read => callee.inorder ++ paren :: inorderAll read.reverse

def stackTokens : List Frame → List Token
  | [] => []
  | frame :: stack => stackTokens stack ++ frame.tokens

theorem stackTokens_climb (least : Int) (stack : List Frame) :
    stackTokens (.climb least :: stack) = stackTokens stack := List.append_nil _

theorem stackTokens_group (stack : List Frame) :
    stackTokens (.group :: stack) = stackTokens stack := List.append_nil _

def State.tokens : State → List Token
  | .expect stack => stackTokens stack
  | .opened paren callee stack => stackTokens stack ++ (callee.inorder ++ [paren])
  | .complete e stack => stackTokens stack ++ e.inorder
  | .finished e => e.inorder

/-- What a state says of the last token read: it ends an operand, or the tokens, or neither. -/
def State.After (last : Option Token) : State → Prop
  | .complete _ _ => endsOperand last = true
  | .finished _ => ∃ t ∈ last, t.type = .eof
  | _ => endsOperand last = false

structure Accounts (s : State) (ts : List Token) : Prop where
  tokens : s.tokens = keptAfter none ts
  last : s.After ts.getLast?

variable {T : Table}

theorem endsOperand_some {t : Token} {type : TokenType} {ends : Bool} (h : t.type = type)
    (hends : type.endsOperand = ends) : endsOperand (some t) = ends := by
  subst h
  exact hends

theorem TokenType.endsOperand_of_isLiteral {type : TokenType} (h : type.isLiteral = true) :
    type.endsOperand = true := by
  rw [TokenType.endsOperand, h]
  rfl

theorem exists_op_of_binary? (hT : T.Coherent) {type : TokenType} {op : BinaryOp}
    (h : T.binary? type = some op) : ∃ o, type = .op o :=
  exists_op_of_category? (hT.category?_of_binary? h)

theorem exists_op_of_unary? (hT : T.Coherent) {type : TokenType} {u : UnaryOp}
    (h : T.unary? type = some u) : ∃ o, type = .op o := by
  obtain ⟨o, ho, -⟩ := exists_op_of_isUnary (hT.isUnary_of_unary? h)
  exact ⟨o, ho⟩

theorem tokens_begin (hT : T.Coherent) {before : Option Token}
    (hbefore : endsOperand before = false) {stack : List Frame} {t : Token} {s : State}
    (h : begin T stack t = .ok s) :
    s.tokens = stackTokens stack ++ t.keep before ∧ s.After (some t) := by
  rcases begin_eq_ok h with ⟨u, hu, rfl⟩ | ⟨hnew, rfl⟩ | ⟨hnew, rfl⟩ | ⟨hparen, rfl⟩
  · obtain ⟨o, ho⟩ := exists_op_of_unary? hT hu
    rw [Token.keep_of_op ho]
    refine ⟨?_, endsOperand_some ho rfl⟩
    rw [State.tokens, stackTokens_climb, stackTokens, Frame.tokens]
  · obtain ⟨htype, -, -⟩ := newLiteral_some_eq_ok.mp hnew
    rw [Token.keep_of_isLiteral htype]
    exact ⟨by rw [State.tokens, inorder],
      endsOperand_some rfl (TokenType.endsOperand_of_isLiteral htype)⟩
  · obtain ⟨htype, -, -⟩ := newIdent_some_eq_ok.mp hnew
    rw [Token.keep_of_identifier htype]
    exact ⟨by rw [State.tokens, inorder], endsOperand_some htype rfl⟩
  · rw [Token.keep_of_leftParen hparen, hbefore]
    refine ⟨?_, endsOperand_some hparen rfl⟩
    rw [State.tokens, expression, stackTokens_climb, stackTokens_group]
    exact (List.append_nil _).symm

/-- A complete operand is handed on, and what is made of it has its tokens. -/
theorem tokens_settle (hT : T.Coherent) {before : Option Token} {t : Token} {stack : List Frame} :
    ∀ {e : Expr} {s : State}, settle T t e stack = .ok s →
      s.tokens = stackTokens stack ++ e.inorder ++ t.keep before ∧ s.After (some t) := by
  induction stack with
  | nil =>
    intro e s h
    obtain ⟨heof, rfl⟩ := settle_nil_eq_ok h
    rw [Token.keep_eq_nil (Or.inr (Or.inr heof)), List.append_nil]
    exact ⟨rfl, t, rfl, heof⟩
  | cons frame stack ih =>
    intro e s h
    cases frame with
    | climb least =>
      rcases settle_climb_eq_ok h with ⟨op, hop, -, rfl⟩ | ⟨-, h⟩
      · obtain ⟨o, ho⟩ := exists_op_of_binary? hT hop
        rw [Token.keep_of_op ho]
        refine ⟨?_, endsOperand_some ho rfl⟩
        rw [State.tokens, stackTokens_climb, stackTokens, Frame.tokens, List.append_assoc]
      · rw [stackTokens_climb]
        exact ih h
    | right op o l =>
      obtain ⟨e', hnew, -, h⟩ := settle_right_eq_ok h
      obtain ⟨htokens, hafter⟩ := ih h
      obtain ⟨-, -, rfl⟩ := newBinary_some_eq_ok.mp hnew
      rw [inorder] at htokens
      refine ⟨?_, hafter⟩
      rw [htokens, stackTokens, Frame.tokens]
      simp only [List.append_assoc, List.cons_append, List.nil_append]
    | operand o =>
      obtain ⟨e', hnew, h⟩ := settle_operand_eq_ok h
      obtain ⟨htokens, hafter⟩ := ih h
      obtain ⟨-, -, rfl⟩ := newUnary_some_eq_ok.mp hnew
      rw [inorder] at htokens
      refine ⟨?_, hafter⟩
      rw [htokens, stackTokens, Frame.tokens]
      simp only [List.append_assoc, List.cons_append, List.nil_append]
    | group =>
      obtain ⟨hparen, rfl⟩ := settle_group_eq_ok h
      rw [Token.keep_eq_nil (Or.inl hparen), stackTokens_group, List.append_nil]
      exact ⟨rfl, endsOperand_some hparen rfl⟩
    | argument paren f read =>
      rcases settle_argument_eq_ok h with ⟨hcomma, rfl⟩ | ⟨hparen, call, rfl, hnew⟩
      · rw [Token.keep_eq_nil (Or.inr (Or.inl hcomma)), List.append_nil]
        refine ⟨?_, endsOperand_some hcomma rfl⟩
        rw [State.tokens, expression, stackTokens_climb, stackTokens, stackTokens, Frame.tokens,
          Frame.tokens, List.reverse_cons, inorderAll_append]
        simp only [inorderAll, List.append_assoc, List.cons_append, List.append_nil]
      · obtain ⟨-, -, rfl⟩ := newCall_some_eq_ok.mp hnew
        rw [Token.keep_eq_nil (Or.inl hparen), List.append_nil]
        refine ⟨?_, endsOperand_some hparen rfl⟩
        rw [State.tokens, inorder, List.reverse_cons, inorderAll_append, stackTokens, Frame.tokens]
        simp only [inorderAll, List.append_assoc, List.cons_append, List.append_nil]

/-- **One token** is held by the next state or left out. -/
theorem accounts_step (hT : T.Coherent) {s s' : State} {ts : List Token} {t : Token}
    (hts : ∀ u ∈ ts, u.type ≠ .eof) (hs : Accounts s ts) (h : step T t s = .ok s') :
    Accounts s' (ts ++ [t]) := by
  have hnext : s'.tokens = s.tokens ++ t.keep ts.getLast? ∧ s'.After (some t) := by
    cases s with
    | expect stack => exact tokens_begin hT hs.last h
    | opened paren f stack =>
      rcases step_opened_eq_ok h with ⟨hparen, call, rfl, hnew⟩ | h
      · obtain ⟨-, -, rfl⟩ := newCall_nil_eq_ok.mp hnew
        rw [Token.keep_eq_nil (Or.inl hparen), List.append_nil]
        exact ⟨by rw [State.tokens, State.tokens, inorder, inorderAll],
          endsOperand_some hparen rfl⟩
      · obtain ⟨htokens, hafter⟩ := tokens_begin hT hs.last h
        refine ⟨?_, hafter⟩
        rw [htokens, expression, stackTokens_climb]
        rfl
    | complete e stack =>
      have hbefore : endsOperand ts.getLast? = true := hs.last
      rcases step_complete_eq_ok h with ⟨hparen, rfl⟩ | h
      · rw [Token.keep_of_leftParen hparen, hbefore, if_pos rfl]
        exact ⟨by simp only [State.tokens, List.append_assoc], endsOperand_some hparen rfl⟩
      · exact tokens_settle hT h
    | finished e =>
      obtain ⟨u, hu, heof⟩ := hs.last
      exact absurd heof (hts u (List.mem_of_mem_getLast? hu))
  obtain ⟨htokens, hafter⟩ := hnext
  refine ⟨?_, by rwa [List.getLast?_concat]⟩
  rw [htokens, hs.tokens, keptAfter_concat, Option.or_none]

theorem accounts_start : Accounts start [] := ⟨rfl, rfl⟩

/-- **All tokens**: the tree that is parsed holds what is kept of them. -/
theorem inorder_of_run (hT : T.Coherent) {last : Token} {ts : List Token}
    (hts : ∀ t ∈ ts, t.type ≠ .eof) {e : Expr} (h : (run T last start ts).result = .ok e) :
    e.inorder = keptAfter none (ts ++ [last]) := by
  have hstep : ∀ (s s' : State) (us : List Token), ∀ t ∈ ts,
      ((∀ u ∈ us, u.type ≠ .eof) ∧ Accounts s us) → step T t s = .ok s' →
      (∀ u ∈ us ++ [t], u.type ≠ .eof) ∧ Accounts s' (us ++ [t]) := by
    rintro s s' us t ht ⟨hseen, hs⟩ hok
    refine ⟨fun u hu => ?_, accounts_step hT hseen hs hok⟩
    rcases List.mem_append.mp hu with hu | hu
    · exact hseen u hu
    · exact List.mem_singleton.mp hu ▸ hts t ht
  obtain ⟨s, ⟨hseen, hs⟩, hfin⟩ := run_induct hstep start [] e ⟨by simp, accounts_start⟩ h
  exact (accounts_step hT hseen hs hfin).tokens

end Parser

/-- **The parser loses, doubles and moves no token.**  The tree of a list of tokens that ends with
its only token of type `eof` holds, in the order of the text, the tokens of the list without the
end, closing parentheses, commas and the parentheses that group. -/
theorem TokenStream.inorder_parse {T : Table} (hT : T.WellTyped) {s : TokenStream}
    (htokens : ∀ t ∈ s.tokens, t.type ≠ .eof) {e : Expr} (h : (s.parse T).1 = .ok e) :
    e.inorder = s.kept :=
  Parser.inorder_of_run hT.coherent htokens h

def callChain : TokenStream := (Scan.ofBytes 1 "f((a), -b)(c)").stream

theorem tokens_callChain : (Scan.ofBytes 1 "f((a), -b)(c)").stream =
    ⟨[⟨.identifier, "f", .none, ⟨1, 1⟩⟩, ⟨.leftParen, "(", .none, ⟨1, 2⟩⟩,
      ⟨.leftParen, "(", .none, ⟨1, 3⟩⟩, ⟨.identifier, "a", .none, ⟨1, 4⟩⟩,
      ⟨.rightParen, ")", .none, ⟨1, 5⟩⟩, ⟨.comma, ",", .none, ⟨1, 6⟩⟩,
      ⟨.op .minus, "-", .none, ⟨1, 8⟩⟩, ⟨.identifier, "b", .none, ⟨1, 9⟩⟩,
      ⟨.rightParen, ")", .none, ⟨1, 10⟩⟩, ⟨.leftParen, "(", .none, ⟨1, 11⟩⟩,
      ⟨.identifier, "c", .none, ⟨1, 12⟩⟩, ⟨.rightParen, ")", .none, ⟨1, 13⟩⟩],
      ⟨.eof, [], .none, ⟨1, 14⟩⟩⟩ := by
  decide +kernel

/-- Of the parentheses of `f((a), -b)(c)`, the tree holds the two that begin the arguments of a
call. -/
theorem TokenStream.inorder_callChain : Table.standard.WellTyped ∧
    (∀ t ∈ callChain.tokens, t.type ≠ .eof) ∧
    ∃ e, (callChain.parse Table.standard).1 = .ok e ∧
      e.inorder.map (·.pos.column) = [1, 2, 4, 8, 9, 11, 12] := by
  have htokens : ∀ t ∈ callChain.tokens, t.type ≠ .eof := by
    rw [callChain, tokens_callChain]
    decide
  have hkept : callChain.kept.map (·.pos.column) = [1, 2, 4, 8, 9, 11, 12] := by
    rw [callChain, tokens_callChain]
    decide
  obtain ⟨e, hparse⟩ : ∃ e, (callChain.parse Table.standard).1 = .ok e := by
    rw [callChain, tokens_callChain]
    exact ⟨_, rfl⟩
  refine ⟨Table.standard_wellTyped, htokens, e, hparse, ?_⟩
  rw [TokenStream.inorder_parse Table.standard_wellTyped htokens hparse, hkept]

end Fixity
