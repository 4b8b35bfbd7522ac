import Fixity.Proofs.Parse.Descent

/-!
# The cursor follows the parser

Each rule of `Fixity.Descent`, read from a place, does what the parser does from the states in which
it waits for what the rule gives: if the rule gives an expression, the parser gets to the state
where that expression is complete, with the same tokens left, and if it is refused, so is the parser
(`Follows`).

A rule at a place uses rules at later places, and at the same place only such as stand before it in

    primary, operand, binary, climb, moreArguments, arguments

so all is proved by induction on the number of tokens left (`rules`).  The one thing that must not
be in the table is a prefix operator with the type of the end: it would be taken without being
passed, and there may be no token before it.
-/

namespace Fixity.Descent

open Fixity.Parser

variable {T : Table} {s : TokenStream} {c : Nat}

/-! ### The parser at a place -/

/-- What the parser does from a state at a place. -/
def runAt (T : Table) (s : TokenStream) (st : State) (c : Nat) : Parser.Outcome :=
  run T s.last st (s.tokens.drop c)

def stopped (s : TokenStream) (err : ParseError) (c : Nat) : Parser.Outcome :=
  ⟨.error err, s.tokens.drop c⟩

theorem runAt_of_ok (hc : c < s.tokens.length) {st st' : State}
    (hstep : step T (look s c) st = .ok st') : runAt T s st c = runAt T s st' (c + 1) := by
  rw [runAt, drop_eq hc, run, hstep]
  rfl

theorem runAt_of_refused (hc : c ≤ s.tokens.length) {st : State} {err : ParseError}
    (hstep : step T (look s c) st = .error ⟨err, false⟩) : runAt T s st c = stopped s err c := by
  rcases Nat.lt_or_eq_of_le hc with hlt | rfl
  · rw [runAt, drop_eq hlt, run, hstep, stopped, drop_eq hlt]
    rfl
  · rw [look_length] at hstep
    rw [runAt, List.drop_length, run, hstep, stopped, List.drop_length]

theorem runAt_of_taken (hc : c < s.tokens.length) {st : State} {err : ParseError}
    (hstep : step T (look s c) st = .error ⟨err, true⟩) :
    runAt T s st c = stopped s err (c + 1) := by
  rw [runAt, drop_eq hc, run, hstep]
  rfl

/-- States that do the same with the next token do the same with all tokens. -/
theorem runAt_congr (hc : c ≤ s.tokens.length) {st st' : State}
    (hstep : step T (look s c) st = step T (look s c) st') : runAt T s st c = runAt T s st' c := by
  rcases Nat.lt_or_eq_of_le hc with hlt | rfl
  · rw [runAt, runAt, drop_eq hlt, run, run, hstep]
  · rw [look_length] at hstep
    rw [runAt, runAt, List.drop_length, run, run, hstep]

def NoCall (s : TokenStream) (c : Nat) : Prop := (look s c).type ≠ .leftParen

theorem step_complete (hcall : NoCall s c) (e : Expr) (stack : List Frame) :
    step T (look s c) (.complete e stack) = settle T (look s c) e stack := by
  rw [step, if_neg hcall]

/-! ### What begins an operand -/

def literalTypes : List TokenType := [.number, .string, .trueWord, .falseWord, .nilWord]

section operand

variable {t : Token} (hunary : T.unary? t.type = none)

include hunary

theorem begin_of_literal (ht : t.type ∈ literalTypes) (stack : List Frame) :
    begin T stack t =
      (do let e ← taken (ParseError.ofNode t (Expr.newLiteral t)); return .complete e stack) := by
  unfold begin
  have htype : t.type = .number ∨ t.type = .string ∨ t.type = .trueWord ∨ t.type = .falseWord ∨
      t.type = .nilWord := by simpa [literalTypes] using ht
  rw [hunary]
  rcases htype with ht | ht | ht | ht | ht <;> rw [ht, if_neg (by simp)]

theorem begin_of_identifier (ht : t.type = .identifier) (stack : List Frame) :
    begin T stack t =
      (do let e ← taken (ParseError.ofNode t (Expr.newIdent t)); return .complete e stack) := by
  unfold begin
  rw [hunary, ht, if_neg (by simp)]

theorem begin_of_leftParen (ht : t.type = .leftParen) (stack : List Frame) :
    begin T stack t = .ok (.expect (expression (.group :: stack))) := by
  unfold begin
  rw [hunary, ht, if_neg (by simp)]

theorem begin_of_not_mem (hliteral : t.type ∉ literalTypes) (hname : t.type ∉ [.identifier])
    (hparen : t.type ∉ [.leftParen]) (stack : List Frame) :
    begin T stack t = stopAt t .expectExpression := by
  unfold begin
  rw [hunary]
  split
  · rfl
  · split <;> simp_all [literalTypes]

end operand

/-! ### Following the parser -/

/-- From a place on, the reading does what the parser does from the states `before stack`: of the
place where it ends, `P` holds, and the parser's outcome is `after`. -/
def Follows {α : Type} (T : Table) (s : TokenStream) (x : Reading α) (c : Nat)
    (before : List Frame → State) (P : Nat → Prop) (after : α → List Frame → Nat → Parser.Outcome) :
    Prop :=
  Ends s.tokens.length x c
    (fun a d => P d ∧ ∀ stack, runAt T s (before stack) c = after a stack d)
    fun err d => ∀ stack, runAt T s (before stack) c = stopped s err d

def completed (T : Table) (s : TokenStream) (e : Expr) (stack : List Frame) (c : Nat) :
    Parser.Outcome :=
  runAt T s (.complete e stack) c

def called (T : Table) (s : TokenStream) (paren : Token) (callee : Expr) (args : List Expr)
    (stack : List Frame) (c : Nat) : Parser.Outcome :=
  match ParseError.ofNode paren (Expr.newCall paren callee (args.map some)) with
  | .ok call => completed T s call stack c
  | .error err => stopped s err c

section follows

variable {α : Type} {before before' : List Frame → State} {P P' : Nat → Prop}
  {after after' : α → List Frame → Nat → Parser.Outcome}

/-- A reading of an expression goes on with another that waits for it. -/
theorem Follows.bind {x : Reading Expr} {f : Expr → Reading α} {w : List Frame → List Frame}
    (hx : Follows T s x c before P (completed T s))
    (hf : ∀ e d, c ≤ d → d ≤ s.tokens.length → P d →
      Follows T s (f e) d (fun stack => .complete e (w stack)) P' after) :
    Follows T s (x >>= f) c (fun stack => before (w stack)) P' after := by
  refine Ends.bind hx (fun err d _ _ h stack => h (w stack)) ?_
  rintro e d hle hd ⟨hP, hrun⟩
  refine (hf e d hle hd hP).mono ?_ ?_
  · rintro a d' - - ⟨hP', hrun'⟩
    exact ⟨hP', fun stack => (hrun (w stack)).trans (hrun' stack)⟩
  · intro err d' _ _ hrun' stack
    exact (hrun (w stack)).trans (hrun' stack)

theorem Follows.mono {x : Reading α} (hx : Follows T s x c before P after)
    (hP : ∀ d, c ≤ d → P d → P' d) : Follows T s x c before P' after :=
  Ends.mono hx (fun _ d hle _ h => ⟨hP d hle h.1, h.2⟩) fun _ _ _ _ h => h

theorem Follows.of_runAt {x : Reading α} {d : Nat} (hx : Follows T s x d before P after)
    (hrun : ∀ stack, runAt T s (before' stack) c = runAt T s (before stack) d) :
    Ends s.tokens.length x d
      (fun a d => P d ∧ ∀ stack, runAt T s (before' stack) c = after a stack d)
      fun err d => ∀ stack, runAt T s (before' stack) c = stopped s err d := by
  refine Ends.mono hx ?_ ?_
  · rintro a d - - ⟨hP, h⟩
    exact ⟨hP, fun stack => (hrun stack).trans (h stack)⟩
  · intro err d _ _ h stack
    exact (hrun stack).trans (h stack)

end follows

/-! ### The rules -/

/-- The rules at a place follow the parser. -/
structure Rules (p : Input) (s : TokenStream) (c : Nat) : Prop where
  binary : ∀ least, Follows p.table s (p.binary least) c
    (fun stack => .expect (.climb least :: stack)) (fun d => c < d ∧ NoCall s d)
    (completed p.table s)
  climb : 0 < c → NoCall s c → ∀ least e, Follows p.table s (p.climb least e) c
    (fun stack => .complete e (.climb least :: stack)) (NoCall s) (completed p.table s)
  calls : ∀ e, Follows p.table s (p.calls e) c (.complete e) (NoCall s) (completed p.table s)
  moreArguments : ∀ paren callee read, Follows p.table s (p.moreArguments read) c
    (fun stack => .expect (expression (.argument paren callee read :: stack)))
    (c < ·) (called p.table s paren callee)
  arguments : ∀ paren callee, Follows p.table s p.arguments c (.opened paren callee)
    (c < ·) (called p.table s paren callee)

section rules

variable {p : Input} (h : TokenStream.ofList? p.tokens = some s)

/-- A node that the parser makes when it takes the token. -/
theorem follows_taken (hc : c < s.tokens.length) {st : List Frame → State} {t : Token}
    {r : Except NodeError Expr} (hstep : ∀ stack, step T (look s c) (st stack) =
      (do let e ← taken (ParseError.ofNode t r); return .complete e stack)) :
    Ends s.tokens.length (made t r) (c + 1)
      (fun e d => c < d ∧ ∀ stack, runAt T s (st stack) c = completed T s e stack d)
      fun err d => ∀ stack, runAt T s (st stack) c = stopped s err d := by
  refine ends_made.mono ?_ ?_
  · rintro e d - - ⟨hr, rfl⟩
    refine ⟨Nat.lt_succ_self c, fun stack => runAt_of_ok hc ?_⟩
    rw [hstep, hr]
    rfl
  · rintro err d - - ⟨hr, rfl⟩ stack
    refine runAt_of_taken hc ?_
    rw [hstep, hr]
    rfl

/-- A node that the parser makes when it sees the token behind it. -/
theorem follows_untaken (hc : c ≤ s.tokens.length) {st : List Frame → State} {t : Token}
    {r : Except NodeError Expr} (hcall : NoCall s c)
    (hstep : ∀ stack, step T (look s c) (st stack) =
      (do let e ← untaken (ParseError.ofNode t r); settle T (look s c) e stack)) :
    Follows T s (made t r) c st (NoCall s) (completed T s) := by
  refine ends_made.mono ?_ ?_
  · rintro e d - - ⟨hr, rfl⟩
    refine ⟨hcall, fun stack => runAt_congr hc ?_⟩
    rw [hstep, hr, step_complete hcall]
    rfl
  · rintro err d - - ⟨hr, rfl⟩ stack
    refine runAt_of_refused hc ?_
    rw [hstep, hr]
    rfl

/-- A call that the parser makes when it takes the closing parenthesis. -/
theorem runAt_of_call (hc : c < s.tokens.length) {st : State} {paren : Token} {callee : Expr}
    {args : List Expr} {stack : List Frame} (hstep : step T (look s c) st =
      (do
        let call ← taken (ParseError.ofNode paren (Expr.newCall paren callee (args.map some)))
        return .complete call stack)) :
    runAt T s st c = called T s paren callee args stack (c + 1) := by
  unfold called
  cases hr : ParseError.ofNode paren (Expr.newCall paren callee (args.map some)) with
  | ok call =>
    refine runAt_of_ok hc ?_
    rw [hstep, hr]
    rfl
  | error err =>
    refine runAt_of_taken hc ?_
    rw [hstep, hr]
    rfl

include h

theorem follows_group {b : Nat} (hb : b ≤ c) (hc : c ≤ s.tokens.length) (hcall : NoCall s c)
    (e : Expr) : Follows p.table s (do consume p.tokens .rightParen .unclosedGroup; return e) c
      (fun stack => .complete e (.group :: stack)) (b < ·) (completed p.table s) := by
  refine Ends.bind (ends_consume h (by simp) hc) ?_ ?_
  · rintro err d - - ⟨htype, rfl, rfl⟩ stack
    refine runAt_of_refused hc ?_
    rw [step_complete hcall, settle, if_neg htype]
    rfl
  · rintro _ d - - ⟨htype, rfl⟩
    have hlt := lt_length_of_type h (by simp) hc htype
    refine .pure ⟨Nat.lt_succ_of_le hb, fun stack => runAt_of_ok hlt ?_⟩
    rw [step_complete hcall, settle, if_pos htype]

theorem follows_primary (hc : c ≤ s.tokens.length)
    (ih : ∀ d, c < d → d ≤ s.tokens.length → Rules p s d)
    (hunary : p.table.unary? (look s c).type = none) :
    Follows p.table s p.primary c .expect (c < ·) (completed p.table s) := by
  rw [Input.primary]
  refine ends_accept_bind h (by decide) hc (fun hliteral hlt => ?_) fun hliteral => ?_
  · refine Gives.bind (gives_previous h hlt) fun _ _ => follows_taken hlt fun stack => ?_
    exact begin_of_literal hunary hliteral stack
  refine ends_accept_bind h (by decide) hc (fun hname hlt => ?_) fun hname => ?_
  · refine Gives.bind (gives_previous h hlt) fun _ _ => follows_taken hlt fun stack => ?_
    exact begin_of_identifier hunary (List.mem_singleton.mp hname) stack
  refine ends_accept_bind h (by decide) hc (fun hparen hlt => ?_) fun hparen => ?_
  · have hinner := Follows.bind
      (f := fun e => do consume p.tokens .rightParen .unclosedGroup; return e)
      (w := fun stack => .group :: stack)
      ((ih (c + 1) (Nat.lt_succ_self c) hlt).binary (Precedence.lowest + 1))
      fun e d _ hd hP => follows_group h (Nat.lt_of_succ_lt hP.1).le hd hP.2 e
    refine hinner.of_runAt fun stack => runAt_of_ok hlt ?_
    exact begin_of_leftParen hunary (List.mem_singleton.mp hparen) stack
  refine Gives.bind (gives_peek h hc) fun _ _ => .refuse fun stack => runAt_of_refused hc ?_
  exact begin_of_not_mem hunary hliteral hname hparen stack

theorem follows_operand (hc : c ≤ s.tokens.length)
    (ih : ∀ d, c < d → d ≤ s.tokens.length → Rules p s d) (hT : p.table.unary? .eof = none) :
    Follows p.table s p.operand c .expect (fun d => c < d ∧ NoCall s d) (completed p.table s) := by
  rw [Input.operand]
  refine Gives.bind (gives_peek h hc) fun _ _ => ?_
  cases hunary : p.table.unary? (look s c).type with
  | none =>
    refine (follows_primary h hc ih hunary).bind (w := id) fun e d _ hd hlt => ?_
    exact ((ih d hlt hd).calls e).mono fun d' hle hcall => ⟨Nat.lt_of_lt_of_le hlt hle, hcall⟩
  | some op =>
    have hlt : c < s.tokens.length := by
      refine Nat.lt_of_le_of_ne hc fun hend => ?_
      rw [(look_type_eq_eof_iff h hc).mpr hend, hT] at hunary
      cases hunary
    have hinner : Follows p.table s
        (do let e ← p.binary op.precedence; made (look s c) (Expr.newUnary (look s c) e)) (c + 1)
        (fun stack => .expect (.climb op.precedence :: .operand (look s c) :: stack))
        (fun d => c < d ∧ NoCall s d) (completed p.table s) := by
      refine ((ih (c + 1) (Nat.lt_succ_self c) hlt).binary op.precedence).bind
        (w := fun stack => .operand (look s c) :: stack) fun e d _ hd hP => ?_
      have hmade : Follows p.table s (made (look s c) (Expr.newUnary (look s c) e)) d
          (fun stack => .complete e (.operand (look s c) :: stack)) (NoCall s)
          (completed p.table s) := by
        refine follows_untaken hd hP.2 fun stack => ?_
        rw [step_complete hP.2, settle]
      exact hmade.mono fun d' hle hcall => ⟨Nat.lt_of_lt_of_le (Nat.lt_of_succ_lt hP.1) hle, hcall⟩
    refine Gives.bind (gives_advance h hlt) fun _ _ => hinner.of_runAt fun stack => ?_
    refine runAt_of_ok hlt ?_
    rw [step, begin, if_neg (look_type_ne_eof h hlt), hunary]

theorem follows_binary (hc : c ≤ s.tokens.length)
    (ih : ∀ d, c < d → d ≤ s.tokens.length → Rules p s d) (hT : p.table.unary? .eof = none)
    (least : Int) : Follows p.table s (p.binary least) c
      (fun stack => .expect (.climb least :: stack)) (fun d => c < d ∧ NoCall s d)
      (completed p.table s) := by
  rw [Input.binary]
  refine (follows_operand h hc ih hT).bind (w := fun stack => .climb least :: stack)
    fun e d _ hd hP => ?_
  exact ((ih d hP.1 hd).climb (Nat.zero_lt_of_lt hP.1) hP.2 least e).mono
    fun d' hle hcall => ⟨Nat.lt_of_lt_of_le hP.1 hle, hcall⟩

theorem follows_calls (hc : c ≤ s.tokens.length)
    (ih : ∀ d, c < d → d ≤ s.tokens.length → Rules p s d) (callee : Expr) :
    Follows p.table s (p.calls callee) c (.complete callee) (NoCall s) (completed p.table s) := by
  rw [Input.calls]
  refine ends_accept_bind h (by decide) hc (fun hparen hlt => ?_) fun hparen => .pure ?_
  · refine Gives.bind (gives_previous h hlt) fun _ _ => ?_
    have hrun : ∀ stack, runAt p.table s (.complete callee stack) c =
        runAt p.table s (.opened (look s c) callee stack) (c + 1) := by
      intro stack
      refine runAt_of_ok hlt ?_
      rw [step, if_pos (List.mem_singleton.mp hparen)]
    refine Ends.bind ((ih (c + 1) (Nat.lt_succ_self c) hlt).arguments (look s c) callee) ?_ ?_
    · intro err d _ _ hstop stack
      exact (hrun stack).trans (hstop stack)
    rintro args d - hd ⟨hlt', hcalled⟩
    have hcall : ∀ r, ParseError.ofNode (look s c)
        (Expr.newCall (look s c) callee (args.map some)) = r → ∀ stack,
        runAt p.table s (.complete callee stack) c = match r with
          | .ok call => completed p.table s call stack d
          | .error err => stopped s err d := by
      rintro r rfl stack
      exact (hrun stack).trans (hcalled stack)
    refine Ends.bind ends_made ?_ ?_
    · rintro err d' - - ⟨hr, rfl⟩
      exact hcall _ hr
    · rintro call d' - - ⟨hr, rfl⟩
      exact ((ih d' (Nat.lt_of_succ_lt hlt') hd).calls call).of_runAt (hcall _ hr)
  · exact ⟨fun hcall => hparen (List.mem_singleton.mpr hcall), fun _ => rfl⟩

theorem follows_moreArguments (hc : c ≤ s.tokens.length)
    (ih : ∀ d, c < d → d ≤ s.tokens.length → Rules p s d) (hT : p.table.unary? .eof = none)
    (paren : Token) (callee : Expr) (read : List Expr) :
    Follows p.table s (p.moreArguments read) c
      (fun stack => .expect (expression (.argument paren callee read :: stack)))
      (c < ·) (called p.table s paren callee) := by
  rw [Input.moreArguments]
  refine (follows_binary h hc ih hT _).bind
    (w := fun stack => .argument paren callee read :: stack) fun e d _ hd hP => ?_
  refine ends_accept_bind h (by decide) hd (fun hcomma hlt => ?_) fun hcomma => ?_
  · have hd' : c < d + 1 := Nat.lt_succ_of_lt hP.1
    have hmore := ((ih (d + 1) hd' hlt).moreArguments paren callee (e :: read)).mono
      fun d' _ hlt' => hd'.trans hlt'
    refine hmore.of_runAt fun stack => runAt_of_ok hlt ?_
    rw [step_complete hP.2, settle, List.mem_singleton.mp hcomma]
  · have hcomma : (look s d).type ≠ .comma := fun htype => hcomma (List.mem_singleton.mpr htype)
    refine Ends.bind (ends_consume h (by simp) hd) ?_ ?_
    · rintro err d' - - ⟨htype, rfl, rfl⟩ stack
      refine runAt_of_refused hd ?_
      rw [step_complete hP.2, settle]
      split
      · contradiction
      · contradiction
      · rfl
    · rintro _ d' - - ⟨htype, rfl⟩
      have hlt := lt_length_of_type h (by simp) hd htype
      refine .pure ⟨Nat.lt_succ_of_lt hP.1, fun stack => runAt_of_call hlt ?_⟩
      rw [step_complete hP.2, settle, htype]

theorem follows_arguments (hc : c ≤ s.tokens.length)
    (ih : ∀ d, c < d → d ≤ s.tokens.length → Rules p s d) (hT : p.table.unary? .eof = none)
    (paren : Token) (callee : Expr) : Follows p.table s p.arguments c (.opened paren callee)
      (c < ·) (called p.table s paren callee) := by
  rw [Input.arguments]
  refine ends_accept_bind h (by decide) hc (fun hclose hlt => .pure ?_) fun hclose => ?_
  · refine ⟨Nat.lt_succ_self c, fun stack => runAt_of_call hlt ?_⟩
    rw [step, if_pos (List.mem_singleton.mp hclose)]
    rfl
  · refine (follows_moreArguments h hc ih hT paren callee []).of_runAt fun stack => ?_
    exact runAt_congr hc (if_neg fun htype => hclose (List.mem_singleton.mpr htype))

theorem runAt_expect_end (stack : List Frame) : runAt p.table s (.expect stack) s.tokens.length =
    stopped s ⟨s.last, .expectExpression⟩ s.tokens.length := by
  refine runAt_of_refused (Nat.le_refl _) ?_
  rw [look_length, step, begin, if_pos (exists_of_ofList? h).2.2]
  rfl

theorem follows_right (hc : c ≤ s.tokens.length) (hcall : NoCall s c) {op : BinaryOp} {t : Token}
    {left right : Expr} {least : Int}
    (hclimb : ∀ e, Follows p.table s (p.climb least e) c
      (fun stack => .complete e (.climb least :: stack)) (NoCall s) (completed p.table s)) :
    Follows p.table s
      (do
        let e ← made t (Expr.newBinary op.builder t left right)
        checkNonAssoc p.table p.tokens op
        p.climb least e) c
      (fun stack => .complete right (.right op t left :: .climb least :: stack)) (NoCall s)
      (completed p.table s) := by
  refine Ends.bind ends_made ?_ ?_
  · rintro err d - - ⟨hr, rfl⟩ stack
    refine runAt_of_refused hc ?_
    rw [step_complete hcall, settle, hr]
    rfl
  rintro e d - - ⟨hr, rfl⟩
  have hright : ∀ stack, step p.table (look s d) (.complete right (.right op t left :: stack)) =
      (do Parser.checkNonAssoc p.table op (look s d); settle p.table (look s d) e stack) := by
    intro stack
    rw [step_complete hcall, settle, hr]
    rfl
  refine Ends.bind (ends_checkNonAssoc h hc) ?_ ?_
  · rintro err d - - ⟨hcheck, rfl⟩ stack
    refine runAt_of_refused hc ?_
    rw [hright, hcheck]
    rfl
  · rintro _ d - - ⟨hcheck, rfl⟩
    refine (hclimb e).of_runAt fun stack => runAt_congr hc ?_
    rw [hright, hcheck, step_complete hcall]
    rfl

/-- An operator that binds tightly enough is taken, and its right operand is read.  If it has the
type of the end, it is not passed, and no operand begins there. -/
theorem follows_operator (hc : c ≤ s.tokens.length)
    (ih : ∀ d, c < d → d ≤ s.tokens.length → Rules p s d) (hT : p.table.unary? .eof = none)
    (hstart : 0 < c) (hcall : NoCall s c) {least : Int} {op : BinaryOp}
    (hop : p.table.binary? (look s c).type = some op) (hleast : least ≤ op.precedence)
    (left : Expr) :
    Follows p.table s
      (do
        let t ← advance p.tokens
        let right ← p.binary (rightLeast op)
        let e ← made t (Expr.newBinary op.builder t left right)
        checkNonAssoc p.table p.tokens op
        p.climb least e) c
      (fun stack => .complete left (.climb least :: stack)) (NoCall s) (completed p.table s) := by
  rcases Nat.lt_or_eq_of_le hc with hlt | rfl
  · have hinner : Follows p.table s
        (do
          let right ← p.binary (rightLeast op)
          let e ← made (look s c) (Expr.newBinary op.builder (look s c) left right)
          checkNonAssoc p.table p.tokens op
          p.climb least e) (c + 1)
        (fun stack => .expect (.climb (rightLeast op) :: .right op (look s c) left ::
          .climb least :: stack)) (NoCall s) (completed p.table s) := by
      refine ((ih (c + 1) (Nat.lt_succ_self c) hlt).binary (rightLeast op)).bind
        (w := fun stack => .right op (look s c) left :: .climb least :: stack)
        fun right d _ hd hP => ?_
      have hlt' : c < d := Nat.lt_of_succ_lt hP.1
      exact follows_right h hd hP.2 ((ih d hlt' hd).climb (Nat.zero_lt_of_lt hlt') hP.2 least)
    refine Gives.bind (gives_advance h hlt) fun _ _ => hinner.of_runAt fun stack => ?_
    refine runAt_of_ok hlt ?_
    rw [step_complete hcall, settle_climb_of_le hop hleast (look_type_ne_eof h hlt)]
  · obtain ⟨n, hn⟩ := Nat.exists_eq_add_one_of_ne_zero (Nat.ne_of_gt hstart)
    have hadvance := gives_advance_end h hn.symm
    rw [← hn] at hadvance
    refine Gives.bind hadvance fun _ _ => ?_
    refine Ends.bind (follows_binary h hc ih hT (rightLeast op)) ?_ ?_
    · intro err d _ _ hstop stack
      rw [← hstop [], runAt_expect_end h]
      refine runAt_of_refused hc ?_
      rw [step_complete hcall, settle, hop]
      simp only [if_neg (Int.not_lt.mpr hleast), look_length, if_pos (exists_of_ofList? h).2.2]
      rfl
    · rintro right d - hd ⟨⟨hlt, -⟩, -⟩
      exact absurd hlt (Nat.not_lt.mpr hd)

theorem follows_climb (hc : c ≤ s.tokens.length)
    (ih : ∀ d, c < d → d ≤ s.tokens.length → Rules p s d) (hT : p.table.unary? .eof = none)
    (hstart : 0 < c) (hcall : NoCall s c) (least : Int) (left : Expr) :
    Follows p.table s (p.climb least left) c (fun stack => .complete left (.climb least :: stack))
      (NoCall s) (completed p.table s) := by
  -- without an operator that binds tightly enough, the left operand is all there is
  have hpass : (∀ op, p.table.binary? (look s c).type = some op → op.precedence < least) →
      Follows p.table s (pure left) c (fun stack => .complete left (.climb least :: stack))
        (NoCall s) (completed p.table s) := by
    intro hless
    refine .pure ⟨hcall, fun stack => runAt_congr hc ?_⟩
    rw [step_complete hcall, step_complete hcall, settle_climb hless]
  rw [Input.climb]
  refine Gives.bind (gives_peek h hc) fun _ _ => ?_
  cases hop : p.table.binary? (look s c).type with
  | none => exact hpass (by simp [hop])
  | some op =>
    simp only
    by_cases hless : op.precedence < least
    · rw [if_pos hless]
      refine hpass fun op' hop' => ?_
      obtain rfl := Option.some.inj (hop.symm.trans hop')
      exact hless
    · rw [if_neg hless]
      exact follows_operator h hc ih hT hstart hcall hop (Int.not_lt.mp hless) left

/-- **All rules follow the parser**, from every place. -/
theorem rules (hT : p.table.unary? .eof = none) (hc : c ≤ s.tokens.length) : Rules p s c := by
  induction hn : s.tokens.length - c using Nat.strongRecOn generalizing c with
  | ind n ihn =>
    have ih : ∀ d, c < d → d ≤ s.tokens.length → Rules p s d :=
      fun d hlt hd => ihn (s.tokens.length - d) (by omega) hd rfl
    exact
      { binary := follows_binary h hc ih hT
        climb := follows_climb h hc ih hT
        calls := follows_calls h hc ih
        moreArguments := follows_moreArguments h hc ih hT
        arguments := follows_arguments h hc ih hT }

end rules

end Fixity.Descent
