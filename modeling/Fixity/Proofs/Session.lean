import Fixity.Proofs.Config
import Fixity.Proofs.Parse.Agreement
import Mathlib.Data.List.Chain

/-!
# Successive calls of one parser

A parser can be called again after it has given a tree or reported an error; it goes on at the
place where it is.  Whatever the tokens, each call ends, looks at no token behind the end and at
none before the first, and does not go back (`Descent.successive_calls`).  Once a tree was given,
all further calls are refused at the end.
-/

namespace Fixity

def TokenStream.drop (s : TokenStream) (c : Nat) : TokenStream :=
  { s with tokens := s.tokens.drop c }

namespace Descent

open Fixity.Parser

def Reader.start : Reader := ⟨0, [], []⟩

structure Call where
  before : Reader
  tree : Option Expr
  after : Reader

/-- So many calls, one after the other.  There is no session if one of them does not end or looks
for a token that is not there. -/
def session (p : Input) : Nat → Reader → Option (List Call)
  | 0, _ => some []
  | n + 1, r =>
    match p.parse.run.run r with
    | some (.ok tree, r') => (session p n r').map (⟨r, tree, r'⟩ :: ·)
    | _ => none

/-- The call gives the tree that the parser gives, reports nothing and comes to the end. -/
structure Call.Succeeds (p : Input) (s : TokenStream) (call : Call) (e : Expr) : Prop where
  tree : call.tree = some e
  reports : call.after.reports = call.before.reports
  cursor : call.after.cursor = s.tokens.length
  parse : (s.drop call.before.cursor).parse p.table = (.ok e, s.drop call.after.cursor)

/-- The call gives no tree and reports the error of the parser, which is about the token at the
cursor or wraps an error about a node. -/
structure Call.Fails (p : Input) (s : TokenStream) (call : Call) (err : ParseError) : Prop where
  tree : call.tree = none
  reports : call.after.reports = call.before.reports ++ [err]
  token : ¬err.WrapsNode → p.tokens[call.after.cursor]? = some err.token
  parse : (s.drop call.before.cursor).parse p.table = (.error err, s.drop call.after.cursor)

structure Call.Fits (p : Input) (s : TokenStream) (call : Call) : Prop where
  inside : call.after.Inside s.tokens.length
  le : call.before.cursor ≤ call.after.cursor
  outcome : (∃ e, call.Succeeds p s e) ∨ ∃ err, call.Fails p s err

structure Call.Stuck (s : TokenStream) (call : Call) : Prop where
  before : call.before.cursor = s.tokens.length
  after : call.after.cursor = s.tokens.length
  tree : call.tree = none
  reports : call.after.reports = call.before.reports ++ [⟨s.last, .expectExpression⟩]

variable {T : Table} {p : Input} {s : TokenStream} {c : Nat}

/-- An error of the parser is about the first token that is left, or wraps one about a node. -/
theorem token_of_runAt {st : State} {err : ParseError} {d : Nat}
    (hrun : runAt T s st c = stopped s err d) (herr : ¬err.WrapsNode) : err.token = look s d := by
  unfold runAt stopped at hrun
  rw [look]
  generalize s.tokens.drop c = us at hrun
  generalize s.tokens.drop d = rest at hrun
  induction us generalizing st with
  | nil =>
    rw [run] at hrun
    split at hrun
    · cases hrun
    · obtain ⟨hres, rfl⟩ := Parser.Outcome.mk.inj hrun
      obtain rfl := Except.error.inj hres
      rfl
    · rename_i stop hstep
      obtain ⟨hres, rfl⟩ := Parser.Outcome.mk.inj hrun
      obtain rfl := Except.error.inj hres
      exact ((blames_step hstep).resolve_left herr).2
  | cons t us ih =>
    rw [run] at hrun
    split at hrun
    · exact ih hrun
    · rename_i stop hstep
      obtain ⟨hres, hrest⟩ := Parser.Outcome.mk.inj hrun
      obtain rfl := Except.error.inj hres
      obtain ⟨htaken, htoken⟩ := (blames_step hstep).resolve_left herr
      rw [htaken, if_neg Bool.false_ne_true] at hrest
      rw [← hrest]
      exact htoken

section calls

variable (h : TokenStream.ofList? p.tokens = some s)

include h

theorem ends_atEnd (hc : c ≤ s.tokens.length) (hcall : NoCall s c) (e : Expr) :
    Ends s.tokens.length
      (do
        if ← atEnd p.tokens then return e
        refuse (← peek p.tokens) .expectEnd) c
      (fun e' d => e' = e ∧ d = s.tokens.length ∧ completed p.table s e [] c = ⟨.ok e, []⟩)
      fun err d => completed p.table s e [] c = stopped s err d := by
  refine Gives.bind (gives_atEnd h hc) fun _ _ => ?_
  by_cases hend : c = s.tokens.length
  · rw [decide_eq_true hend]
    subst hend
    have heof := (exists_of_ofList? h).2.2
    refine .pure ⟨rfl, rfl, ?_⟩
    rw [completed, runAt, List.drop_length, run, step, if_neg (by simp [heof]), settle, if_pos heof]
  · rw [decide_eq_false hend]
    have hne : (look s c).type ≠ .eof := fun heof => hend ((look_type_eq_eof_iff h hc).mp heof)
    refine Gives.bind (gives_peek h hc) fun _ _ => .refuse (runAt_of_refused hc ?_)
    rw [step_complete hcall, settle, if_neg hne]
    rfl

theorem ends_whole (hT : p.table.unary? .eof = none) (hc : c ≤ s.tokens.length) :
    Ends s.tokens.length p.whole c
      (fun e d => d = s.tokens.length ∧ runAt p.table s start c = ⟨.ok e, []⟩)
      fun err d => runAt p.table s start c = stopped s err d := by
  refine Ends.bind ((rules h hT hc).binary _) (fun err d _ _ hstop => hstop []) ?_
  rintro e d - hd ⟨⟨-, hcall⟩, hrun⟩
  refine (ends_atEnd h hd hcall e).mono ?_ ?_
  · rintro e' d' - - ⟨rfl, rfl, hcompleted⟩
    exact ⟨rfl, (hrun []).trans hcompleted⟩
  · intro err d' _ _ hstop
    exact (hrun []).trans hstop

omit h in
theorem run_parse_of_ok {r r' : Reader} {e : Expr}
    (hrun : p.whole.run.run r = some (.ok e, r')) :
    p.parse.run.run r = some (.ok (some e), r') := by
  rw [Input.parse, ExceptT.run_tryCatch, StateT.run_bind, run_bind_of_ok hrun]
  rfl

omit h in
theorem run_parse_of_refused {r r' : Reader} {err : ParseError}
    (hrun : p.whole.run.run r = some (.error (.refused err), r')) :
    p.parse.run.run r = some (.ok none, { r' with reports := r'.reports ++ [err] }) := by
  rw [Input.parse, ExceptT.run_tryCatch, StateT.run_bind, run_bind_of_error hrun]
  rfl

omit h in
theorem parse_drop {r : Reader} {d : Nat} {x : Except ParseError Expr}
    (hrun : runAt T s start r.cursor = ⟨x, s.tokens.drop d⟩) :
    (s.drop r.cursor).parse T = (x, s.drop d) := by
  unfold runAt at hrun
  rw [TokenStream.parse, TokenStream.drop, hrun]
  rfl

/-- **A call does what the parser does** with the tokens that are left. -/
theorem exists_call (hT : p.table.unary? .eof = none) {r : Reader} (hr : r.Inside s.tokens.length) :
    ∃ tree r', p.parse.run.run r = some (.ok tree, r') ∧
      Call.Fits p s ⟨r, tree, r'⟩ := by
  obtain ⟨result, r', hrun, hinside, hreports, hle, hresult⟩ :=
    ends_whole h hT hr.cursor_le r rfl hr
  match result with
  | .ok e =>
    obtain ⟨hend, hparse⟩ := hresult
    refine ⟨some e, r', run_parse_of_ok hrun, hinside, hle,
      Or.inl ⟨e, rfl, hreports, hend, ?_⟩⟩
    rw [hend]
    exact parse_drop (hparse.trans (by rw [List.drop_length]))
  | .error (.refused err) =>
    refine ⟨none, { r' with reports := r'.reports ++ [err] }, run_parse_of_refused hrun,
      ⟨hinside.reads, hinside.cursor_le, hinside.le_cursor, hinside.forward⟩, hle,
      Or.inr ⟨err, rfl, congrArg (· ++ [err]) hreports, fun herr => ?_, ?_⟩⟩
    · rw [token_of_runAt hresult herr]
      exact getElem?_eq_look h hinside.cursor_le
    · exact parse_drop hresult
  | .error (.outside _) => exact hresult.elim

theorem Call.Fits.stuck {call : Call} (hfits : call.Fits p s)
    (hend : call.before.cursor = s.tokens.length) : call.Stuck s := by
  have hcursor : call.after.cursor = s.tokens.length :=
    Nat.le_antisymm hfits.inside.cursor_le (hend ▸ hfits.le)
  have hparse : (s.drop call.before.cursor).parse p.table =
      (.error ⟨s.last, .expectExpression⟩, s.drop call.after.cursor) := by
    refine parse_drop ?_
    rw [hend, hcursor]
    exact runAt_expect_end h _
  rcases hfits.outcome with ⟨e, he⟩ | ⟨err, herr⟩
  · rw [he.parse] at hparse
    cases (Prod.mk.inj hparse).1
  · rw [herr.parse] at hparse
    obtain rfl := Except.error.inj (Prod.mk.inj hparse).1
    exact ⟨hend, hcursor, herr.tree, herr.reports⟩

theorem exists_session (hT : p.table.unary? .eof = none) (n : Nat) {r : Reader}
    (hr : r.Inside s.tokens.length) : ∃ log, session p n r = some log ∧ log.length = n ∧
      (∀ call ∈ log.head?, call.before = r) ∧ log.IsChain (fun a b => b.before = a.after) ∧
      (∀ call ∈ log, call.Fits p s) ∧
      (r.cursor = s.tokens.length → ∀ call ∈ log, call.Stuck s) ∧
      log.Pairwise fun a b => a.tree.isSome → b.Stuck s := by
  induction n generalizing r with
  | zero => exact ⟨[], rfl, rfl, by simp, .nil, by simp, by simp, .nil⟩
  | succ n ih =>
    obtain ⟨tree, r', hrun, hfits⟩ := exists_call h hT hr
    obtain ⟨log, hlog, hlength, hhead, hchain, hall, hstuck, hpairwise⟩ := ih hfits.inside
    refine ⟨⟨r, tree, r'⟩ :: log, ?_, congrArg (· + 1) hlength, ?_, ?_, ?_, ?_, ?_⟩
    · rw [session, hrun]
      simp only [hlog, Option.map_some]
    · intro call hcall
      obtain rfl := Option.mem_some.mp hcall
      rfl
    · exact List.isChain_cons.mpr ⟨hhead, hchain⟩
    · exact List.forall_mem_cons.mpr ⟨hfits, hall⟩
    · intro hend
      have hfirst := hfits.stuck h hend
      exact List.forall_mem_cons.mpr ⟨hfirst, hstuck hfirst.after⟩
    · refine List.pairwise_cons.mpr ⟨fun call hcall htree => ?_, hpairwise⟩
      rcases hfits.outcome with ⟨e, he⟩ | ⟨err, herr⟩
      · exact hstuck he.cursor call hcall
      · rw [herr.tree] at htree
        cases htree

end calls

/-- **Successive calls are safe.**  Under a table without a prefix operator of the type of the end,
as all tables of configurations are, and for any list of tokens with an end, every number of calls
comes to an end and looks at no token outside the stream; each call goes on where the one before it
ended, and gives a tree or reports one error; and after a tree all calls are refused at the end. -/
theorem successive_calls :
    (∀ (c : Config) (T : Table), c.table = .ok T → T.unary? .eof = none) ∧
    ∀ (p : Input) (s : TokenStream), p.table.unary? .eof = none →
      TokenStream.ofList? p.tokens = some s → ∀ n, ∃ log, session p n .start = some log ∧
        log.length = n ∧ (∀ call ∈ log.head?, call.before = .start) ∧
        log.IsChain (fun a b => b.before = a.after) ∧ (∀ call ∈ log, call.Fits p s) ∧
        log.Pairwise fun a b => a.tree.isSome → b.Stuck s := by
  refine ⟨fun c T hc => ?_, fun p s hT h n => ?_⟩
  · exact (Config.wellTyped_of_table hc).coherent.unary?_eq_none rfl
  · have hstart : Reader.start.Inside s.tokens.length :=
      ⟨by simp [Reader.start], Nat.zero_le _, by simp [Reader.start], .nil⟩
    obtain ⟨log, hlog, hlength, hhead, hchain, hall, -, hpairwise⟩ := exists_session h hT n hstart
    exact ⟨log, hlog, hlength, hhead, hchain, hall, hpairwise⟩

/-! ### Two names side by side -/

theorem Call.Fits.of_parse {call : Call} (hfits : call.Fits p s) {x : Except ParseError Expr}
    {d : Nat} (hd : d ≤ s.tokens.length)
    (hparse : (s.drop call.before.cursor).parse p.table = (x, s.drop d)) :
    call.after.cursor = d ∧ call.tree = x.toOption := by
  have hcursor : ∀ {y : Except ParseError Expr},
      (s.drop call.before.cursor).parse p.table = (y, s.drop call.after.cursor) →
      call.after.cursor = d ∧ y = x := by
    intro y hy
    rw [hy] at hparse
    obtain ⟨hyx, hdrop⟩ := Prod.mk.inj hparse
    have hlength : (s.tokens.drop call.after.cursor).length = (s.tokens.drop d).length :=
      congrArg (·.tokens.length) hdrop
    rw [List.length_drop, List.length_drop] at hlength
    have hle := hfits.inside.cursor_le
    exact ⟨by omega, hyx⟩
  rcases hfits.outcome with ⟨e, he⟩ | ⟨err, herr⟩
  · obtain ⟨hd, rfl⟩ := hcursor he.parse
    exact ⟨hd, he.tree⟩
  · obtain ⟨hd, rfl⟩ := hcursor herr.parse
    exact ⟨hd, herr.tree⟩

def twoNames : List Token :=
  [⟨.identifier, "a", .none, ⟨1, 1⟩⟩, ⟨.identifier, "b", .none, ⟨1, 3⟩⟩, ⟨.eof, [], .none, ⟨1, 4⟩⟩]

/-- Of three calls on `a b`, the first reports the second name, the second gives it as a tree, and
the third is refused at the end. -/
theorem calls_twoNames : ∃ log, session ⟨.standard, twoNames⟩ 3 .start = some log ∧
    log.map (·.tree.isSome) = [false, true, false] ∧ log.map (·.after.cursor) = [1, 2, 2] := by
  obtain ⟨log, hlog, hlength, hhead, hchain, hall, hpairwise⟩ :=
    successive_calls.2 ⟨.standard, twoNames⟩ ⟨twoNames.take 2, ⟨.eof, [], .none, ⟨1, 4⟩⟩⟩
      (by decide) (by decide) 3
  obtain ⟨a, b, c, rfl⟩ := List.length_eq_three.mp hlength
  obtain ⟨ha, hall⟩ := List.forall_mem_cons.mp hall
  obtain ⟨hb, -⟩ := List.forall_mem_cons.mp hall
  obtain ⟨hbefore, hchain⟩ := List.isChain_cons_cons.mp hchain
  have hstart : a.before = .start := hhead a rfl
  have hfirst := ha.of_parse (d := 1) (by decide) (by rw [hstart]; rfl)
  have hsecond := hb.of_parse (d := 2) (by decide) (by rw [hbefore, hfirst.1]; rfl)
  have htree : b.tree.isSome := by rw [hsecond.2]; rfl
  have hthird := (List.pairwise_cons.mp (List.pairwise_cons.mp hpairwise).2).1 c (by simp) htree
  refine ⟨[a, b, c], hlog, ?_, ?_⟩
  · rw [List.map_cons, List.map_cons, List.map_singleton, hfirst.2, hsecond.2, hthird.tree]
    rfl
  · rw [List.map_cons, List.map_cons, List.map_singleton, hfirst.1, hsecond.1, hthird.after]
    rfl

end Descent

end Fixity
