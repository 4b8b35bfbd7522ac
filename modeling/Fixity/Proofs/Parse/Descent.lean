import Fixity.Proofs.FirstError

/-!
# Parsing with a cursor

The grammar of `Fixity.Parse` once more, read by one function for each of its rules.  The functions
share a cursor in the list of tokens, look at the token there and at the one before, and never ask
how many tokens there are: that they stay inside the list, that they end at all, and that they do
what the parser does is proved in `Fixity.Proofs.Parse.Agreement`.

A `Reader` keeps the cursor, all places that were looked at, and the errors that were reported.  A
token that is not there halts the reading, and so does an error.

`Ends` says what a reading does from a place: it ends, looks at no place outside, does not go back,
and gives what it should or is refused as it should.  Readings one after the other are put together
by `Ends.bind`.
-/

namespace Fixity.Descent

open Fixity.Parser

inductive Halt where
  | refused (error : ParseError)
  /-- There is no token at the place. -/
  | outside (place : Int)

structure Reader where
  cursor : Nat
  /-- The places that were looked at, each after the cursor at that time. -/
  reads : List (Nat × Int)
  reports : List ParseError

/-- A reading, which may halt, or go on forever. -/
abbrev Reading := ExceptT Halt (StateT Reader Option)

/-! ### One token -/

section tokens

variable (ts : List Token)

def tokenAt (place : Int) : Reading Token := do
  modify fun r => { r with reads := r.reads ++ [(r.cursor, place)] }
  match if place < 0 then none else ts[place.toNat]? with
  | some t => return t
  | none => throw (.outside place)

def peek : Reading Token := do tokenAt ts (← get).cursor

def previous : Reading Token := do tokenAt ts ((← get).cursor - 1)

def atEnd : Reading Bool := return (← peek ts).type == .eof

/-- Takes the token at the cursor, unless it is the end. -/
def advance : Reading Token := do
  unless ← atEnd ts do
    modify fun r => { r with cursor := r.cursor + 1 }
  previous ts

def check (type : TokenType) : Reading Bool := do
  if ← atEnd ts then return false
  return (← peek ts).type == type

/-- Takes the token at the cursor if it has one of the types. -/
def accept : List TokenType → Reading Bool
  | [] => return false
  | type :: types => do
    if ← check ts type then
      let _ ← advance ts
      return true
    accept types

def refuse {α : Type} (t : Token) (fault : ParseFault) : Reading α := throw (.refused ⟨t, fault⟩)

def consume (type : TokenType) (fault : ParseFault) : Reading Unit := do
  if ← check ts type then
    let _ ← advance ts
  else
    refuse (← peek ts) fault

end tokens

def made (t : Token) (r : Except NodeError Expr) : Reading Expr :=
  match ParseError.ofNode t r with
  | .ok e => return e
  | .error error => throw (.refused error)

def checkNonAssoc (T : Table) (ts : List Token) (op : BinaryOp) : Reading Unit := do
  if op.assoc = .none then
    match T.binary? (← peek ts).type with
    | some other =>
      if other.precedence = op.precedence then
        refuse (← peek ts) (.nonAssociative other.type)
    | none => return ()

/-! ### The rules -/

/-- What is read, and the table by which it is read. -/
structure Input where
  table : Table
  tokens : List Token

mutual

/-- Operands with operators of at least the precedence between them. -/
def Input.binary (p : Input) (least : Int) : Reading Expr := do
  let e ← p |>.operand
  p |>.climb least e
partial_fixpoint

/-- Operators of at least the precedence, each with its right operand, after the left operand of the
first. -/
def Input.climb (p : Input) (least : Int) (left : Expr) : Reading Expr := do
  match p.table.binary? (← peek p.tokens).type with
  | none => return left
  | some op =>
    if op.precedence < least then return left
    let t ← advance p.tokens
    let right ← p |>.binary (rightLeast op)
    let e ← made t (Expr.newBinary op.builder t left right)
    checkNonAssoc p.table p.tokens op
    p |>.climb least e
partial_fixpoint

def Input.operand (p : Input) : Reading Expr := do
  match p.table.unary? (← peek p.tokens).type with
  | none =>
    let e ← p |>.primary
    p |>.calls e
  | some op =>
    let t ← advance p.tokens
    let e ← p |>.binary op.precedence
    made t (Expr.newUnary t e)
partial_fixpoint

def Input.calls (p : Input) (callee : Expr) : Reading Expr := do
  if ← accept p.tokens [.leftParen] then
    let paren ← previous p.tokens
    let args ← p |>.arguments
    let call ← made paren (Expr.newCall paren callee (args.map some))
    p |>.calls call
  else return callee
partial_fixpoint

def Input.arguments (p : Input) : Reading (List Expr) := do
  if ← accept p.tokens [.rightParen] then return []
  p |>.moreArguments []
partial_fixpoint

/-- The arguments after those already read, the last one first. -/
def Input.moreArguments (p : Input) (read : List Expr) : Reading (List Expr) := do
  let e ← p |>.binary (Precedence.lowest + 1)
  if ← accept p.tokens [.comma] then p |>.moreArguments (e :: read)
  else
    consume p.tokens .rightParen .unclosedArguments
    return (e :: read).reverse
partial_fixpoint

def Input.primary (p : Input) : Reading Expr := do
  if ← accept p.tokens [.number, .string, .trueWord, .falseWord, .nilWord] then
    let t ← previous p.tokens
    made t (Expr.newLiteral t)
  else if ← accept p.tokens [.identifier] then
    let t ← previous p.tokens
    made t (Expr.newIdent t)
  else if ← accept p.tokens [.leftParen] then
    let e ← p |>.binary (Precedence.lowest + 1)
    consume p.tokens .rightParen .unclosedGroup
    return e
  else refuse (← peek p.tokens) .expectExpression
partial_fixpoint

end

def Input.whole (p : Input) : Reading Expr := do
  let e ← p.binary (Precedence.lowest + 1)
  if ← atEnd p.tokens then return e
  refuse (← peek p.tokens) .expectEnd

def report (error : ParseError) : Reading (Option Expr) := do
  modify fun r => { r with reports := r.reports ++ [error] }
  return none

def Input.parse (p : Input) : Reading (Option Expr) :=
  tryCatch (do let e ← p.whole; return some e) fun
    | .refused error => report error
    | halt => throw halt

/-! ### The tokens of a stream -/

def look (s : TokenStream) (c : Nat) : Token := (s.tokens.drop c).headD s.last

variable {ts : List Token} {s : TokenStream}

theorem look_length (s : TokenStream) : look s s.tokens.length = s.last := by
  rw [look, List.drop_length]
  rfl

theorem drop_eq {c : Nat} (hc : c < s.tokens.length) :
    s.tokens.drop c = look s c :: s.tokens.drop (c + 1) := by
  rw [look, List.drop_eq_getElem_cons hc]
  rfl

/-- The list begins with the tokens of the stream, none of which is the end, and the end. -/
theorem exists_of_ofList? (h : TokenStream.ofList? ts = some s) : (∃ rest, ts = s.toList ++ rest) ∧
    (∀ t ∈ s.tokens, t.type ≠ .eof) ∧ s.last.type = .eof := by
  obtain ⟨last, hlast, rfl⟩ := Option.map_eq_some_iff.mp h
  rw [Lexeme.drop_length_takeWhile] at hlast
  have hsplit := List.takeWhile_append_dropWhile (p := (·.type != .eof)) (l := ts)
  have hend := List.head?_dropWhile_not (·.type != .eof) ts
  rw [hlast] at hend
  refine ⟨⟨(ts.dropWhile (·.type != .eof)).tail, ?_⟩, fun t ht => ?_, by simpa using hend⟩
  · rw [TokenStream.toList, List.append_assoc, List.singleton_append,
      List.cons_head?_tail hlast, hsplit]
  · simpa using List.mem_takeWhile_imp ht

theorem getElem?_eq_look (h : TokenStream.ofList? ts = some s) {c : Nat}
    (hc : c ≤ s.tokens.length) : ts[c]? = some (look s c) := by
  obtain ⟨⟨rest, rfl⟩, -, -⟩ := exists_of_ofList? h
  rw [TokenStream.toList, List.append_assoc]
  rcases Nat.lt_or_eq_of_le hc with hlt | rfl
  · rw [List.getElem?_append_left hlt, look, List.drop_eq_getElem_cons hlt,
      List.getElem?_eq_getElem hlt]
    rfl
  · rw [look_length, List.getElem?_append_right (Nat.le_refl _), Nat.sub_self]
    rfl

theorem look_type_ne_eof (h : TokenStream.ofList? ts = some s) {c : Nat}
    (hc : c < s.tokens.length) : (look s c).type ≠ .eof := by
  obtain ⟨-, htokens, -⟩ := exists_of_ofList? h
  rw [look, List.drop_eq_getElem_cons hc]
  exact htokens _ (List.getElem_mem hc)

theorem look_type_eq_eof_iff (h : TokenStream.ofList? ts = some s) {c : Nat}
    (hc : c ≤ s.tokens.length) : (look s c).type = .eof ↔ c = s.tokens.length := by
  constructor
  · intro heof
    by_contra hne
    exact look_type_ne_eof h (Nat.lt_of_le_of_ne hc hne) heof
  · rintro rfl
    rw [look_length]
    exact (exists_of_ofList? h).2.2

/-! ### What a reading does -/

/-- All places that were looked at lie among `m` tokens and the end, and so does the cursor, which
never went back. -/
structure Reader.Inside (m : Nat) (r : Reader) : Prop where
  reads : ∀ x ∈ r.reads, 0 ≤ x.2 ∧ x.2 ≤ m
  cursor_le : r.cursor ≤ m
  le_cursor : ∀ x ∈ r.reads, x.1 ≤ r.cursor
  forward : r.reads.Pairwise fun x y => x.1 ≤ y.1

theorem Reader.Inside.read {m place : Nat} {r : Reader} (h : r.Inside m) (hplace : place ≤ m) :
    ({ r with reads := r.reads ++ [(r.cursor, (place : Int))] } : Reader).Inside m := by
  refine ⟨fun x hx => ?_, h.cursor_le, fun x hx => ?_, ?_⟩
  · rcases List.mem_append.mp hx with hx | hx
    · exact h.reads x hx
    · obtain rfl := List.mem_singleton.mp hx
      exact ⟨Int.natCast_nonneg place, Int.ofNat_le.mpr hplace⟩
  · rcases List.mem_append.mp hx with hx | hx
    · exact h.le_cursor x hx
    · obtain rfl := List.mem_singleton.mp hx
      exact Nat.le_refl _
  · refine List.pairwise_append.mpr ⟨h.forward, List.pairwise_singleton _ _, ?_⟩
    intro x hx y hy
    obtain rfl := List.mem_singleton.mp hy
    exact h.le_cursor x hx

theorem Reader.Inside.advance {m : Nat} {r : Reader} (h : r.Inside m) (hlt : r.cursor < m) :
    ({ r with cursor := r.cursor + 1 } : Reader).Inside m :=
  ⟨h.reads, hlt, fun x hx => Nat.le_succ_of_le (h.le_cursor x hx), h.forward⟩

/-- A reading from the place `c` ends, stays inside, does not go back and reports nothing.  Of its
value and where it ends, `ok` holds, and of its error and where it ends, `refused`. -/
def Ends {α : Type} (m : Nat) (x : Reading α) (c : Nat) (ok : α → Nat → Prop)
    (refused : ParseError → Nat → Prop) : Prop :=
  ∀ r : Reader, r.cursor = c → r.Inside m → ∃ result r', x.run.run r = some (result, r') ∧
    r'.Inside m ∧ r'.reports = r.reports ∧ c ≤ r'.cursor ∧
    match result with
    | .ok a => ok a r'.cursor
    | .error (.refused err) => refused err r'.cursor
    | .error (.outside _) => False

abbrev Gives {α : Type} (m : Nat) (x : Reading α) (c : Nat) (a : α) (c' : Nat) : Prop :=
  Ends m x c (fun b d => b = a ∧ d = c') fun _ _ => False

section ends

variable {α β : Type} {m c : Nat} {ok : α → Nat → Prop} {refused : ParseError → Nat → Prop}

theorem Ends.mono {x : Reading α} {ok' : α → Nat → Prop} {refused' : ParseError → Nat → Prop}
    (h : Ends m x c ok refused) (hok : ∀ a d, c ≤ d → d ≤ m → ok a d → ok' a d)
    (hrefused : ∀ err d, c ≤ d → d ≤ m → refused err d → refused' err d) :
    Ends m x c ok' refused' := by
  intro r hr hinside
  obtain ⟨result, r', hrun, hinside', hreports, hle, hresult⟩ := h r hr hinside
  refine ⟨result, r', hrun, hinside', hreports, hle, ?_⟩
  match result with
  | .ok a => exact hok a _ hle hinside'.cursor_le hresult
  | .error (.refused err) => exact hrefused err _ hle hinside'.cursor_le hresult
  | .error (.outside _) => exact hresult

theorem Ends.pure {a : α} (h : ok a c) : Ends m (pure a) c ok refused := by
  intro r hr hinside
  exact ⟨.ok a, r, rfl, hinside, rfl, hr.ge, hr ▸ h⟩

theorem Ends.refuse {t : Token} {fault : ParseFault} (h : refused ⟨t, fault⟩ c) :
    Ends m (Descent.refuse t fault) c ok refused := by
  intro r hr hinside
  exact ⟨.error (.refused ⟨t, fault⟩), r, rfl, hinside, rfl, hr.ge, hr ▸ h⟩

theorem run_bind_of_ok {x : Reading α} {f : α → Reading β} {r r' : Reader} {a : α}
    (h : x.run.run r = some (.ok a, r')) : (x >>= f).run.run r = (f a).run.run r' := by
  rw [ExceptT.run_bind, StateT.run_bind, h]
  rfl

theorem run_bind_of_error {x : Reading α} {f : α → Reading β} {r r' : Reader} {halt : Halt}
    (h : x.run.run r = some (.error halt, r')) : (x >>= f).run.run r = some (.error halt, r') := by
  rw [ExceptT.run_bind, StateT.run_bind, h]
  rfl

theorem Ends.bind {x : Reading α} {f : α → Reading β} {ok' : β → Nat → Prop}
    {refused' : ParseError → Nat → Prop} (h : Ends m x c ok refused)
    (hrefused : ∀ err d, c ≤ d → d ≤ m → refused err d → refused' err d)
    (hf : ∀ a d, c ≤ d → d ≤ m → ok a d → Ends m (f a) d ok' refused') :
    Ends m (x >>= f) c ok' refused' := by
  intro r hr hinside
  obtain ⟨result, r', hrun, hinside', hreports, hle, hresult⟩ := h r hr hinside
  match result with
  | .ok a =>
    obtain ⟨result', r'', hrun', hinside'', hreports', hle', hresult'⟩ :=
      hf a _ hle hinside'.cursor_le hresult r' rfl hinside'
    refine ⟨result', r'', ?_, hinside'', hreports'.trans hreports, hle.trans hle', hresult'⟩
    rw [run_bind_of_ok hrun]
    exact hrun'
  | .error (.refused err) =>
    exact ⟨.error (.refused err), r', run_bind_of_error hrun, hinside', hreports, hle,
      hrefused err _ hle hinside'.cursor_le hresult⟩
  | .error (.outside _) => exact hresult.elim

theorem Gives.bind {x : Reading α} {f : α → Reading β} {a : α} {c' : Nat} {ok' : β → Nat → Prop}
    {refused' : ParseError → Nat → Prop} (h : Gives m x c a c')
    (hf : c ≤ c' → c' ≤ m → Ends m (f a) c' ok' refused') : Ends m (x >>= f) c ok' refused' := by
  refine Ends.bind h (fun _ _ _ _ h => h.elim) ?_
  rintro b d hle hm ⟨rfl, rfl⟩
  exact hf hle hm

end ends

/-! ### What the readings of one token do -/

section tokens

variable {T : Table} {c : Nat} (h : TokenStream.ofList? ts = some s)

include h

theorem gives_tokenAt {place : Nat} (hplace : place ≤ s.tokens.length) :
    Gives s.tokens.length (tokenAt ts place) c (look s place) c := by
  intro r hr hinside
  refine ⟨.ok (look s place), _, ?_, hinside.read hplace, rfl, hr.ge, rfl, hr⟩
  have htoken : (if (place : Int) < 0 then none else ts[(place : Int).toNat]?) =
      some (look s place) := by
    rw [if_neg (by omega), Int.toNat_natCast, getElem?_eq_look h hplace]
  rw [tokenAt, htoken]
  rfl

theorem gives_peek (hc : c ≤ s.tokens.length) :
    Gives s.tokens.length (peek ts) c (look s c) c := by
  intro r hr hinside
  have hread := gives_tokenAt (c := c) h hc r hr hinside
  rwa [← hr] at hread ⊢

theorem gives_previous (hc : c + 1 ≤ s.tokens.length) :
    Gives s.tokens.length (previous ts) (c + 1) (look s c) (c + 1) := by
  intro r hr hinside
  have hread := gives_tokenAt (c := c + 1) h (Nat.le_of_succ_le hc) r hr hinside
  have hplace : (r.cursor : Int) - 1 = (c : Int) := by omega
  rwa [← hplace] at hread

theorem gives_atEnd (hc : c ≤ s.tokens.length) :
    Gives s.tokens.length (atEnd ts) c (decide (c = s.tokens.length)) c := by
  refine Gives.bind (gives_peek h hc) fun _ _ => .pure ⟨?_, rfl⟩
  rw [Bool.eq_iff_iff, beq_iff_eq, decide_eq_true_iff]
  exact look_type_eq_eof_iff h hc

theorem gives_advance (hc : c < s.tokens.length) :
    Gives s.tokens.length (advance ts) c (look s c) (c + 1) := by
  refine Gives.bind (gives_atEnd h hc.le) fun _ _ => ?_
  rw [decide_eq_false (Nat.ne_of_lt hc)]
  have hmove : Gives s.tokens.length
      (modify fun r => { r with cursor := r.cursor + 1 } : Reading PUnit) c ⟨⟩ (c + 1) := by
    intro r hr hinside
    exact ⟨.ok ⟨⟩, _, rfl, hinside.advance (hr ▸ hc), rfl, Nat.le_succ_of_le hr.ge, rfl,
      congrArg (· + 1) hr⟩
  exact hmove.bind fun _ _ => gives_previous h hc

theorem gives_advance_end {n : Nat} (hn : n + 1 = s.tokens.length) :
    Gives s.tokens.length (advance ts) (n + 1) (look s n) (n + 1) := by
  refine Gives.bind (gives_atEnd h hn.le) fun _ _ => ?_
  rw [decide_eq_true hn]
  exact gives_previous h hn.le

theorem gives_check {type : TokenType} (htype : type ≠ .eof) (hc : c ≤ s.tokens.length) :
    Gives s.tokens.length (check ts type) c ((look s c).type == type) c := by
  refine Gives.bind (gives_atEnd h hc) fun _ _ => ?_
  by_cases hend : c = s.tokens.length
  · have hne : ((look s c).type == type) = false := by
      rw [(look_type_eq_eof_iff h hc).mpr hend, beq_eq_false_iff_ne]
      exact htype.symm
    rw [decide_eq_true hend, hne]
    exact .pure ⟨rfl, rfl⟩
  · rw [decide_eq_false hend]
    exact Gives.bind (gives_peek h hc) fun _ _ => .pure ⟨rfl, rfl⟩

theorem lt_length_of_type {type : TokenType} (htype : type ≠ .eof) (hc : c ≤ s.tokens.length)
    (hlook : (look s c).type = type) : c < s.tokens.length := by
  refine Nat.lt_of_le_of_ne hc fun hend => htype ?_
  rw [← hlook]
  exact (look_type_eq_eof_iff h hc).mpr hend

theorem gives_accept_of_mem {types : List TokenType} (heof : .eof ∉ types)
    (hc : c ≤ s.tokens.length) (hmem : (look s c).type ∈ types) :
    Gives s.tokens.length (accept ts types) c true (c + 1) := by
  induction types with
  | nil => cases hmem
  | cons type types ih =>
    obtain ⟨htype, htypes⟩ := not_or.mp (mt List.mem_cons.mpr heof)
    rw [accept]
    refine Gives.bind (gives_check h (Ne.symm htype) hc) fun _ _ => ?_
    by_cases hlook : (look s c).type = type
    · rw [beq_iff_eq.mpr hlook, if_pos rfl]
      have hlt := lt_length_of_type h (Ne.symm htype) hc hlook
      exact Gives.bind (gives_advance h hlt) fun _ _ => .pure ⟨rfl, rfl⟩
    · rw [beq_eq_false_iff_ne.mpr hlook, if_neg Bool.false_ne_true]
      exact ih htypes ((List.mem_cons.mp hmem).resolve_left hlook)

theorem gives_accept_of_not_mem {types : List TokenType} (heof : .eof ∉ types)
    (hc : c ≤ s.tokens.length) (hmem : (look s c).type ∉ types) :
    Gives s.tokens.length (accept ts types) c false c := by
  induction types with
  | nil => exact .pure ⟨rfl, rfl⟩
  | cons type types ih =>
    obtain ⟨htype, htypes⟩ := not_or.mp (mt List.mem_cons.mpr heof)
    obtain ⟨hlook, hmem⟩ := not_or.mp (mt List.mem_cons.mpr hmem)
    rw [accept]
    refine Gives.bind (gives_check h (Ne.symm htype) hc) fun _ _ => ?_
    rw [beq_eq_false_iff_ne.mpr hlook, if_neg Bool.false_ne_true]
    exact ih htypes hmem

/-- A reading that goes on by whether the token at the cursor has one of the types. -/
theorem ends_accept_bind {α : Type} {types : List TokenType} {f : Bool → Reading α}
    {ok : α → Nat → Prop} {refused : ParseError → Nat → Prop} (heof : .eof ∉ types)
    (hc : c ≤ s.tokens.length)
    (htake : (look s c).type ∈ types → c < s.tokens.length →
      Ends s.tokens.length (f true) (c + 1) ok refused)
    (hleave : (look s c).type ∉ types → Ends s.tokens.length (f false) c ok refused) :
    Ends s.tokens.length (accept ts types >>= f) c ok refused := by
  by_cases hmem : (look s c).type ∈ types
  · have hlt : c < s.tokens.length :=
      lt_length_of_type h (fun htype => heof (htype ▸ hmem)) hc rfl
    exact Gives.bind (gives_accept_of_mem h heof hc hmem) fun _ _ => htake hmem hlt
  · exact Gives.bind (gives_accept_of_not_mem h heof hc hmem) fun _ _ => hleave hmem

theorem ends_consume {type : TokenType} {fault : ParseFault} (htype : type ≠ .eof)
    (hc : c ≤ s.tokens.length) : Ends s.tokens.length (consume ts type fault) c
      (fun _ d => (look s c).type = type ∧ d = c + 1)
      fun err d => (look s c).type ≠ type ∧ err = ⟨look s c, fault⟩ ∧ d = c := by
  refine Gives.bind (gives_check h htype hc) fun _ _ => ?_
  by_cases hlook : (look s c).type = type
  · rw [beq_iff_eq.mpr hlook, if_pos rfl]
    have hlt := lt_length_of_type h htype hc hlook
    exact Gives.bind (gives_advance h hlt) fun _ _ => .pure ⟨hlook, rfl⟩
  · rw [beq_eq_false_iff_ne.mpr hlook, if_neg Bool.false_ne_true]
    exact Gives.bind (gives_peek h hc) fun _ _ => .refuse ⟨hlook, rfl, rfl⟩

omit h in
theorem ends_made {m : Nat} {t : Token} {r : Except NodeError Expr} :
    Ends m (made t r) c (fun e d => ParseError.ofNode t r = .ok e ∧ d = c)
      fun err d => ParseError.ofNode t r = .error err ∧ d = c := by
  unfold made
  intro reader hr hinside
  cases ParseError.ofNode t r with
  | ok e => exact ⟨.ok e, reader, rfl, hinside, rfl, hr.ge, rfl, hr⟩
  | error err => exact ⟨.error (.refused err), reader, rfl, hinside, rfl, hr.ge, rfl, hr⟩

theorem ends_checkNonAssoc {op : BinaryOp} (hc : c ≤ s.tokens.length) :
    Ends s.tokens.length (checkNonAssoc T ts op) c
      (fun _ d => Parser.checkNonAssoc T op (look s c) = .ok () ∧ d = c)
      fun err d => Parser.checkNonAssoc T op (look s c) = .error ⟨err, false⟩ ∧ d = c := by
  unfold checkNonAssoc Parser.checkNonAssoc
  by_cases hassoc : op.assoc = .none
  · rw [if_pos hassoc, if_pos hassoc]
    refine Gives.bind (gives_peek h hc) fun _ _ => ?_
    cases T.binary? (look s c).type with
    | none => exact .pure ⟨rfl, rfl⟩
    | some other =>
      simp only
      by_cases hsame : other.precedence = op.precedence
      · rw [if_pos hsame, if_pos hsame]
        exact Gives.bind (gives_peek h hc) fun _ _ => .refuse ⟨rfl, rfl⟩
      · rw [if_neg hsame, if_neg hsame]
        exact .pure ⟨rfl, rfl⟩
  · rw [if_neg hassoc, if_neg hassoc]
    exact .pure ⟨rfl, rfl⟩

end tokens

end Fixity.Descent
