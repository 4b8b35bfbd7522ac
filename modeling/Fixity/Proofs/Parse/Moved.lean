import Fixity.Proofs.Parse.Feed
import Fixity.Proofs.Token.Place
import Fixity.Proofs.Unambiguous

/-!
# Texts on other lines

Places are only carried along: no decision of the parser looks at them.  So moving the places of all
tokens moves the places of what the parser makes of them and changes nothing else
(`Parser.run_moved`), and a tree that was moved has the same source text (`Expr.source_moved`).

A text without line ends stands on one line with all its tokens and errors.  On another line it is
parsed to the same tree, or refused with the same errors, moved to that line
(`Expr.parseAt_onLine`).
-/

namespace Fixity

/-! ### Outcomes -/

section bimap

variable {ε ε' α α' β β' : Type} {g : ε → ε'} {h : α → α'} {k : β → β'}

def bimap (g : ε → ε') (h : α → α') : Except ε α → Except ε' α'
  | .error e => .error (g e)
  | .ok a => .ok (h a)

@[simp] theorem bimap_error (e : ε) : bimap g h (.error e) = .error (g e) := rfl

@[simp] theorem bimap_ok (a : α) : bimap g h (.ok a) = .ok (h a) := rfl

/-- What goes on with a changed outcome as with the outcome itself ends in a changed outcome. -/
theorem bind_bimap {x : Except ε α} {y : Except ε' α'} (hxy : y = bimap g h x)
    {f : α → Except ε β} {f' : α' → Except ε' β'} (hf : ∀ a, f' (h a) = bimap g k (f a)) :
    (y >>= f') = bimap g k (x >>= f) := by
  subst hxy
  cases x with
  | error e => rfl
  | ok a => exact hf a

end bimap

/-! ### Moving -/

section moved

variable (f : Pos → Pos)

def Token.moved (t : Token) : Token := { t with pos := f t.pos }

@[simp] theorem Token.type_moved (t : Token) : (t.moved f).type = t.type := rfl

@[simp] theorem Token.lexeme_moved (t : Token) : (t.moved f).lexeme = t.lexeme := rfl

namespace Expr

mutual

def moved : Expr → Expr
  | literal t => literal (t.moved f)
  | ident t => ident (t.moved f)
  | unary t e d => unary (t.moved f) e.moved d
  | binary c t l r d => binary c (t.moved f) l.moved r.moved d
  | call t e args d => call (t.moved f) e.moved (movedAll args) d
  | subscript t e i d => subscript (t.moved f) e.moved i.moved d

def movedAll : List Expr → List Expr
  | [] => []
  | e :: es => e.moved :: movedAll es

end

theorem movedAll_eq_map (es : List Expr) : movedAll f es = es.map (moved f) := by
  induction es with
  | nil => rw [movedAll, List.map_nil]
  | cons e es ih => rw [movedAll, ih, List.map_cons]

@[simp] theorem depth_moved (e : Expr) : (e.moved f).depth = e.depth := by
  cases e <;> simp [moved, depth]

@[simp] theorem token_moved (e : Expr) : (e.moved f).token = e.token.moved f := by
  cases e <;> simp [moved, token]

@[simp] theorem shape_moved (e : Expr) : (e.moved f).shape = e.shape := by
  cases e <;> simp [moved, shape]

@[simp] theorem children_moved (e : Expr) : (e.moved f).children = e.children.map (moved f) := by
  cases e <;> simp [moved, children, movedAll_eq_map]

theorem alike_moved (e : Expr) : Alike e (e.moved f) := by
  induction e using induction_children with
  | node e ih =>
    refine alike_iff.mpr ⟨(shape_moved f e).symm, by rw [token_moved, Token.type_moved],
      fun _ => by rw [token_moved, Token.lexeme_moved], ?_⟩
    rw [children_moved, List.forall₂_map_right_iff, List.forall₂_same]
    exact ih

theorem source_moved (T : Table) (e : Expr) : (e.moved f).source T = e.source T :=
  ((alike_moved f e).source_eq T).symm

end Expr

def NodeError.moved (e : NodeError) : NodeError := { e with token := e.token.map (Token.moved f) }

def ParseFault.moved : ParseFault → ParseFault
  | .node error => .node (error.moved f)
  | fault => fault

def ParseError.moved (e : ParseError) : ParseError := ⟨e.token.moved f, e.fault.moved f⟩

def ScanError.moved (e : ScanError) : ScanError := { e with pos := f e.pos }

def SourceError.moved : SourceError → SourceError
  | .scan first more => .scan (first.moved f) (more.map (ScanError.moved f))
  | .parse error => .parse (error.moved f)

/-! ### Nodes -/

namespace Expr

abbrev movedNode : Except NodeError Expr → Except NodeError Expr :=
  bimap (NodeError.moved f) (moved f)

theorem require_moved (t : Token) (ok : Bool) (fault : NodeFault) :
    require (t.moved f) ok fault = bimap (NodeError.moved f) id (require t ok fault) := by
  cases ok <;> rfl

theorem depthOver_moved (t : Token) (es : List Expr) :
    depthOver (t.moved f) (es.map (moved f)) =
      bimap (NodeError.moved f) id (depthOver t es) := by
  have hdeepest : (es.map (moved f)).foldl (fun d e => max d e.depth) 0 =
      es.foldl (fun d e => max d e.depth) 0 := by
    simp only [List.foldl_map, depth_moved]
  rw [depthOver, depthOver, hdeepest]
  split <;> rfl

theorem newLiteral_moved (t : Token) :
    newLiteral (some (t.moved f)) = movedNode f (newLiteral (some t)) := by
  refine bind_bimap (h := Token.moved f) (x := .ok t) rfl fun t => ?_
  refine bind_bimap (require_moved f t _ _) fun _ => ?_
  refine bind_bimap (require_moved f t _ _) fun _ => ?_
  exact bind_bimap (require_moved f t _ _) fun _ => rfl

theorem newIdent_moved (t : Token) :
    newIdent (some (t.moved f)) = movedNode f (newIdent (some t)) := by
  refine bind_bimap (h := Token.moved f) (x := .ok t) rfl fun t => ?_
  exact bind_bimap (require_moved f t _ _) fun _ => rfl

theorem newUnary_moved (t : Token) (e : Expr) :
    newUnary (some (t.moved f)) (some (e.moved f)) = movedNode f (newUnary (some t) (some e)) := by
  refine bind_bimap (h := Token.moved f) (x := .ok t) rfl fun t => ?_
  refine bind_bimap (require_moved f t _ _) fun _ => ?_
  refine bind_bimap (h := moved f) (x := .ok e) rfl fun e => ?_
  exact bind_bimap (depthOver_moved f t [e]) fun _ => rfl

theorem newBinary_moved (c : Category) (t : Token) (l r : Expr) :
    newBinary c (some (t.moved f)) (some (l.moved f)) (some (r.moved f)) =
      movedNode f (newBinary c (some t) (some l) (some r)) := by
  refine bind_bimap (h := Token.moved f) (x := .ok t) rfl fun t => ?_
  refine bind_bimap (require_moved f t _ _) fun _ => ?_
  refine bind_bimap (h := moved f) (x := .ok l) rfl fun l => ?_
  refine bind_bimap (h := moved f) (x := .ok r) rfl fun r => ?_
  exact bind_bimap (depthOver_moved f t [l, r]) fun _ => rfl

theorem newCall_moved (t : Token) (e : Expr) (args : List Expr) :
    newCall (some (t.moved f)) (some (e.moved f)) ((args.map (moved f)).map some) =
      movedNode f (newCall (some t) (some e) (args.map some)) := by
  have hargs (t : Token) : operands (t.moved f) 2 ((args.map (moved f)).map some) =
      bimap (NodeError.moved f) (List.map (moved f)) (operands t 2 (args.map some)) := by
    rw [operands_eq_ok.mpr rfl, operands_eq_ok.mpr rfl, bimap_ok]
  refine bind_bimap (h := Token.moved f) (x := .ok t) rfl fun t => ?_
  refine bind_bimap (require_moved f t _ _) fun _ => ?_
  refine bind_bimap (h := moved f) (x := .ok e) rfl fun e => ?_
  refine bind_bimap (hargs t) fun args => ?_
  refine bind_bimap (depthOver_moved f t (e :: args)) fun d => ?_
  rw [← movedAll_eq_map]
  rfl

end Expr

/-! ### The parser -/

namespace Parser

def Frame.moved : Frame → Frame
  | .climb least => .climb least
  | .right op token left => .right op (token.moved f) (left.moved f)
  | .operand token => .operand (token.moved f)
  | .group => .group
  | .argument paren callee read =>
    .argument (paren.moved f) (callee.moved f) (read.map (Expr.moved f))

def State.moved : State → State
  | .expect stack => .expect (stack.map (Frame.moved f))
  | .opened paren callee stack =>
    .opened (paren.moved f) (callee.moved f) (stack.map (Frame.moved f))
  | .complete e stack => .complete (e.moved f) (stack.map (Frame.moved f))
  | .finished e => .finished (e.moved f)

def Stop.moved (s : Stop) : Stop := { s with error := s.error.moved f }

def Outcome.moved (o : Outcome) : Outcome :=
  ⟨bimap (ParseError.moved f) (Expr.moved f) o.result, o.rest.map (Token.moved f)⟩

abbrev movedStep : Except Stop State → Except Stop State := bimap (Stop.moved f) (State.moved f)

variable {f}

theorem ofNode_moved (t : Token) {x y : Except NodeError Expr} (h : y = Expr.movedNode f x) :
    ParseError.ofNode (t.moved f) y =
      bimap (ParseError.moved f) (Expr.moved f) (ParseError.ofNode t x) := by
  subst h
  cases x <;> rfl

theorem taken_moved (t : Token) {x y : Except NodeError Expr} (h : y = Expr.movedNode f x) :
    taken (ParseError.ofNode (t.moved f) y) =
      bimap (Stop.moved f) (Expr.moved f) (taken (ParseError.ofNode t x)) := by
  rw [ofNode_moved t h]
  cases ParseError.ofNode t x <;> rfl

theorem untaken_moved (t : Token) {x y : Except NodeError Expr} (h : y = Expr.movedNode f x) :
    untaken (ParseError.ofNode (t.moved f) y) =
      bimap (Stop.moved f) (Expr.moved f) (untaken (ParseError.ofNode t x)) := by
  rw [ofNode_moved t h]
  cases ParseError.ofNode t x <;> rfl

variable (f) (T : Table)

theorem begin_moved (stack : List Frame) (t : Token) :
    begin T (stack.map (Frame.moved f)) (t.moved f) = movedStep f (begin T stack t) := by
  unfold begin
  rw [Token.type_moved]
  split
  · rfl
  split
  · rfl
  split
  case h_1 | h_2 | h_3 | h_4 | h_5 =>
    exact bind_bimap (taken_moved t (Expr.newLiteral_moved f t)) fun _ => rfl
  case h_6 => exact bind_bimap (taken_moved t (Expr.newIdent_moved f t)) fun _ => rfl
  case h_7 => rfl
  case h_8 => rfl

theorem checkNonAssoc_moved (op : BinaryOp) (t : Token) :
    checkNonAssoc T op (t.moved f) = bimap (Stop.moved f) id (checkNonAssoc T op t) := by
  unfold checkNonAssoc
  rw [Token.type_moved]
  split
  · split
    · split <;> rfl
    · rfl
  · rfl

theorem settle_moved (t : Token) (stack : List Frame) : ∀ e : Expr,
    settle T (t.moved f) (e.moved f) (stack.map (Frame.moved f)) =
      movedStep f (settle T t e stack) := by
  induction stack with
  | nil =>
    intro e
    rw [List.map_nil, settle, settle, Token.type_moved]
    split <;> rfl
  | cons frame stack ih =>
    intro e
    rw [List.map_cons]
    cases frame with
    | climb least =>
      rw [Frame.moved, settle, settle, Token.type_moved]
      split
      · split
        · exact ih e
        · split <;> rfl
      · exact ih e
    | right op token left =>
      rw [Frame.moved, settle, settle]
      refine bind_bimap (untaken_moved token (Expr.newBinary_moved f _ token left e)) fun e => ?_
      exact bind_bimap (checkNonAssoc_moved f T op t) fun _ => ih e
    | operand token =>
      rw [Frame.moved, settle, settle]
      exact bind_bimap (untaken_moved token (Expr.newUnary_moved f token e)) ih
    | group =>
      rw [Frame.moved, settle, settle, Token.type_moved]
      split <;> rfl
    | argument paren callee read =>
      rw [Frame.moved, settle, settle, Token.type_moved]
      split
      · rfl
      · have hargs : (e.moved f :: read.map (Expr.moved f)).reverse =
            (e :: read).reverse.map (Expr.moved f) := by rw [List.map_reverse, List.map_cons]
        refine bind_bimap (taken_moved paren ?_) fun _ => rfl
        rw [hargs]
        exact Expr.newCall_moved f paren callee _
      · rfl

theorem step_moved (t : Token) (s : State) :
    step T (t.moved f) (s.moved f) = movedStep f (step T t s) := by
  cases s with
  | expect stack => exact begin_moved f T stack t
  | opened paren callee stack =>
    rw [State.moved, step, step, Token.type_moved]
    split
    · exact bind_bimap (taken_moved paren (Expr.newCall_moved f paren callee [])) fun _ => rfl
    · exact begin_moved f T (expression (.argument paren callee [] :: stack)) t
  | complete e stack =>
    rw [State.moved, step, step, Token.type_moved]
    split
    · rfl
    · exact settle_moved f T t stack e
  | finished e => rfl

/-- **A run over tokens that were moved** ends as the run over the tokens, moved. -/
theorem run_moved (last : Token) (ts : List Token) : ∀ s : State,
    run T (last.moved f) (s.moved f) (ts.map (Token.moved f)) = (run T last s ts).moved f := by
  induction ts with
  | nil =>
    intro s
    rw [List.map_nil, run, run, step_moved]
    cases step T last s with
    | error stop => rfl
    | ok s => cases s <;> rfl
  | cons t ts ih =>
    intro s
    rw [List.map_cons, run, run, step_moved]
    cases step T t s with
    | ok s => exact ih s
    | error stop =>
      obtain ⟨error, taken⟩ := stop
      cases taken <;> rfl

end Parser

/-! ### Scans -/

def TokenStream.moved (s : TokenStream) : TokenStream :=
  ⟨s.tokens.map (Token.moved f), s.last.moved f⟩

def Scan.moved (s : Scan) : Scan := ⟨s.stream.moved f, s.errors.map (ScanError.moved f)⟩

end moved

def Pos.onLine (line : Int64) (p : Pos) : Pos := { p with line }

theorem placeAfter_onLine {before : List Char} (h : '\n' ∉ before) (line line' : Int64) :
    placeAfter line before = (placeAfter line' before).onLine line := by
  rw [placeAfter, placeAfter, List.count_eq_zero.mpr h, Pos.onLine]
  simp

namespace Scan

open Lexeme

theorem ofChars_onLine {src : List Char} (h : '\n' ∉ src) (line line' : Int64) :
    ofChars line src = (ofChars line' src).moved (Pos.onLine line) := by
  have hbefore : ∀ x ∈ located [] (segments src), '\n' ∉ x.1 := by
    rintro ⟨before, s⟩ hx hmem
    obtain ⟨as, bs, hsplit, rfl⟩ := exists_of_mem_located hx
    have hcovers := Segment.flatMap_text_cut lead src
    rw [← segments, hsplit, List.flatMap_append] at hcovers
    exact h (hcovers ▸ List.mem_append_left _ hmem)
  rw [ofChars_eq, ofChars_eq, Scan.moved, TokenStream.moved, List.map_filterMap,
    List.map_filterMap]
  congr 1
  · congr 1
    · refine List.filterMap_congr fun x hx => ?_
      unfold tokenAt?
      split
      · rw [placeAfter_onLine (hbefore x hx) line line']
        rfl
      · rfl
    · rw [placeAfter_onLine h line line']
      rfl
  · refine List.filterMap_congr fun x hx => ?_
    unfold errorAt?
    split
    · rw [placeAfter_onLine (hbefore x hx) line line']
      rfl
    · rfl

end Scan

/-! ### Texts -/

/-- **A text without line ends is parsed on every line alike**: to the same tree, or to the same
errors, moved to the line. -/
theorem Expr.parseAt_onLine (T : Table) {src : Bytes} (h : 10 ∉ src) (line line' : Int64) :
    parseAt T line src = bimap (SourceError.moved (Pos.onLine line)) (moved (Pos.onLine line))
      (parseAt T line' src) := by
  have hchars : '\n' ∉ Utf8.decode src := fun hmem => h (Utf8.mem_of_mem_decode (by decide) hmem)
  rw [parseAt, parseAt, Scan.ofBytes, Scan.ofChars_onLine hchars line line', ← Scan.ofBytes]
  generalize Scan.ofBytes line' src = scan
  obtain ⟨stream, errors⟩ := scan
  cases errors with
  | cons first more => rfl
  | nil =>
    have hrun := Parser.run_moved (Pos.onLine line) T stream.last stream.tokens Parser.start
    refine (congrArg (fun o => o.result.mapError SourceError.parse) hrun).trans ?_
    have hparse : (stream.parse T).1 = (Parser.run T stream.last Parser.start stream.tokens).result :=
      rfl
    show _ = bimap _ _ ((stream.parse T).1.mapError SourceError.parse)
    rw [hparse, Parser.Outcome.moved]
    cases (Parser.run T stream.last Parser.start stream.tokens).result <;> rfl

end Fixity
