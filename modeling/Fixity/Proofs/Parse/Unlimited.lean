import Fixity.Proofs.FirstError
import Fixity.Proofs.Token.Leaf
import Fixity.Proofs.WellFormed
import Mathlib.Data.List.Induction

/-!
# Reading without a limit on depth

The parser refuses a node that is too deep, but how deep a tree may be has no part in what the tokens
determine.  `Parser.Leads` reads them by the same grammar and makes every node.  The expressions that it
completes are those that the tokens determine (`Parser.Determines`), and parentheses do not count:

    - ( ( - x ) )        determines   x,   - x   and   - - x,   of height 1, 2 and 3

The two readings go together as long as no node is too deep.  So the parser refuses a node only when the
tokens determine a tree that is too high (`agrees_feed`), and always then (`Determines.refuses`).
-/

namespace Fixity

open Fixity.Expr

namespace ParseError

def tooDeep (e : Expr) : ParseError := ⟨e.token, .node ⟨some e.token, .tooDeep⟩⟩

theorem not_wrapsNode (t : Token) {fault : ParseFault} (h : ∀ error, fault ≠ .node error) :
    ¬ (ParseError.mk t fault).WrapsNode := by
  rintro ⟨error, hfault⟩
  exact h error hfault

end ParseError

namespace Parser

variable {T : Table}

/-! ### What tokens determine -/

/-- What the tokens seen so far amount to. -/
inductive Stage where
  /-- No token has been looked at beyond those of the state. -/
  | between (s : State)
  /-- The expression ends before the token and is handed to the frames. -/
  | handing (t : Token) (e : Expr) (stack : List Frame)
  /-- The expression is an operation that was made before the token, which can still be refused. -/
  | joined (op : BinaryOp) (t : Token) (e : Expr) (stack : List Frame)

def Stage.completed? : Stage → Option Expr
  | .between (.complete e _) | .handing _ e _ | .joined _ _ e _ => some e
  | .between _ => none

/-- The tokens lead to the stage when every node is made, however deep. -/
inductive Leads (T : Table) : List Token → Stage → Prop
  | start : Leads T [] (.between start)
  | begun {us : List Token} {t : Token} {stack : List Frame} {s : State} :
      Leads T us (.between (.expect stack)) → begin T stack t = .ok s →
      Leads T (us ++ [t]) (.between s)
  | opened {us : List Token} {t : Token} {e : Expr} {stack : List Frame} :
      Leads T us (.between (.complete e stack)) → t.type = .leftParen →
      Leads T (us ++ [t]) (.between (.opened t e stack))
  | noArgument {us : List Token} {t p : Token} {f : Expr} {stack : List Frame} :
      Leads T us (.between (.opened p f stack)) → t.type = .rightParen →
      Leads T (us ++ [t]) (.between (.complete (.call p f [] (f.depth + 1)) stack))
  | firstArgument {us : List Token} {t p : Token} {f : Expr} {stack : List Frame} {s : State} :
      Leads T us (.between (.opened p f stack)) → t.type ≠ .rightParen →
      begin T (expression (.argument p f [] :: stack)) t = .ok s →
      Leads T (us ++ [t]) (.between s)
  | seen {us : List Token} {t : Token} {e : Expr} {stack : List Frame} :
      Leads T us (.between (.complete e stack)) → t.type ≠ .leftParen →
      Leads T (us ++ [t]) (.handing t e stack)
  | passed {us : List Token} {t : Token} {e : Expr} {least : Int} {stack : List Frame} :
      Leads T us (.handing t e (.climb least :: stack)) →
      (∀ op, T.binary? t.type = some op → op.precedence < least) →
      Leads T us (.handing t e stack)
  | left {us : List Token} {t : Token} {op : BinaryOp} {e : Expr} {least : Int}
      {stack : List Frame} :
      Leads T us (.handing t e (.climb least :: stack)) → T.binary? t.type = some op →
      least ≤ op.precedence → t.type ≠ .eof →
      Leads T us (.between (.expect
        (.climb (rightLeast op) :: .right op t e :: .climb least :: stack)))
  | right {us : List Token} {t o : Token} {op : BinaryOp} {l r : Expr} {stack : List Frame} :
      Leads T us (.handing t r (.right op o l :: stack)) →
      Leads T us (.joined op t (.binary op.builder o l r (max l.depth r.depth + 1)) stack)
  | associated {us : List Token} {t : Token} {op : BinaryOp} {e : Expr} {stack : List Frame} :
      Leads T us (.joined op t e stack) → checkNonAssoc T op t = .ok () →
      Leads T us (.handing t e stack)
  | operand {us : List Token} {t o : Token} {x : Expr} {stack : List Frame} :
      Leads T us (.handing t x (.operand o :: stack)) →
      Leads T us (.handing t (.unary o x (x.depth + 1)) stack)
  | group {us : List Token} {t : Token} {e : Expr} {stack : List Frame} :
      Leads T us (.handing t e (.group :: stack)) → t.type = .rightParen →
      Leads T us (.between (.complete e stack))
  | nextArgument {us : List Token} {t p : Token} {e f : Expr} {read : List Expr}
      {stack : List Frame} :
      Leads T us (.handing t e (.argument p f read :: stack)) → t.type = .comma →
      Leads T us (.between (.expect (expression (.argument p f (e :: read) :: stack))))
  | lastArgument {us : List Token} {t p : Token} {e f : Expr} {read : List Expr}
      {stack : List Frame} :
      Leads T us (.handing t e (.argument p f read :: stack)) → t.type = .rightParen →
      Leads T us (.between (.complete
        (.call p f (e :: read).reverse (deepest (f :: (e :: read).reverse) + 1)) stack))

/-- The tokens determine the expression: a beginning of them completes it. -/
def Determines (T : Table) (us : List Token) (e : Expr) : Prop :=
  ∃ seen stage, seen <+: us ∧ Leads T seen stage ∧ stage.completed? = some e

theorem Leads.determines {us : List Token} {stage : Stage} {e : Expr} (h : Leads T us stage)
    (he : stage.completed? = some e) : Determines T us e :=
  ⟨us, stage, List.prefix_rfl, h, he⟩

theorem Determines.append {us : List Token} {e : Expr} (h : Determines T us e) (vs : List Token) :
    Determines T (us ++ vs) e := by
  obtain ⟨seen, stage, hseen, h⟩ := h
  exact ⟨seen, stage, hseen.trans (List.prefix_append us vs), h⟩

/-! ### Depth and height -/

/-- The token of the frame belongs to the node that the frame makes, and its trees hold their height
as depth. -/
def Frame.Sound (T : Table) : Frame → Prop
  | .climb _ | .group => True
  | .right op token left => T.binary? token.type = some op ∧ left.depth = left.height
  | .operand token => ∃ u, T.unary? token.type = some u
  | .argument paren callee read =>
    paren.type = .leftParen ∧ ∀ e ∈ callee :: read, e.depth = e.height

def Stage.Sound (T : Table) : Stage → Prop
  | .between (.expect stack) => ∀ f ∈ stack, f.Sound T
  | .between (.opened paren callee stack) =>
    paren.type = .leftParen ∧ callee.depth = callee.height ∧ ∀ f ∈ stack, f.Sound T
  | .between (.complete e stack) | .handing _ e stack | .joined _ _ e stack =>
    e.depth = e.height ∧ ∀ f ∈ stack, f.Sound T
  | .between (.finished _) => False

theorem depth_eq_height {e : Expr} (hdepth : e.depth = deepest e.children + 1)
    (h : ∀ c ∈ e.children, c.depth = c.height) : e.depth = e.height := by
  rw [hdepth, deepest_eq_heights h, height_eq]

theorem depth_eq_height_unary (o : Token) {x : Expr} (hx : x.depth = x.height) :
    (unary o x (x.depth + 1)).depth = (unary o x (x.depth + 1)).height :=
  depth_eq_height (by rw [children, deepest_singleton, depth]) (List.forall_mem_singleton.mpr hx)

theorem depth_eq_height_binary (c : Category) (o : Token) {l r : Expr} (hl : l.depth = l.height)
    (hr : r.depth = r.height) : (binary c o l r (max l.depth r.depth + 1)).depth =
      (binary c o l r (max l.depth r.depth + 1)).height :=
  depth_eq_height (by rw [children, deepest_pair, depth])
    (List.forall_mem_cons.mpr ⟨hl, List.forall_mem_singleton.mpr hr⟩)

theorem sound_expression {stack : List Frame} (h : ∀ f ∈ stack, f.Sound T) :
    ∀ f ∈ expression stack, f.Sound T := List.forall_mem_cons.mpr ⟨trivial, h⟩

theorem sound_begin {t : Token} {stack : List Frame} {s : State} (hstack : ∀ f ∈ stack, f.Sound T)
    (h : begin T stack t = .ok s) : (Stage.between s).Sound T := by
  rcases begin_eq_ok h with ⟨u, hu, rfl⟩ | ⟨-, rfl⟩ | ⟨-, rfl⟩ | ⟨-, rfl⟩
  · exact List.forall_mem_cons.mpr ⟨trivial, List.forall_mem_cons.mpr ⟨⟨u, hu⟩, hstack⟩⟩
  · exact ⟨rfl, hstack⟩
  · exact ⟨rfl, hstack⟩
  · exact sound_expression (List.forall_mem_cons.mpr ⟨trivial, hstack⟩)

/-- **Whatever the tokens lead to is sound.** -/
theorem Leads.sound {us : List Token} {stage : Stage} (h : Leads T us stage) : stage.Sound T := by
  induction h with
  | start => exact sound_expression (by simp)
  | begun _ hbegin ih => exact sound_begin ih hbegin
  | opened _ ht ih => exact ⟨ht, ih⟩
  | @noArgument us t p f stack _ _ ih =>
    obtain ⟨-, hf, hstack⟩ := ih
    exact ⟨depth_eq_height (by rw [children, deepest_singleton, depth])
      (List.forall_mem_singleton.mpr hf), hstack⟩
  | @firstArgument us t p f stack s _ _ hbegin ih =>
    obtain ⟨hp, hf, hstack⟩ := ih
    have hframe : (Frame.argument p f []).Sound T := ⟨hp, List.forall_mem_singleton.mpr hf⟩
    exact sound_begin (sound_expression (List.forall_mem_cons.mpr ⟨hframe, hstack⟩)) hbegin
  | seen _ _ ih => exact ih
  | passed _ _ ih => exact ⟨ih.1, (List.forall_mem_cons.mp ih.2).2⟩
  | left _ hop _ _ ih =>
    exact List.forall_mem_cons.mpr ⟨trivial, List.forall_mem_cons.mpr ⟨⟨hop, ih.1⟩, ih.2⟩⟩
  | @right us t o op l r stack _ ih =>
    obtain ⟨hr, hstack⟩ := ih
    obtain ⟨⟨-, hl⟩, hstack⟩ := List.forall_mem_cons.mp hstack
    exact ⟨depth_eq_height_binary _ o hl hr, hstack⟩
  | associated _ _ ih => exact ih
  | @operand us t o x stack _ ih =>
    obtain ⟨hx, hstack⟩ := ih
    exact ⟨depth_eq_height_unary o hx, (List.forall_mem_cons.mp hstack).2⟩
  | group _ _ ih => exact ⟨ih.1, (List.forall_mem_cons.mp ih.2).2⟩
  | @nextArgument us t p e f read stack _ _ ih =>
    obtain ⟨he, hstack⟩ := ih
    obtain ⟨⟨hp, htrees⟩, hstack⟩ := List.forall_mem_cons.mp hstack
    obtain ⟨hf, hread⟩ := List.forall_mem_cons.mp htrees
    have hall : ∀ a ∈ e :: read, a.depth = a.height := List.forall_mem_cons.mpr ⟨he, hread⟩
    have htrees : ∀ a ∈ f :: e :: read, a.depth = a.height := List.forall_mem_cons.mpr ⟨hf, hall⟩
    exact sound_expression (List.forall_mem_cons.mpr ⟨⟨hp, htrees⟩, hstack⟩)
  | @lastArgument us t p e f read stack _ _ ih =>
    obtain ⟨he, hstack⟩ := ih
    obtain ⟨⟨-, htrees⟩, hstack⟩ := List.forall_mem_cons.mp hstack
    obtain ⟨hf, hread⟩ := List.forall_mem_cons.mp htrees
    have hall : ∀ a ∈ e :: read, a.depth = a.height := List.forall_mem_cons.mpr ⟨he, hread⟩
    have hargs : ∀ a ∈ (e :: read).reverse, a.depth = a.height :=
      fun a ha => hall a (List.mem_reverse.mp ha)
    exact ⟨depth_eq_height rfl (List.forall_mem_cons.mpr ⟨hf, hargs⟩), hstack⟩

theorem Stage.Sound.depth_eq {stage : Stage} (h : stage.Sound T) {e : Expr}
    (he : stage.completed? = some e) : e.depth = e.height := by
  cases stage with
  | between s =>
    cases s with
    | complete x stack =>
      obtain rfl := Option.some.inj he
      exact h.1
    | _ => cases he
  | handing t x stack =>
    obtain rfl := Option.some.inj he
    exact h.1
  | joined op t x stack =>
    obtain rfl := Option.some.inj he
    exact h.1

/-! ### Nodes of the parser -/

/-- A node of the parser whose token belongs to it is refused when it is too deep. -/
theorem limited_bind (e : Expr) (read : Bool) (k : Expr → Except Stop State) :
    ((ParseError.ofNode e.token (limited e)).mapError (Stop.mk · read) >>= k) =
      if maxDepth < e.depth then .error ⟨.tooDeep e, read⟩ else k e := by
  unfold limited
  split <;> rfl

variable {t o p : Token} {op : BinaryOp} {e f l r x : Expr} {stack : List Frame}

theorem settle_right_eq (h : o.type.category? = some op.builder) :
    settle T t r (.right op o l :: stack) =
      if maxDepth < max l.depth r.depth + 1 then
        .error ⟨.tooDeep (.binary op.builder o l r (max l.depth r.depth + 1)), false⟩
      else checkNonAssoc T op t >>= fun _ =>
        settle T t (.binary op.builder o l r (max l.depth r.depth + 1)) stack := by
  rw [settle, newBinary_of_category? h]
  exact limited_bind (.binary op.builder o l r (max l.depth r.depth + 1)) false _

theorem settle_operand_eq (h : o.type.isUnary = true) :
    settle T t x (.operand o :: stack) =
      if maxDepth < x.depth + 1 then .error ⟨.tooDeep (.unary o x (x.depth + 1)), false⟩
      else settle T t (.unary o x (x.depth + 1)) stack := by
  rw [settle, newUnary_of_isUnary h]
  exact limited_bind (.unary o x (x.depth + 1)) false _

theorem settle_argument_eq {read : List Expr} (h : p.type = .leftParen)
    (ht : t.type = .rightParen) :
    settle T t e (.argument p f read :: stack) =
      if maxDepth < deepest (f :: (e :: read).reverse) + 1 then .error ⟨.tooDeep
        (.call p f (e :: read).reverse (deepest (f :: (e :: read).reverse) + 1)), true⟩
      else .ok (.complete
        (.call p f (e :: read).reverse (deepest (f :: (e :: read).reverse) + 1)) stack) := by
  rw [settle, ht]
  simp only [newCall_of_leftParen h]
  exact limited_bind (.call p f (e :: read).reverse (deepest (f :: (e :: read).reverse) + 1)) true
    fun call => .ok (.complete call stack)

theorem step_opened_eq (h : p.type = .leftParen) (ht : t.type = .rightParen) :
    step T t (.opened p f stack) =
      if maxDepth < f.depth + 1 then .error ⟨.tooDeep (.call p f [] (f.depth + 1)), true⟩
      else .ok (.complete (.call p f [] (f.depth + 1)) stack) := by
  rw [step, if_pos ht, newCall_nil_of_leftParen h]
  exact limited_bind (.call p f [] (f.depth + 1)) true fun call => .ok (.complete call stack)

/-! ### The parser refuses nothing else -/

/-- What has become of the tokens agrees with what they determine: they lead to the state or determine
the whole expression, or the error is about no node or about one that they determine and that is too
high. -/
def Agrees (T : Table) (us : List Token) : Except Stop State → Prop
  | .ok (.finished e) => Determines T us e
  | .ok s => Leads T us (.between s)
  | .error stop => stop.error.WrapsNode →
    ∃ e, Determines T us e ∧ maxDepth < e.height ∧ stop.error = .tooDeep e

variable {us : List Token}

theorem agrees_ok {s : State} (h : Leads T us (.between s)) : Agrees T us (.ok s) := by
  cases s with
  | finished e => exact h.sound.elim
  | _ => exact h

theorem agrees_error {stop : Stop} (h : ¬ stop.error.WrapsNode) : Agrees T us (.error stop) :=
  fun hwraps => absurd hwraps h

theorem Agrees.append_error {stop : Stop} (h : Agrees T us (.error stop)) (vs : List Token) :
    Agrees T (us ++ vs) (.error stop) := by
  intro hwraps
  obtain ⟨e, he, hheight, herror⟩ := h hwraps
  exact ⟨e, he.append vs, hheight, herror⟩

/-- A node that the tokens determine is made, or the error about it agrees. -/
theorem agrees_ite {read : Bool} {stage : Stage} {r : Except Stop State} (h : Leads T us stage)
    (he : stage.completed? = some e) (hr : Agrees T us r) :
    Agrees T us (if maxDepth < e.depth then .error ⟨.tooDeep e, read⟩ else r) := by
  split
  · rename_i hdeep
    rw [h.sound.depth_eq he] at hdeep
    exact fun _ => ⟨e, h.determines he, hdeep, rfl⟩
  · exact hr

theorem not_wrapsNode_begin (ht : t.type ≠ .eof → t.type.HasLexeme t.lexeme) {stop : Stop}
    (h : begin T stack t = .error stop) : ¬ stop.error.WrapsNode := by
  unfold begin at h
  split at h
  · obtain rfl := Except.error.inj h
    exact ParseError.not_wrapsNode t (by simp)
  rename_i heof
  have hlexeme := ht heof
  split at h
  · cases h
  split at h
  case h_6 htype =>
    rw [htype] at hlexeme
    rw [newIdent_some_eq_ok.mpr ⟨htype, hlexeme, rfl⟩] at h
    cases h
  case h_7 => cases h
  case h_8 =>
    obtain rfl := Except.error.inj h
    exact ParseError.not_wrapsNode t (by simp)
  all_goals
    rename_i htype
    have hliteral : t.type.isLiteral = true := by rw [htype]; rfl
    rw [newLiteral_of_isLiteral hliteral (hlexeme.isLiteral hliteral)] at h
    cases h

theorem agrees_begin {seen : List Token} (ht : t.type ≠ .eof → t.type.HasLexeme t.lexeme)
    (h : ∀ s, begin T stack t = .ok s → Leads T seen (.between s)) :
    Agrees T seen (begin T stack t) := by
  cases hbegin : begin T stack t with
  | ok s => exact agrees_ok (h s hbegin)
  | error stop => exact agrees_error (not_wrapsNode_begin ht hbegin)

theorem agrees_settle (hT : T.Coherent) {stack : List Frame} : ∀ {e : Expr},
    Leads T us (.handing t e stack) → Agrees T us (settle T t e stack) := by
  induction stack with
  | nil =>
    intro e h
    rw [settle]
    split
    · exact h.determines rfl
    · exact agrees_error (ParseError.not_wrapsNode t (by simp))
  | cons frame stack ih =>
    intro e h
    obtain ⟨hframe, -⟩ := List.forall_mem_cons.mp h.sound.2
    cases frame with
    | climb least =>
      by_cases hpass : ∀ op, T.binary? t.type = some op → op.precedence < least
      · rw [settle_climb hpass]
        exact ih (h.passed hpass)
      · obtain ⟨op, hop, hle⟩ : ∃ op, T.binary? t.type = some op ∧ least ≤ op.precedence := by
          simpa using hpass
        by_cases heof : t.type = .eof
        · rw [heof, hT.binary?_eq_none rfl] at hop
          cases hop
        · rw [settle_climb_of_le hop hle heof]
          exact agrees_ok (h.left hop hle heof)
    | right op o l =>
      rw [settle_right_eq (hT.category?_of_binary? hframe.1)]
      refine agrees_ite h.right rfl ?_
      cases hcheck : checkNonAssoc T op t with
      | ok => exact ih (h.right.associated hcheck)
      | error stop =>
        obtain ⟨type, rfl⟩ := checkNonAssoc_eq_error hcheck
        exact agrees_error (ParseError.not_wrapsNode t (by simp))
    | operand o =>
      obtain ⟨u, hu⟩ := hframe
      rw [settle_operand_eq (hT.isUnary_of_unary? hu)]
      exact agrees_ite h.operand rfl (ih h.operand)
    | group =>
      rw [settle]
      split
      · exact agrees_ok (h.group ‹_›)
      · exact agrees_error (ParseError.not_wrapsNode t (by simp))
    | argument p f read =>
      by_cases hparen : t.type = .rightParen
      · rw [settle_argument_eq hframe.1 hparen]
        exact agrees_ite (h.lastArgument hparen) rfl (agrees_ok (h.lastArgument hparen))
      · rw [settle]
        split
        · exact agrees_ok (h.nextArgument ‹_›)
        · exact absurd ‹_› hparen
        · exact agrees_error (ParseError.not_wrapsNode t (by simp))

/-- **One token** is read as it would be without a limit, or a tree that it determines is too high. -/
theorem agrees_step (hT : T.Coherent) (ht : t.type ≠ .eof → t.type.HasLexeme t.lexeme) {s : State}
    (h : Agrees T us (.ok s)) : Agrees T (us ++ [t]) (step T t s) := by
  cases s with
  | expect stack => exact agrees_begin ht fun s hbegin => .begun h hbegin
  | opened p f stack =>
    by_cases hparen : t.type = .rightParen
    · rw [step_opened_eq h.sound.1 hparen]
      exact agrees_ite (.noArgument h hparen) rfl (agrees_ok (.noArgument h hparen))
    · rw [step, if_neg hparen]
      exact agrees_begin ht fun s hbegin => .firstArgument h hparen hbegin
  | complete e stack =>
    rw [step]
    split
    · exact agrees_ok (.opened h ‹_›)
    · exact agrees_settle hT (.seen h ‹_›)
  | finished e => exact Determines.append h [t]

/-- **All tokens** are read as they would be without a limit, or a tree that they determine is too
high. -/
theorem agrees_feed (hT : T.Coherent) (us : List Token)
    (hus : ∀ t ∈ us, t.type ≠ .eof → t.type.HasLexeme t.lexeme) :
    Agrees T us (feed T start us) := by
  induction us using List.reverseRecOn with
  | nil => exact agrees_ok .start
  | append_singleton us t ih =>
    have hus' := fun u hu => hus u (List.mem_append_left [t] hu)
    have hfed := ih hus'
    rw [feed_append]
    cases hfeed : feed T start us with
    | ok s =>
      rw [hfeed] at hfed
      show Agrees T (us ++ [t]) (feed T s [t])
      rw [feed_singleton]
      exact agrees_step hT (hus t (by simp)) hfed
    | error stop =>
      rw [hfeed] at hfed
      exact hfed.append_error [t]

/-! ### The parser refuses every tree that is too high -/

def ComesTo (T : Table) (us : List Token) : Stage → Prop
  | .between s => feed T start us = .ok s
  | .handing t e stack => feed T start us = settle T t e stack
  | .joined op t e stack =>
    feed T start us = checkNonAssoc T op t >>= fun _ => settle T t e stack

def Refuses (T : Table) (us : List Token) : Prop :=
  ∃ stop, feed T start us = .error stop ∧ stop.error.WrapsNode

theorem Refuses.append (h : Refuses T us) (vs : List Token) : Refuses T (us ++ vs) := by
  obtain ⟨stop, hfeed, hwraps⟩ := h
  refine ⟨stop, ?_, hwraps⟩
  rw [feed_append, hfeed]
  rfl

/-- The parser has come to the stage and has made its expression, or it has refused a node. -/
def Tracks (T : Table) (us : List Token) (stage : Stage) : Prop :=
  ComesTo T us stage ∧ (∀ e, stage.completed? = some e → e.depth ≤ maxDepth) ∨ Refuses T us

theorem ComesTo.tracks {stage : Stage} (h : ComesTo T us stage) (hnone : stage.completed? = none) :
    Tracks T us stage := by
  refine Or.inl ⟨h, fun e he => ?_⟩
  rw [hnone] at he
  cases he

/-- What is done in front of the same token goes on from the stage. -/
theorem Tracks.next {stage stage' : Stage} (h : Tracks T us stage)
    (hnext : ComesTo T us stage → (∀ e, stage.completed? = some e → e.depth ≤ maxDepth) →
      Tracks T us stage') : Tracks T us stage' := by
  rcases h with ⟨hcomes, hdepth⟩ | hrefuses
  · exact hnext hcomes hdepth
  · exact Or.inr hrefuses

theorem Tracks.read {s : State} {stage' : Stage} (h : Tracks T us (.between s))
    (hnext : feed T start (us ++ [t]) = step T t s →
      (∀ e, (Stage.between s).completed? = some e → e.depth ≤ maxDepth) →
      Tracks T (us ++ [t]) stage') : Tracks T (us ++ [t]) stage' := by
  rcases h with ⟨hfeed, hdepth⟩ | hrefuses
  · refine hnext ?_ hdepth
    rw [feed_append_of_ok [t] hfeed, feed_singleton]
  · exact Or.inr (hrefuses.append [t])

/-- A node that is made when it is not too deep is at hand, or it has been refused. -/
theorem tracks_ite {read : Bool} {stage : Stage} {r : Except Stop State}
    (he : stage.completed? = some e)
    (hfeed : feed T start us = if maxDepth < e.depth then .error ⟨.tooDeep e, read⟩ else r)
    (hr : feed T start us = r → ComesTo T us stage) : Tracks T us stage := by
  split at hfeed
  · exact Or.inr ⟨_, hfeed, _, rfl⟩
  · rename_i hdepth
    refine Or.inl ⟨hr hfeed, fun x hx => ?_⟩
    obtain rfl := Option.some.inj (he.symm.trans hx)
    omega

theorem tracks_begin {seen : List Token} {s : State} (h : begin T stack t = .ok s)
    (hfeed : feed T start seen = .ok s) : Tracks T seen (.between s) := by
  refine Or.inl ⟨hfeed, fun e he => ?_⟩
  rcases begin_eq_ok h with ⟨u, -, rfl⟩ | ⟨-, rfl⟩ | ⟨-, rfl⟩ | ⟨-, rfl⟩
  · cases he
  · obtain rfl := Option.some.inj he
    show 1 ≤ maxDepth
    decide
  · obtain rfl := Option.some.inj he
    show 1 ≤ maxDepth
    decide
  · cases he

/-- **Wherever the tokens lead** without a limit, the parser comes too, or it has refused a node. -/
theorem Leads.tracks (hT : T.Coherent) {stage : Stage} (h : Leads T us stage) : Tracks T us stage := by
  induction h with
  | start => exact ComesTo.tracks rfl rfl
  | begun _ hbegin ih => exact ih.read fun hfeed _ => tracks_begin hbegin (hfeed.trans hbegin)
  | opened _ ht ih => exact ih.read fun hfeed _ => ComesTo.tracks (hfeed.trans (if_pos ht)) rfl
  | noArgument h ht ih =>
    exact ih.read fun hfeed _ =>
      tracks_ite rfl (hfeed.trans (step_opened_eq h.sound.1 ht)) fun h => h
  | firstArgument _ ht hbegin ih =>
    exact ih.read fun hfeed _ => tracks_begin hbegin (hfeed.trans ((if_neg ht).trans hbegin))
  | seen _ ht ih => exact ih.read fun hfeed hdepth => Or.inl ⟨hfeed.trans (if_neg ht), hdepth⟩
  | passed _ hpass ih =>
    exact ih.next fun hfeed hdepth => Or.inl ⟨hfeed.trans (settle_climb hpass), hdepth⟩
  | left _ hop hle heof ih =>
    exact ih.next fun hfeed _ =>
      ComesTo.tracks (hfeed.trans (settle_climb_of_le hop hle heof)) rfl
  | right h ih =>
    obtain ⟨⟨hop, -⟩, -⟩ := List.forall_mem_cons.mp h.sound.2
    exact ih.next fun hfeed _ =>
      tracks_ite rfl (hfeed.trans (settle_right_eq (hT.category?_of_binary? hop))) fun h => h
  | @associated us t op e stack _ hcheck ih =>
    refine ih.next fun hfeed hdepth => Or.inl ⟨?_, hdepth⟩
    have hfeed : feed T _ us = checkNonAssoc T op t >>= fun _ => settle T t e stack := hfeed
    rw [hcheck] at hfeed
    exact hfeed
  | operand h ih =>
    obtain ⟨⟨u, hu⟩, -⟩ := List.forall_mem_cons.mp h.sound.2
    exact ih.next fun hfeed _ =>
      tracks_ite rfl (hfeed.trans (settle_operand_eq (hT.isUnary_of_unary? hu))) fun h => h
  | group _ ht ih => exact ih.next fun hfeed hdepth => Or.inl ⟨hfeed.trans (if_pos ht), hdepth⟩
  | @nextArgument us t p e f read stack _ ht ih =>
    refine ih.next fun hfeed _ => ?_
    have hfeed : feed T _ us = settle T t e (.argument p f read :: stack) := hfeed
    rw [settle, ht] at hfeed
    exact ComesTo.tracks hfeed rfl
  | lastArgument h ht ih =>
    obtain ⟨⟨hp, -⟩, -⟩ := List.forall_mem_cons.mp h.sound.2
    exact ih.next fun hfeed _ => tracks_ite rfl (hfeed.trans (settle_argument_eq hp ht)) fun h => h

/-- **A tree that is too high is refused** as soon as the tokens determine it. -/
theorem Determines.refuses (hT : T.Coherent) (h : Determines T us e) (hheight : maxDepth < e.height) :
    Refuses T us := by
  obtain ⟨seen, stage, ⟨vs, rfl⟩, hleads, he⟩ := h
  rcases hleads.tracks hT with ⟨-, hdepth⟩ | hrefuses
  · have hle := hdepth e he
    rw [hleads.sound.depth_eq he] at hle
    omega
  · exact hrefuses.append vs

end Parser

end Fixity
