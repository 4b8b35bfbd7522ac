import Fixity.Parse
import Fixity.Proofs.Expr.Built
import Fixity.Proofs.Table

/-!
# Reading tokens

`Parser.feed` reads a list of tokens from a state and stops at the first that cannot follow;
`Parser.run` does the same up to the end of the expression.  When an operand is complete, the token
after it hands the operand to the frames that wait (`settle`); the lemmas here say what each kind of
frame does with it.
-/

namespace Fixity.Parser

def feed (T : Table) (s : State) (ts : List Token) : Except Stop State :=
  ts.foldlM (fun s t => step T t s) s

variable {T : Table}

@[simp] theorem feed_nil (s : State) : feed T s [] = .ok s := rfl

theorem feed_cons (s : State) (t : Token) (ts : List Token) :
    feed T s (t :: ts) = step T t s >>= fun s' => feed T s' ts := by
  rw [feed, List.foldlM_cons]
  rfl

theorem feed_append (s : State) (ts us : List Token) :
    feed T s (ts ++ us) = feed T s ts >>= fun s' => feed T s' us := by
  rw [feed, List.foldlM_append]
  rfl

theorem feed_append_of_ok {s s' : State} {ts : List Token} (us : List Token)
    (h : feed T s ts = .ok s') : feed T s (ts ++ us) = feed T s' us := by
  rw [feed_append, h]
  rfl

theorem feed_cons_of_ok {s s' : State} {t : Token} (us : List Token)
    (h : step T t s = .ok s') : feed T s (t :: us) = feed T s' us := by
  rw [feed_cons, h]
  rfl

theorem feed_singleton (s : State) (t : Token) : feed T s [t] = step T t s := by
  rw [feed_cons]
  cases step T t s <;> rfl

/-- A run goes through the states that feeding goes through. -/
theorem run_append_of_feed (last : Token) {s s' : State} {ts : List Token} (us : List Token)
    (h : feed T s ts = .ok s') : run T last s (ts ++ us) = run T last s' us := by
  induction ts generalizing s with
  | nil =>
    obtain rfl := Except.ok.inj h
    rfl
  | cons t ts ih =>
    cases hs : step T t s with
    | error stop =>
      rw [feed_cons, hs] at h
      cases h
    | ok s₁ =>
      rw [feed_cons_of_ok ts hs] at h
      rw [List.cons_append, run, hs]
      exact ih h

/-! ### Nodes made while parsing -/

@[simp] theorem taken_ok (e : Expr) : taken (.ok e) = .ok e := rfl

@[simp] theorem untaken_ok (e : Expr) : untaken (.ok e) = .ok e := rfl

@[simp] theorem ofNode_ok (t : Token) (e : Expr) : ParseError.ofNode t (.ok e) = .ok e := rfl

/-! ### What waiting frames do -/

/-- A token that is no operator of at least the given precedence leaves the operand alone. -/
theorem settle_climb {t : Token} {e : Expr} {least : Int} {stack : List Frame}
    (h : ∀ op, T.binary? t.type = some op → op.precedence < least) :
    settle T t e (.climb least :: stack) = settle T t e stack := by
  rw [settle]
  cases hb : T.binary? t.type with
  | none => rfl
  | some op => exact if_pos (h op hb)

theorem settle_climb_of_le {t : Token} {e : Expr} {op : BinaryOp} {least : Int}
    {stack : List Frame} (hop : T.binary? t.type = some op) (hle : least ≤ op.precedence)
    (heof : t.type ≠ .eof) :
    settle T t e (.climb least :: stack) =
      .ok (.expect (.climb (rightLeast op) :: .right op t e :: .climb least :: stack)) := by
  rw [settle, hop]
  simp only
  rw [if_neg (by omega), if_neg heof]

theorem settle_operand {t o : Token} {x e : Expr} {stack : List Frame}
    (h : Expr.newUnary (some o) (some x) = .ok e) :
    settle T t x (.operand o :: stack) = settle T t e stack := by
  rw [settle, h]
  rfl

theorem settle_right {t o : Token} {op : BinaryOp} {l r e : Expr} {stack : List Frame}
    (h : Expr.newBinary op.builder (some o) (some l) (some r) = .ok e)
    (hcheck : checkNonAssoc T op t = .ok ()) :
    settle T t r (.right op o l :: stack) = settle T t e stack := by
  rw [settle, h]
  simp only [ofNode_ok, untaken_ok, bind, Except.bind, hcheck]

theorem checkNonAssoc_eq_ok {op : BinaryOp} {t : Token} :
    checkNonAssoc T op t = .ok () ↔ (op.assoc = .none →
      ∀ other, T.binary? t.type = some other → other.precedence ≠ op.precedence) := by
  unfold checkNonAssoc
  split
  case isTrue h =>
    cases hb : T.binary? t.type with
    | none => simp
    | some other =>
      by_cases hp : other.precedence = op.precedence
      · simp [h, hp, stopAt]
      · simp [hp]
  case isFalse h => simp [h]

theorem checkNonAssoc_eq_error {op : BinaryOp} {t : Token} {stop : Stop}
    (h : checkNonAssoc T op t = .error stop) :
    ∃ type, stop = ⟨⟨t, .nonAssociative type⟩, false⟩ := by
  unfold checkNonAssoc at h
  split at h
  · split at h
    · split at h
      · exact ⟨_, (Except.error.inj h).symm⟩
      · cases h
    · cases h
  · cases h

/-! ### What an accepted token has done -/

theorem taken_eq_ok {r : Except ParseError Expr} {e : Expr} : taken r = .ok e ↔ r = .ok e := by
  cases r <;> simp [taken, Except.mapError]

theorem untaken_eq_ok {r : Except ParseError Expr} {e : Expr} :
    untaken r = .ok e ↔ r = .ok e := by
  cases r <;> simp [untaken, Except.mapError]

theorem ofNode_eq_ok {t : Token} {r : Except NodeError Expr} {e : Expr} :
    ParseError.ofNode t r = .ok e ↔ r = .ok e := by
  cases r <;> simp [ParseError.ofNode]

theorem begin_eq_ok {stack : List Frame} {t : Token} {s : State} (h : begin T stack t = .ok s) :
    (∃ u, T.unary? t.type = some u ∧ s = .expect (.climb u.precedence :: .operand t :: stack)) ∨
    (Expr.newLiteral (some t) = .ok (.literal t) ∧ s = .complete (.literal t) stack) ∨
    (Expr.newIdent (some t) = .ok (.ident t) ∧ s = .complete (.ident t) stack) ∨
    (t.type = .leftParen ∧ s = .expect (expression (.group :: stack))) := by
  have hleaf : ∀ {r : Except NodeError Expr},
      (do let e ← taken (ParseError.ofNode t r); return State.complete e stack) = .ok s →
      ∃ e, r = .ok e ∧ s = .complete e stack := by
    intro r hr
    obtain ⟨e, he, hs⟩ := Expr.bind_eq_ok.mp hr
    exact ⟨e, ofNode_eq_ok.mp (taken_eq_ok.mp he), (Except.ok.inj hs).symm⟩
  unfold begin at h
  split at h
  · cases h
  split at h
  · rename_i u hu
    exact Or.inl ⟨u, hu, (Except.ok.inj h).symm⟩
  refine Or.inr ?_
  split at h
  case h_6 =>
    obtain ⟨e, he, rfl⟩ := hleaf h
    obtain ⟨-, -, rfl⟩ := Expr.newIdent_some_eq_ok.mp he
    exact Or.inr (Or.inl ⟨he, rfl⟩)
  case h_7 ht => exact Or.inr (Or.inr ⟨ht, (Except.ok.inj h).symm⟩)
  case h_8 => cases h
  all_goals
    obtain ⟨e, he, rfl⟩ := hleaf h
    obtain ⟨-, -, rfl⟩ := Expr.newLiteral_some_eq_ok.mp he
    exact Or.inl ⟨he, rfl⟩

theorem settle_climb_eq_ok {t : Token} {e : Expr} {least : Int} {stack : List Frame} {s : State}
    (h : settle T t e (.climb least :: stack) = .ok s) :
    (∃ op, T.binary? t.type = some op ∧ least ≤ op.precedence ∧
      s = .expect (.climb (rightLeast op) :: .right op t e :: .climb least :: stack)) ∨
    ((∀ op, T.binary? t.type = some op → op.precedence < least) ∧
      settle T t e stack = .ok s) := by
  rw [settle] at h
  cases hb : T.binary? t.type with
  | none =>
    rw [hb] at h
    exact Or.inr ⟨by simp, h⟩
  | some op =>
    rw [hb] at h
    simp only at h
    split at h
    · rename_i hlt
      refine Or.inr ⟨fun op' hop' => ?_, h⟩
      obtain rfl := Option.some.inj hop'
      exact hlt
    · rename_i hle
      split at h
      · cases h
      · exact Or.inl ⟨op, rfl, by omega, (Except.ok.inj h).symm⟩

theorem settle_right_eq_ok {t o : Token} {op : BinaryOp} {l r : Expr} {stack : List Frame}
    {s : State} (h : settle T t r (.right op o l :: stack) = .ok s) :
    ∃ e, Expr.newBinary op.builder (some o) (some l) (some r) = .ok e ∧
      checkNonAssoc T op t = .ok () ∧ settle T t e stack = .ok s := by
  rw [settle] at h
  obtain ⟨e, he, h⟩ := Expr.bind_eq_ok.mp h
  obtain ⟨_, hcheck, h⟩ := Expr.bind_eq_ok.mp h
  exact ⟨e, ofNode_eq_ok.mp (untaken_eq_ok.mp he), hcheck, h⟩

theorem settle_operand_eq_ok {t o : Token} {x : Expr} {stack : List Frame} {s : State}
    (h : settle T t x (.operand o :: stack) = .ok s) :
    ∃ e, Expr.newUnary (some o) (some x) = .ok e ∧ settle T t e stack = .ok s := by
  rw [settle] at h
  obtain ⟨e, he, h⟩ := Expr.bind_eq_ok.mp h
  exact ⟨e, ofNode_eq_ok.mp (untaken_eq_ok.mp he), h⟩

theorem settle_group_eq_ok {t : Token} {e : Expr} {stack : List Frame} {s : State}
    (h : settle T t e (.group :: stack) = .ok s) :
    t.type = .rightParen ∧ s = .complete e stack := by
  rw [settle] at h
  split at h
  · exact ⟨‹_›, (Except.ok.inj h).symm⟩
  · cases h

theorem settle_argument_eq_ok {t paren : Token} {e f : Expr} {read : List Expr}
    {stack : List Frame} {s : State} (h : settle T t e (.argument paren f read :: stack) = .ok s) :
    (t.type = .comma ∧ s = .expect (expression (.argument paren f (e :: read) :: stack))) ∨
    (t.type = .rightParen ∧ ∃ call, s = .complete call stack ∧
      Expr.newCall (some paren) (some f) ((e :: read).reverse.map some) = .ok call) := by
  rw [settle] at h
  split at h
  · exact Or.inl ⟨‹_›, (Except.ok.inj h).symm⟩
  · obtain ⟨call, hcall, hs⟩ := Expr.bind_eq_ok.mp h
    exact Or.inr ⟨‹_›, call, (Except.ok.inj hs).symm, ofNode_eq_ok.mp (taken_eq_ok.mp hcall)⟩
  · cases h

theorem step_opened_eq_ok {t paren : Token} {f : Expr} {stack : List Frame} {s : State}
    (h : step T t (.opened paren f stack) = .ok s) :
    (t.type = .rightParen ∧ ∃ call, s = .complete call stack ∧
      Expr.newCall (some paren) (some f) [] = .ok call) ∨
    begin T (expression (.argument paren f [] :: stack)) t = .ok s := by
  rw [step] at h
  split at h
  · obtain ⟨call, hcall, hs⟩ := Expr.bind_eq_ok.mp h
    exact Or.inl ⟨‹_›, call, (Except.ok.inj hs).symm, ofNode_eq_ok.mp (taken_eq_ok.mp hcall)⟩
  · exact Or.inr h

theorem step_complete_eq_ok {t : Token} {e : Expr} {stack : List Frame} {s : State}
    (h : step T t (.complete e stack) = .ok s) :
    (t.type = .leftParen ∧ s = .opened t e stack) ∨ settle T t e stack = .ok s := by
  rw [step] at h
  split at h
  · exact Or.inl ⟨‹_›, (Except.ok.inj h).symm⟩
  · exact Or.inr h

/-- **What every accepted token keeps, a whole run keeps**: a property of states that the tokens
keep holds when the end of the expression is reached. -/
theorem run_induct {P : State → List Token → Prop} {last : Token} {us : List Token}
    (hstep : ∀ s s' ts, ∀ t ∈ us, P s ts → step T t s = .ok s' → P s' (ts ++ [t])) :
    ∀ (s : State) (ts : List Token) (e : Expr), P s ts → (run T last s us).result = .ok e →
      ∃ s', P s' (ts ++ us) ∧ step T last s' = .ok (.finished e) := by
  induction us with
  | nil =>
    intro s ts e hs h
    rw [run] at h
    refine ⟨s, by rwa [List.append_nil], ?_⟩
    split at h
    · rename_i hfin
      obtain rfl := Except.ok.inj h
      exact hfin
    · cases h
    · cases h
  | cons t us ih =>
    intro s ts e hs h
    rw [run] at h
    split at h
    · rename_i s' hs'
      obtain ⟨s'', hend, hfin⟩ := ih (fun s s' ts t ht => hstep s s' ts t (List.mem_cons_of_mem _ ht))
        s' (ts ++ [t]) e (hstep s s' ts t (by simp) hs hs') h
      exact ⟨s'', by rwa [List.append_assoc] at hend, hfin⟩
    · cases h

end Fixity.Parser
