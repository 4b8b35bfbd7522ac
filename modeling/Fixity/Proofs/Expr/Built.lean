import Fixity.Expr
import Mathlib.Data.List.Forall2

/-!
# Built trees

The trees that the functions `Expr.newLiteral`, …, `Expr.newCall` make, one on top of the other.
Each of these functions succeeds exactly when its token belongs to the node and the node is not too
deep, and then gives the node with the depth that its children have, plus one:

    newUnary op x = .ok (unary op x (x.depth + 1))

so a built tree is taken apart by `Built.induct`, which has these conditions as hypotheses.
-/

namespace Fixity.Expr

def deepest (es : List Expr) : Nat := es.foldl (fun d e => max d e.depth) 0

@[simp] theorem deepest_singleton (e : Expr) : deepest [e] = e.depth := by simp [deepest]

@[simp] theorem deepest_pair (l r : Expr) : deepest [l, r] = max l.depth r.depth := by
  simp [deepest]

theorem deepest_eq_foldl_map (es : List Expr) : deepest es = (es.map depth).foldl max 0 := by
  rw [deepest, List.foldl_map]

theorem deepest_congr {es es' : List Expr}
    (h : List.Forall₂ (fun e e' => e'.depth = e.depth) es es') : deepest es' = deepest es := by
  have hmap : es'.map depth = es.map depth := by
    induction h with
    | nil => rfl
    | cons hd _ ih => rw [List.map_cons, List.map_cons, hd, ih]
  rw [deepest_eq_foldl_map, deepest_eq_foldl_map, hmap]

/-! ### When a node is made -/

theorem present_eq_ok {role : TokenRole} {token : Option Token} {t : Token} :
    present role token = .ok t ↔ token = some t := by
  cases token with
  | none => simp [present]
  | some s => simp [present]

theorem require_eq_ok {t : Token} {ok : Bool} {fault : NodeFault} {u : Unit} :
    require t ok fault = .ok u ↔ ok = true := by
  cases ok <;> simp [require]

theorem operand_eq_ok {t : Token} {n : Nat} {x : Option Expr} {e : Expr} :
    operand t n x = .ok e ↔ x = some e := by
  cases x with
  | none => simp [operand]
  | some y => simp [operand]

theorem depthOver_eq_ok {t : Token} {es : List Expr} {d : Nat} :
    depthOver t es = .ok d ↔ deepest es < maxDepth ∧ d = deepest es + 1 := by
  rw [depthOver, ← deepest]
  split
  case isTrue h => simp; omega
  case isFalse h => simp; omega

theorem bind_eq_ok {ε α β : Type} {x : Except ε α} {f : α → Except ε β} {b : β} :
    (x >>= f) = .ok b ↔ ∃ a, x = .ok a ∧ f a = .ok b := by
  cases x with
  | error e => simp [bind, Except.bind]
  | ok a => simp [bind, Except.bind]

theorem mapError_eq_ok {ε ε' α : Type} {f : ε → ε'} {x : Except ε α} {a : α} :
    x.mapError f = .ok a ↔ x = .ok a := by
  cases x with
  | error e => simp [Except.mapError]
  | ok b => simp [Except.mapError]

theorem map_eq_ok {ε α β : Type} {f : α → β} {x : Except ε α} {b : β} :
    x.map f = .ok b ↔ ∃ a, x = .ok a ∧ f a = b := by
  cases x with
  | error e => simp [Except.map]
  | ok a => simp [Except.map]

theorem operands_eq_ok {t : Token} : ∀ {n : Nat} {xs : List (Option Expr)} {es : List Expr},
    operands t n xs = .ok es ↔ xs = es.map some
  | n, [], es => by
    have h : operands t n [] = .ok [] := rfl
    rw [h]
    cases es <;> simp
  | n, x :: xs, es => by
    have h : operands t n (x :: xs) =
        (operand t n x >>= fun e => operands t (n + 1) xs >>= fun es => pure (e :: es)) := by
      simp [operands, List.zipIdx_cons]
    rw [h, bind_eq_ok]
    constructor
    · rintro ⟨e, he, hes⟩
      obtain ⟨es', hes', hpure⟩ := bind_eq_ok.mp hes
      rw [operand_eq_ok.mp he, operands_eq_ok.mp hes', ← Except.ok.inj hpure, List.map_cons]
    · intro hxs
      cases es with
      | nil => simp at hxs
      | cons e es =>
        obtain ⟨rfl, rfl⟩ := List.cons.inj hxs
        exact ⟨e, rfl, bind_eq_ok.mpr ⟨es, operands_eq_ok.mpr rfl, rfl⟩⟩

theorem newLiteral_eq_ok {token : Option Token} {e : Expr} :
    newLiteral token = .ok e ↔ ∃ t, token = some t ∧ t.type.isLiteral = true ∧
      t.lexeme.isEmpty = false ∧ Spelling.isLiteral t.type t.lexeme = true ∧ e = .literal t := by
  simp only [newLiteral, bind_eq_ok, present_eq_ok, require_eq_ok, Bool.not_eq_true']
  constructor
  · rintro ⟨t, rfl, -, hl, -, hne, -, hs, hpure⟩
    exact ⟨t, rfl, hl, hne, hs, (Except.ok.inj hpure).symm⟩
  · rintro ⟨t, rfl, hl, hne, hs, rfl⟩
    exact ⟨t, rfl, (), hl, (), hne, (), hs, rfl⟩

theorem type_of_isLiteral {type : TokenType} (h : type.isLiteral = true) :
    type = .number ∨ type = .string ∨ type = .trueWord ∨ type = .falseWord ∨ type = .nilWord := by
  cases type <;> simp_all [TokenType.isLiteral]

theorem newLiteral_of_isLiteral {t : Token} (ht : t.type.isLiteral = true)
    (hs : Spelling.isLiteral t.type t.lexeme = true) : newLiteral (some t) = .ok (.literal t) := by
  have hempty : t.lexeme.isEmpty = false := by
    cases hn : t.lexeme with
    | cons b bs => rfl
    | nil =>
      rw [hn] at hs
      rcases type_of_isLiteral ht with h | h | h | h | h <;> rw [h] at hs <;> revert hs <;> decide
  exact newLiteral_eq_ok.mpr ⟨t, rfl, ht, hempty, hs, rfl⟩

theorem newIdent_eq_ok {name : Option Token} {e : Expr} :
    newIdent name = .ok e ↔ ∃ t, name = some t ∧ t.type = .identifier ∧
      Spelling.isIdentifier t.lexeme = true ∧ e = .ident t := by
  simp only [newIdent, bind_eq_ok, present_eq_ok, require_eq_ok, Bool.and_eq_true, beq_iff_eq]
  constructor
  · rintro ⟨t, rfl, -, ⟨ht, hs⟩, hpure⟩
    exact ⟨t, rfl, ht, hs, (Except.ok.inj hpure).symm⟩
  · rintro ⟨t, rfl, ht, hs, rfl⟩
    exact ⟨t, rfl, (), ⟨ht, hs⟩, rfl⟩

theorem newUnary_eq_ok {op : Option Token} {x : Option Expr} {e : Expr} :
    newUnary op x = .ok e ↔ ∃ t y, op = some t ∧ x = some y ∧ t.type.isUnary = true ∧
      y.depth < maxDepth ∧ e = .unary t y (y.depth + 1) := by
  simp only [newUnary, bind_eq_ok, present_eq_ok, require_eq_ok, operand_eq_ok, depthOver_eq_ok,
    deepest_singleton]
  constructor
  · rintro ⟨t, rfl, -, hu, y, rfl, d, ⟨hd, rfl⟩, hpure⟩
    exact ⟨t, y, rfl, rfl, hu, hd, (Except.ok.inj hpure).symm⟩
  · rintro ⟨t, y, rfl, rfl, hu, hd, rfl⟩
    exact ⟨t, rfl, (), hu, y, rfl, _, ⟨hd, rfl⟩, rfl⟩

theorem newBinary_eq_ok {c : Category} {op : Option Token} {x y : Option Expr} {e : Expr} :
    newBinary c op x y = .ok e ↔ ∃ t l r, op = some t ∧ x = some l ∧ y = some r ∧
      t.type.category? = some c ∧ max l.depth r.depth < maxDepth ∧
      e = .binary c t l r (max l.depth r.depth + 1) := by
  simp only [newBinary, bind_eq_ok, present_eq_ok, require_eq_ok, operand_eq_ok, depthOver_eq_ok,
    deepest_pair, beq_iff_eq]
  constructor
  · rintro ⟨t, rfl, -, hc, l, rfl, r, rfl, d, ⟨hd, rfl⟩, hpure⟩
    exact ⟨t, l, r, rfl, rfl, rfl, hc, hd, (Except.ok.inj hpure).symm⟩
  · rintro ⟨t, l, r, rfl, rfl, rfl, hc, hd, rfl⟩
    exact ⟨t, rfl, (), hc, l, rfl, r, rfl, _, ⟨hd, rfl⟩, rfl⟩

theorem newCall_eq_ok {paren : Option Token} {callee : Option Expr} {xs : List (Option Expr)}
    {e : Expr} :
    newCall paren callee xs = .ok e ↔ ∃ t f args, paren = some t ∧ callee = some f ∧
      xs = args.map some ∧ t.type = .leftParen ∧ deepest (f :: args) < maxDepth ∧
      e = .call t f args (deepest (f :: args) + 1) := by
  simp only [newCall, bind_eq_ok, present_eq_ok, require_eq_ok, operand_eq_ok, operands_eq_ok,
    depthOver_eq_ok, beq_iff_eq]
  constructor
  · rintro ⟨t, rfl, -, ht, f, rfl, args, rfl, d, ⟨hd, rfl⟩, hpure⟩
    exact ⟨t, f, args, rfl, rfl, rfl, ht, hd, (Except.ok.inj hpure).symm⟩
  · rintro ⟨t, f, args, rfl, rfl, rfl, ht, hd, rfl⟩
    exact ⟨t, rfl, (), ht, f, rfl, args, rfl, _, ⟨hd, rfl⟩, rfl⟩

/-! ### Nodes of given parts -/

section parts

variable {t : Token} {e f l r x : Expr} {args : List Expr} {c : Category}

theorem newLiteral_some_eq_ok : newLiteral (some t) = .ok e ↔ t.type.isLiteral = true ∧
    Spelling.isLiteral t.type t.lexeme = true ∧ e = .literal t := by
  constructor
  · intro h
    obtain ⟨_, ht, hl, -, hs, rfl⟩ := newLiteral_eq_ok.mp h
    obtain rfl := Option.some.inj ht
    exact ⟨hl, hs, rfl⟩
  · rintro ⟨hl, hs, rfl⟩
    exact newLiteral_of_isLiteral hl hs

theorem newIdent_some_eq_ok : newIdent (some t) = .ok e ↔ t.type = .identifier ∧
    Spelling.isIdentifier t.lexeme = true ∧ e = .ident t := by
  constructor
  · intro h
    obtain ⟨_, ht, h⟩ := newIdent_eq_ok.mp h
    obtain rfl := Option.some.inj ht
    exact h
  · exact fun h => newIdent_eq_ok.mpr ⟨t, rfl, h⟩

theorem newUnary_some_eq_ok : newUnary (some t) (some x) = .ok e ↔ t.type.isUnary = true ∧
    x.depth < maxDepth ∧ e = .unary t x (x.depth + 1) := by
  constructor
  · intro h
    obtain ⟨_, _, ht, hx, h⟩ := newUnary_eq_ok.mp h
    obtain rfl := Option.some.inj ht
    obtain rfl := Option.some.inj hx
    exact h
  · exact fun h => newUnary_eq_ok.mpr ⟨t, x, rfl, rfl, h⟩

theorem newBinary_some_eq_ok : newBinary c (some t) (some l) (some r) = .ok e ↔
    t.type.category? = some c ∧ max l.depth r.depth < maxDepth ∧
      e = .binary c t l r (max l.depth r.depth + 1) := by
  constructor
  · intro h
    obtain ⟨_, _, _, ht, hl, hr, h⟩ := newBinary_eq_ok.mp h
    obtain rfl := Option.some.inj ht
    obtain rfl := Option.some.inj hl
    obtain rfl := Option.some.inj hr
    exact h
  · exact fun h => newBinary_eq_ok.mpr ⟨t, l, r, rfl, rfl, rfl, h⟩

theorem newCall_some_eq_ok : newCall (some t) (some f) (args.map some) = .ok e ↔
    t.type = .leftParen ∧ deepest (f :: args) < maxDepth ∧
      e = .call t f args (deepest (f :: args) + 1) := by
  constructor
  · intro h
    obtain ⟨_, _, _, ht, hf, hargs, h⟩ := newCall_eq_ok.mp h
    obtain rfl := Option.some.inj ht
    obtain rfl := Option.some.inj hf
    obtain rfl := (List.map_inj_right fun _ _ => Option.some.inj).mp hargs
    exact h
  · exact fun h => newCall_eq_ok.mpr ⟨t, f, args, rfl, rfl, rfl, h⟩

theorem newCall_nil_eq_ok : newCall (some t) (some f) [] = .ok e ↔
    t.type = .leftParen ∧ f.depth < maxDepth ∧ e = .call t f [] (f.depth + 1) := by
  have h : newCall (some t) (some f) (([] : List Expr).map some) = .ok e ↔ _ := newCall_some_eq_ok
  rwa [List.map_nil, deepest_singleton] at h

/-! ### Nodes that only their depth can refuse -/

def limited (e : Expr) : Except NodeError Expr :=
  if maxDepth < e.depth then .error ⟨some e.token, .tooDeep⟩ else .ok e

/-- A node whose token belongs to it and whose operands are there. -/
theorem require_depthOver_eq (node : Nat → Expr) (htoken : ∀ d, (node d).token = t)
    (hdepth : ∀ d, (node d).depth = d) {ok : Bool} {fault : NodeFault} (h : ok = true)
    (es : List Expr) : (do require t ok fault; return node (← depthOver t es)) =
      limited (node (deepest es + 1)) := by
  rw [require, if_pos h, depthOver, ← deepest, limited, htoken, hdepth]
  split <;> rfl

theorem newUnary_of_isUnary (h : t.type.isUnary = true) :
    newUnary (some t) (some x) = limited (.unary t x (x.depth + 1)) := by
  rw [← deepest_singleton]
  exact require_depthOver_eq (.unary t x) (fun _ => rfl) (fun _ => rfl) h [x]

theorem newBinary_of_category? (h : t.type.category? = some c) :
    newBinary c (some t) (some l) (some r) =
      limited (.binary c t l r (max l.depth r.depth + 1)) := by
  rw [← deepest_pair]
  exact require_depthOver_eq (.binary c t l r) (fun _ => rfl) (fun _ => rfl)
    (beq_iff_eq.mpr h) [l, r]

theorem newCall_of_leftParen (h : t.type = .leftParen) :
    newCall (some t) (some f) (args.map some) =
      limited (.call t f args (deepest (f :: args) + 1)) := by
  have hargs : operands t 2 (args.map some) = .ok args := operands_eq_ok.mpr rfl
  have hcall : newCall (some t) (some f) (args.map some) =
      (do require t (t.type == .leftParen) .notCall
          let args ← operands t 2 (args.map some)
          return call t f args (← depthOver t (f :: args))) := rfl
  rw [hcall, hargs]
  exact require_depthOver_eq (.call t f args) (fun _ => rfl) (fun _ => rfl)
    (beq_iff_eq.mpr h) (f :: args)

theorem newCall_nil_of_leftParen (h : t.type = .leftParen) :
    newCall (some t) (some f) [] = limited (.call t f [] (f.depth + 1)) := by
  have hcall : newCall (some t) (some f) (([] : List Expr).map some) = _ := newCall_of_leftParen h
  rwa [List.map_nil, deepest_singleton] at hcall

end parts

/-! ### Built trees -/

/-- The tree was made by the functions that make nodes; no subscript is among its nodes. -/
inductive Built : Expr → Prop
  | literal {token : Option Token} {e : Expr} : newLiteral token = .ok e → Built e
  | ident {name : Option Token} {e : Expr} : newIdent name = .ok e → Built e
  | unary {op : Option Token} {x e : Expr} : Built x → newUnary op (some x) = .ok e → Built e
  | binary {c : Category} {op : Option Token} {l r e : Expr} :
      Built l → Built r → newBinary c op (some l) (some r) = .ok e → Built e
  | call {paren : Option Token} {f e : Expr} {args : List Expr} :
      Built f → (∀ a ∈ args, Built a) → newCall paren (some f) (args.map some) = .ok e → Built e

/-- **Induction on built trees**, with what the constructors have checked. -/
theorem Built.induct {motive : (e : Expr) → Built e → Prop}
    (literal : ∀ (t : Token) (h : Built (.literal t)), t.type.isLiteral = true →
      Spelling.isLiteral t.type t.lexeme = true → motive (.literal t) h)
    (ident : ∀ (t : Token) (h : Built (.ident t)), t.type = .identifier →
      Spelling.isIdentifier t.lexeme = true → motive (.ident t) h)
    (unary : ∀ (op : Token) (x : Expr) (h : Built (.unary op x (x.depth + 1))),
      op.type.isUnary = true → x.depth < maxDepth → ∀ hx : Built x, motive x hx → motive _ h)
    (binary : ∀ (c : Category) (op : Token) (l r : Expr)
      (h : Built (.binary c op l r (max l.depth r.depth + 1))), op.type.category? = some c →
      max l.depth r.depth < maxDepth → ∀ (hl : Built l) (hr : Built r), motive l hl →
      motive r hr → motive _ h)
    (call : ∀ (paren : Token) (f : Expr) (args : List Expr)
      (h : Built (.call paren f args (deepest (f :: args) + 1))), paren.type = .leftParen →
      deepest (f :: args) < maxDepth → ∀ (hf : Built f) (hargs : ∀ a ∈ args, Built a),
      motive f hf → (∀ a ha, motive a (hargs a ha)) → motive _ h)
    {e : Expr} (h : Built e) : motive e h := by
  induction h with
  | literal hok =>
    obtain ⟨t, -, hl, -, hs, rfl⟩ := newLiteral_eq_ok.mp hok
    exact literal t _ hl hs
  | ident hok =>
    obtain ⟨t, -, ht, hs, rfl⟩ := newIdent_eq_ok.mp hok
    exact ident t _ ht hs
  | unary hx hok ih =>
    obtain ⟨t, y, -, hy, hu, hd, rfl⟩ := newUnary_eq_ok.mp hok
    obtain rfl := Option.some.inj hy
    exact unary t _ _ hu hd hx ih
  | binary hl hr hok ihl ihr =>
    obtain ⟨t, l, r, -, hl', hr', hc, hd, rfl⟩ := newBinary_eq_ok.mp hok
    obtain rfl := Option.some.inj hl'
    obtain rfl := Option.some.inj hr'
    exact binary _ t _ _ _ hc hd hl hr ihl ihr
  | call hf hargs hok ihf ihargs =>
    obtain ⟨t, f, args, -, hf', hargs', ht, hd, rfl⟩ := newCall_eq_ok.mp hok
    obtain rfl := Option.some.inj hf'
    obtain rfl := (List.map_inj_right fun _ _ => Option.some.inj).mp hargs'
    exact call t _ _ _ ht hd hf hargs ihf ihargs

/-- What the function that made a node has checked, with what it was made from. -/
def Checked : Expr → Prop
  | .literal t => t.type.isLiteral = true ∧ Spelling.isLiteral t.type t.lexeme = true
  | .ident t => t.type = .identifier ∧ Spelling.isIdentifier t.lexeme = true
  | .unary op x d => op.type.isUnary = true ∧ x.depth < maxDepth ∧ d = x.depth + 1 ∧ Built x
  | .binary c op l r d => op.type.category? = some c ∧ max l.depth r.depth < maxDepth ∧
      d = max l.depth r.depth + 1 ∧ Built l ∧ Built r
  | .call p f args d => p.type = .leftParen ∧ deepest (f :: args) < maxDepth ∧
      d = deepest (f :: args) + 1 ∧ Built f ∧ ∀ a ∈ args, Built a
  | .subscript .. => False

theorem Built.checked {e : Expr} (h : Built e) : e.Checked := by
  induction h using Built.induct with
  | literal t _ ht hs => exact ⟨ht, hs⟩
  | ident t _ ht hs => exact ⟨ht, hs⟩
  | unary op x _ hu hd hx _ => exact ⟨hu, hd, rfl, hx⟩
  | binary c op l r _ hc hd hl hr _ _ => exact ⟨hc, hd, rfl, hl, hr⟩
  | call p f args _ hp hd hf hargs _ _ => exact ⟨hp, hd, rfl, hf, hargs⟩

theorem Built.child {e c : Expr} (h : Built e) (hc : c ∈ e.children) : Built c := by
  have hchecked := h.checked
  cases e with
  | literal t => cases hc
  | ident t => cases hc
  | unary op x d =>
    obtain rfl := List.mem_singleton.mp hc
    exact hchecked.2.2.2
  | binary c' op l r d =>
    rcases List.mem_cons.mp hc with rfl | hc
    · exact hchecked.2.2.2.1
    · obtain rfl := List.mem_singleton.mp hc
      exact hchecked.2.2.2.2
  | call p f args d =>
    rcases List.mem_cons.mp hc with rfl | hc
    · exact hchecked.2.2.2.1
    · exact hchecked.2.2.2.2 _ hc
  | subscript b x i d => exact hchecked.elim

/-! ### The tokens of built trees -/

theorem exists_op_of_category? {type : TokenType} {c : Category} (h : type.category? = some c) :
    ∃ o, type = .op o := by
  cases type with
  | op o => exact ⟨o, rfl⟩
  | _ => cases h

theorem exists_op_of_isUnary {type : TokenType} (h : type.isUnary = true) :
    ∃ o, type = .op o ∧ o.isUnary = true := by
  cases type with
  | op o => exact ⟨o, rfl, h⟩
  | _ => cases h

/-- The token of a node is that of a leaf, a parenthesis or an operator. -/
theorem Built.token_cases {e : Expr} (h : Built e) :
    (e.children = [] ∧ e.token.type.isLiteral = true ∧
        Spelling.isLiteral e.token.type e.token.lexeme = true) ∨
      (e.children = [] ∧ e.token.type = .identifier) ∨
      e.token.type = .leftParen ∨ ∃ o, e.token.type = .op o := by
  induction h using Built.induct with
  | literal t _ ht hs => exact Or.inl ⟨rfl, ht, hs⟩
  | ident t _ ht _ => exact Or.inr (Or.inl ⟨rfl, ht⟩)
  | unary op _ _ hu _ _ _ =>
    obtain ⟨o, ho, -⟩ := exists_op_of_isUnary hu
    exact Or.inr (Or.inr (Or.inr ⟨o, ho⟩))
  | binary _ op _ _ _ hc _ _ _ _ _ =>
    obtain ⟨o, ho⟩ := exists_op_of_category? hc
    exact Or.inr (Or.inr (Or.inr ⟨o, ho⟩))
  | call _ _ _ _ hp _ _ _ _ _ => exact Or.inr (Or.inr (Or.inl hp))

theorem Built.isLiteral {e : Expr} (h : Built e) (htype : e.token.type.isLiteral = true) :
    Spelling.isLiteral e.token.type e.token.lexeme = true := by
  rcases h.token_cases with ⟨-, -, hs⟩ | ⟨-, ht⟩ | ht | ⟨o, ht⟩
  · exact hs
  all_goals
    rw [ht] at htype
    cases htype

theorem Built.isNumber {e : Expr} (h : Built e) (htype : e.token.type = .number) :
    Spelling.isNumber e.token.lexeme = true := by
  have hs := h.isLiteral (by rw [htype]; rfl)
  rwa [htype] at hs

theorem Built.isString {e : Expr} (h : Built e) (htype : e.token.type = .string) :
    Spelling.isString e.token.lexeme = true := by
  have hs := h.isLiteral (by rw [htype]; rfl)
  rwa [htype] at hs

theorem Built.isIdentifier {e : Expr} (h : Built e) (htype : e.token.type = .identifier) :
    Spelling.isIdentifier e.token.lexeme = true := by
  induction h using Built.induct with
  | literal t _ ht _ =>
    have htype : t.type = .identifier := htype
    rw [htype] at ht
    cases ht
  | ident t _ _ hs => exact hs
  | unary op _ _ hu _ _ _ =>
    have htype : op.type = .identifier := htype
    rw [htype] at hu
    cases hu
  | binary _ op _ _ _ hc _ _ _ _ _ =>
    have htype : op.type = .identifier := htype
    rw [htype] at hc
    cases hc
  | call p _ _ _ hp _ _ _ _ _ => exact absurd (hp.symm.trans htype) (by simp)

theorem Built.children_eq_nil {e : Expr} (h : Built e) (htype : e.token.type.isLiteral = true) :
    e.children = [] := by
  rcases h.token_cases with ⟨hleaf, -, -⟩ | ⟨hleaf, -⟩ | ht | ⟨o, ht⟩
  · exact hleaf
  · exact hleaf
  all_goals
    rw [ht] at htype
    cases htype

theorem Built.type_ne_string {e : Expr} (h : Built e) (hc : e.children ≠ []) :
    e.token.type ≠ .string := by
  intro htype
  rcases h.token_cases with ⟨hleaf, -, -⟩ | ⟨hleaf, -⟩ | ht | ⟨o, ht⟩
  · exact hc hleaf
  · exact hc hleaf
  all_goals
    rw [ht] at htype
    cases htype

end Fixity.Expr
