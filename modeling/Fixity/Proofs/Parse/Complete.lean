import Fixity.Proofs.Expr.Nodes
import Fixity.Proofs.Expr.Same
import Fixity.Proofs.Parse.Feed
import Fixity.Proofs.Parse.Grouping

/-!
# Parenthesisations are parsed

Under a well-typed table, the parser reads every parenthesisation of a tree as that tree
(`run_of_parenthesised`).  While an operand is read, the frames below it do not matter, so what is
proved of each part of a source text is about any stack:

* a tree of a precedence that the innermost `climb` lets through leaves the parser in a state that
  hands the tree to that `climb` as soon as a token comes that does not go on with it (`Follows`);
* a leaf, a call or a tree in parentheses is complete at once, on any stack.
-/

/-! ### Nodes of the same sort whose children are alike -/

namespace Fixity.Expr

theorem Alike.literal {s t : Token} (htype : s.type = t.type) (hlex : s.lexeme = t.lexeme) :
    Alike (.literal s) (.literal t) :=
  alike_iff.mpr ⟨rfl, htype, fun _ => hlex, .nil⟩

theorem Alike.ident {s t : Token} (htype : s.type = t.type) (hlex : s.lexeme = t.lexeme) :
    Alike (.ident s) (.ident t) :=
  alike_iff.mpr ⟨rfl, htype, fun _ => hlex, .nil⟩

theorem Alike.unary {s t : Token} {x y : Expr} {d d' : Nat} (htype : s.type = t.type)
    (hx : Alike x y) : Alike (.unary s x d) (.unary t y d') :=
  alike_iff.mpr ⟨rfl, htype, fun hnil => by simp [children] at hnil, .cons hx .nil⟩

theorem Alike.binary {c : Category} {s t : Token} {l l' r r' : Expr} {d d' : Nat}
    (htype : s.type = t.type) (hl : Alike l l') (hr : Alike r r') :
    Alike (.binary c s l r d) (.binary c t l' r' d') :=
  alike_iff.mpr ⟨rfl, htype, fun hnil => by simp [children] at hnil, .cons hl (.cons hr .nil)⟩

theorem Alike.call {s t : Token} {f f' : Expr} {args args' : List Expr} {d d' : Nat}
    (htype : s.type = t.type) (hf : Alike f f') (hargs : List.Forall₂ Alike args args') :
    Alike (.call s f args d) (.call t f' args' d') :=
  alike_iff.mpr ⟨rfl, htype, fun hnil => by simp [children] at hnil, .cons hf hargs⟩

end Fixity.Expr

namespace Fixity.Parser

open Fixity.Expr

variable {T : Table}

/-- The token does not take the right end of the tree away from it: it is no binary operator, or one
that binds looser, or one of the same level that groups to the left. -/
def Follows (T : Table) (e : Expr) (t : Token) : Prop :=
  ∀ op, T.binary? t.type = some op → op.precedence < e.precedence T ∨
    op.precedence = e.precedence T ∧ op.assoc ≠ .right ∧ op.assoc ≠ .none

def Copy (e e' : Expr) : Prop := Alike e e' ∧ e'.depth = e.depth

/-- The parser reads the tokens as the tree. -/
structure ReadsAs (T : Table) (needed : Bool) (e : Expr) (ts : List Token) : Prop where
  /-- Below operators that it binds tighter than. -/
  operand : ∀ (least : Int) (stack : List Frame), (needed = false → least ≤ e.precedence T) →
    ∃ s e', Copy e e' ∧ feed T (.expect (.climb least :: stack)) ts = .ok s ∧
      ∀ t : Token, t.type ≠ .leftParen → (needed = false → Follows T e t) →
        step T t s = settle T t e' (.climb least :: stack)
  /-- As something that can be called. -/
  callee : (needed = false → 1000 ≤ e.precedence T) → ∀ stack : List Frame,
    ∃ e', Copy e e' ∧ feed T (.expect stack) ts = .ok (.complete e' stack)

def ReadsArgs (T : Table) (es : List Expr) (ts : List Token) : Prop :=
  ∀ (paren : Token) (f : Expr) (read : List Expr) (stack : List Frame), ∃ s es',
    List.Forall₂ Copy es es' ∧
      feed T (.expect (expression (.argument paren f read :: stack))) ts = .ok s ∧
      ∀ (q : Token) (e : Expr), q.type = .rightParen →
        newCall (some paren) (some f) ((read.reverse ++ es').map some) = .ok e →
        step T q s = .ok (.complete e stack)

/-- What is complete on any stack can be an operand as well. -/
theorem ReadsAs.of_callee {needed : Bool} {e : Expr} {ts : List Token}
    (h : ∀ stack : List Frame,
      ∃ e', Copy e e' ∧ feed T (.expect stack) ts = .ok (.complete e' stack)) :
    ReadsAs T needed e ts where
  operand least stack _ := by
    obtain ⟨e', hcopy, hfeed⟩ := h (.climb least :: stack)
    refine ⟨_, e', hcopy, hfeed, fun t ht _ => ?_⟩
    rw [step, if_neg ht]
  callee _ := h

/-! ### Leaves -/

theorem readsAs_literal (hT : T.Coherent) {s t : Token} {needed : Bool}
    (ht : t.Spells s.type s.lexeme) (hs : s.type.isLiteral = true)
    (hsp : Spelling.isLiteral s.type s.lexeme = true) :
    ReadsAs T needed (.literal s) [t] := by
  obtain ⟨htype, hlex, -⟩ := ht
  have hnew : newLiteral (some t) = .ok (.literal t) :=
    newLiteral_of_isLiteral (by rwa [htype]) (by rwa [htype, hlex])
  refine .of_callee fun stack => ⟨_, ⟨Alike.literal htype.symm hlex.symm, rfl⟩, ?_⟩
  rw [feed_singleton, step, begin]
  rcases type_of_isLiteral hs with h | h | h | h | h <;>
    · rw [h] at htype
      rw [htype, hT.unary?_eq_none rfl, hnew]
      rfl

theorem readsAs_ident (hT : T.Coherent) {s t : Token} {needed : Bool}
    (ht : t.Spells s.type s.lexeme) (hs : s.type = .identifier)
    (hsp : Spelling.isIdentifier s.lexeme = true) : ReadsAs T needed (.ident s) [t] := by
  obtain ⟨htype, hlex, -⟩ := ht
  have hnew : newIdent (some t) = .ok (.ident t) :=
    newIdent_some_eq_ok.mpr ⟨htype.trans hs, by rwa [hlex], rfl⟩
  refine .of_callee fun stack => ⟨_, ⟨Alike.ident htype.symm hlex.symm, rfl⟩, ?_⟩
  rw [hs] at htype
  rw [feed_singleton, step, begin, htype, hT.unary?_eq_none rfl, hnew]
  rfl

/-! ### Operations -/

theorem precedence_unary {op : Token} {x : Expr} {d : Nat} {u : UnaryOp}
    (hu : T.unary? op.type = some u) : (Expr.unary op x d).precedence T = u.precedence := by
  simp [precedence, hu]

theorem unaryLevel_of_unary? {type : TokenType} {u : UnaryOp} (hu : T.unary? type = some u) :
    unaryLevel T type = u.precedence := by
  simp [unaryLevel, hu]

theorem precedence_binary {c : Category} {op : Token} {l r : Expr} {d : Nat} {b : BinaryOp}
    (hb : T.binary? op.type = some b) : (Expr.binary c op l r d).precedence T = b.precedence := by
  rw [precedence, Table.binding_of_binary? hb]

theorem readsAs_unary (hT : T.Coherent) {op o : Token} {x : Expr} {ts : List Token}
    {u : UnaryOp} (hu : T.unary? op.type = some u) (ho : o.Spells op.type op.type.name)
    (hdepth : x.depth < maxDepth)
    (hx : ReadsAs T (needsParens (x.precedence T) ⟨unaryLevel T op.type, .right⟩ .right) x ts) :
    ReadsAs T false (.unary op x (x.depth + 1)) (o :: ts) := by
  have hlevel := hT.regular.unary?_level hu
  have hbegin : ∀ stack : List Frame, step T o (.expect stack) =
      .ok (.expect (.climb u.precedence :: .operand o :: stack)) := by
    intro stack
    have hunary : o.type.isUnary = true := ho.1 ▸ hT.isUnary_of_unary? hu
    have heof : o.type ≠ .eof := by
      intro he
      rw [he] at hunary
      exact absurd hunary (by decide)
    rw [step, begin, if_neg heof, ho.1, hu]
  rw [unaryLevel_of_unary? hu] at hx
  constructor
  · intro least stack _
    obtain ⟨s, x', ⟨halike, hd⟩, hfeed, hnext⟩ :=
      hx.operand u.precedence (.operand o :: .climb least :: stack)
        needsParens_prefix_eq_false.mp
    refine ⟨s, .unary o x' (x.depth + 1), ⟨.unary ho.1.symm halike, rfl⟩, ?_, ?_⟩
    · rw [feed_cons_of_ok ts (hbegin _), hfeed]
    · intro t ht hfollows
      -- an operator at the level of the prefix operator itself is excluded by the table
      have hlt : ∀ b, T.binary? t.type = some b → b.precedence < u.precedence := by
        intro b hb
        rcases hfollows rfl b hb with h | ⟨h, -⟩
        · rwa [precedence_unary hu] at h
        · rw [precedence_unary hu] at h
          exact absurd h.symm (hT.regular.unary_ne_binary hu hb)
      have hnew : newUnary (some o) (some x') = .ok (.unary o x' (x.depth + 1)) :=
        newUnary_some_eq_ok.mpr ⟨ho.1 ▸ hT.isUnary_of_unary? hu, hd ▸ hdepth, by rw [hd]⟩
      rw [hnext t ht fun hneed b hb =>
        Or.inl (Int.lt_of_lt_of_le (hlt b hb) (needsParens_prefix_eq_false.mp hneed)),
        settle_climb hlt, settle_operand hnew]
  · intro h
    have := h rfl
    rw [precedence_unary hu] at this
    omega

theorem needsParens_right_eq_false_iff_le {p : Int} {b : BinaryOp} :
    needsParens p ⟨b.precedence, b.assoc⟩ .right = false ↔ rightLeast b ≤ p := by
  rw [needsParens_right_eq_false]
  unfold rightLeast
  split
  · rename_i hassoc
    simp only [hassoc, and_true]
    omega
  · rename_i hassoc
    simp only [hassoc, and_false, or_false]
    omega

theorem readsAs_binary (hT : T.Coherent) {c : Category} {op o : Token} {l r : Expr}
    {ls rs : List Token} {b : BinaryOp} (hb : T.binary? op.type = some b)
    (hc : op.type.category? = some c) (ho : o.Spells op.type op.type.name)
    (hdepth : max l.depth r.depth < maxDepth)
    (hl : ReadsAs T (needsParens (l.precedence T) (T.binding op.type) .left) l ls)
    (hr : ReadsAs T (needsParens (r.precedence T) (T.binding op.type) .right) r rs) :
    ReadsAs T false (.binary c op l r (max l.depth r.depth + 1)) (ls ++ o :: rs) := by
  have hreg := hT.regular
  have hlevel := hreg.binary?_level hb
  have hob : T.binary? o.type = some b := ho.1 ▸ hb
  have hcat : o.type.category? = some b.builder := hT.category?_of_binary? hob
  have hcb : c = b.builder := by
    rw [ho.1, hc] at hcat
    exact Option.some.inj hcat
  have heof : o.type ≠ .eof := by
    intro he
    rw [he] at hcat
    exact absurd hcat (by simp [TokenType.category?])
  have hparen : o.type ≠ .leftParen := by
    intro he
    rw [he] at hcat
    exact absurd hcat (by simp [TokenType.category?])
  rw [Table.binding_of_binary? hb] at hl hr
  constructor
  · intro least stack hleast
    have hle : least ≤ b.precedence := precedence_binary hb ▸ hleast rfl
    -- the left operand, then the operator takes it
    obtain ⟨s, l', ⟨hal, hdl⟩, hfeedl, hnextl⟩ := hl.operand least stack fun hneed => by
      rcases needsParens_left_eq_false.mp hneed with h | ⟨h, -⟩ <;> omega
    have hop : step T o s =
        .ok (.expect (.climb (rightLeast b) :: .right b o l' :: .climb least :: stack)) := by
      rw [hnextl o hparen, settle_climb_of_le hob hle heof]
      intro hneed b' hb'
      obtain rfl := Option.some.inj (hob.symm.trans hb')
      rcases needsParens_left_eq_false.mp hneed with h | ⟨h, hassoc⟩
      · exact Or.inl h
      · exact Or.inr ⟨h, by simp [hassoc], by simp [hassoc]⟩
    -- the right operand
    obtain ⟨s', r', ⟨har, hdr⟩, hfeedr, hnextr⟩ :=
      hr.operand (rightLeast b) (.right b o l' :: .climb least :: stack)
        needsParens_right_eq_false_iff_le.mp
    have hnew : newBinary b.builder (some o) (some l') (some r') =
        .ok (.binary c o l' r' (max l.depth r.depth + 1)) :=
      newBinary_some_eq_ok.mpr ⟨hcat, by rwa [hdl, hdr], by rw [hdl, hdr, hcb]⟩
    refine ⟨s', _, ⟨Alike.binary ho.1.symm hal har, rfl⟩, ?_, ?_⟩
    · rw [feed_append_of_ok _ hfeedl, feed_cons_of_ok _ hop, hfeedr]
    · intro t ht hfollows
      have hfollows : ∀ b', T.binary? t.type = some b' → b'.precedence < b.precedence ∨
          b'.precedence = b.precedence ∧ b.assoc ≠ .right ∧ b.assoc ≠ .none := by
        intro b' hb'
        rcases hfollows rfl b' hb' with h | ⟨h, hassoc⟩
        · exact Or.inl (precedence_binary hb ▸ h)
        · rw [precedence_binary hb] at h
          rw [hreg.assoc_eq hb' hb h] at hassoc
          exact Or.inr ⟨h, hassoc⟩
      have hlt : ∀ b', T.binary? t.type = some b' → b'.precedence < rightLeast b := by
        intro b' hb'
        unfold rightLeast
        rcases hfollows b' hb' with h | ⟨h, hassoc, -⟩
        · split <;> omega
        · rw [if_neg hassoc]
          omega
      have hcheck : checkNonAssoc T b t = .ok () := by
        refine checkNonAssoc_eq_ok.mpr fun hnone b' hb' heq => ?_
        rcases hfollows b' hb' with h | ⟨-, -, hassoc⟩
        · omega
        · exact hassoc hnone
      have hright : needsParens (r.precedence T) ⟨b.precedence, b.assoc⟩ .right = false →
          Follows T r t := by
        intro hneed b' hb'
        rcases hfollows b' hb' with h | ⟨h, hassoc, -⟩
        · rcases needsParens_right_eq_false.mp hneed with h' | ⟨h', -⟩ <;> exact Or.inl (by omega)
        · rcases needsParens_right_eq_false.mp hneed with h' | ⟨-, h'⟩
          · exact Or.inl (by omega)
          · exact absurd h' hassoc
      rw [hnextr t ht hright, settle_climb hlt, settle_right hnew hcheck]
  · intro h
    have := h rfl
    rw [precedence_binary hb] at this
    omega

/-! ### Parentheses and calls -/

theorem lowest_lt_precedence (hT : T.Regular) {e : Expr} (h : e.HasEntry T) :
    Precedence.lowest + 1 ≤ e.precedence T := by
  show 1 ≤ e.precedence T
  cases e with
  | unary op x d =>
    obtain ⟨u, hu⟩ := Option.isSome_iff_exists.mp h
    have := hT.unary?_level hu
    rw [precedence_unary hu]
    omega
  | binary c op l r d =>
    obtain ⟨b, hb⟩ := Option.isSome_iff_exists.mp h
    have := hT.binary?_level hb
    rw [precedence_binary hb]
    omega
  | literal t => exact (by decide : (1 : Int) ≤ 1001)
  | ident t => exact (by decide : (1 : Int) ≤ 1001)
  | call p f args d => exact (by decide : (1 : Int) ≤ 1000)
  | subscript b x i d => exact (by decide : (1 : Int) ≤ 1000)

theorem readsAs_group (hT : T.Coherent) {needed : Bool} {e : Expr} {p q : Token}
    {ts : List Token} (hp : p.type = .leftParen) (hq : q.type = .rightParen)
    (hpos : Precedence.lowest + 1 ≤ e.precedence T) (he : ReadsAs T false e ts) :
    ReadsAs T needed e (p :: (ts ++ [q])) := by
  refine .of_callee fun stack => ?_
  have hopen : step T p (.expect stack) = .ok (.expect (expression (.group :: stack))) := by
    rw [step, begin, hp, hT.unary?_eq_none rfl]
    rfl
  have hclose : T.binary? q.type = none := hq ▸ hT.binary?_eq_none rfl
  obtain ⟨s, e', hcopy, hfeed, hnext⟩ := he.operand (Precedence.lowest + 1) (.group :: stack)
    fun _ => hpos
  refine ⟨e', hcopy, ?_⟩
  rw [feed_cons_of_ok _ hopen, expression, feed_append_of_ok _ hfeed, feed_singleton,
    hnext q (by simp [hq]) fun _ op hop => by simp [hclose] at hop,
    settle_climb fun op hop => by simp [hclose] at hop, settle, if_pos hq]

theorem feed_opened (hT : T.Coherent) {paren : Token} {f : Expr} {stack : List Frame}
    {ts : List Token} {s : State} (hts : ts ≠ [])
    (h : feed T (.expect (expression (.argument paren f [] :: stack))) ts = .ok s) :
    feed T (.opened paren f stack) ts = .ok s := by
  cases ts with
  | nil => exact absurd rfl hts
  | cons t ts =>
    have hne : t.type ≠ .rightParen := by
      intro ht
      rw [feed_cons, step, begin, ht, hT.unary?_eq_none rfl] at h
      cases h
    have hstep : step T t (.opened paren f stack) =
        step T t (.expect (expression (.argument paren f [] :: stack))) := by
      rw [step, step, if_neg hne]
    rwa [feed_cons, hstep, ← feed_cons]

theorem Copy.deepest_eq {es es' : List Expr} (h : List.Forall₂ Copy es es') :
    deepest es' = deepest es := deepest_congr (h.imp fun _ _ hc => hc.2)

theorem readsArgs_one (hT : T.Coherent) {e : Expr} {ts : List Token}
    (hpos : Precedence.lowest + 1 ≤ e.precedence T) (he : ReadsAs T false e ts) : ReadsArgs T [e] ts := by
  intro paren f read stack
  obtain ⟨s, e', hcopy, hfeed, hnext⟩ :=
    he.operand (Precedence.lowest + 1) (.argument paren f read :: stack) fun _ => hpos
  refine ⟨s, [e'], .cons hcopy .nil, hfeed, fun q call hq hcall => ?_⟩
  have hclose : T.binary? q.type = none := hq ▸ hT.binary?_eq_none rfl
  rw [hnext q (by simp [hq]) fun _ op hop => by simp [hclose] at hop,
    settle_climb fun op hop => by simp [hclose] at hop, settle, hq]
  simp only [List.reverse_cons, hcall]
  rfl

theorem readsArgs_more (hT : T.Coherent) {e : Expr} {es : List Expr} {comma : Token}
    {ts us : List Token} (hcomma : comma.type = .comma) (hpos : Precedence.lowest + 1 ≤ e.precedence T)
    (he : ReadsAs T false e ts) (hes : ReadsArgs T es us) :
    ReadsArgs T (e :: es) (ts ++ comma :: us) := by
  intro paren f read stack
  obtain ⟨s, e', hcopy, hfeed, hnext⟩ :=
    he.operand (Precedence.lowest + 1) (.argument paren f read :: stack) fun _ => hpos
  have hnone : T.binary? comma.type = none := hcomma ▸ hT.binary?_eq_none rfl
  have hstep : step T comma s =
      .ok (.expect (expression (.argument paren f (e' :: read) :: stack))) := by
    rw [hnext comma (by simp [hcomma]) fun _ op hop => by simp [hnone] at hop,
      settle_climb fun op hop => by simp [hnone] at hop, settle, hcomma]
  obtain ⟨s', es', hcopies, hfeeds, hlast⟩ := hes paren f (e' :: read) stack
  refine ⟨s', e' :: es', .cons hcopy hcopies, ?_, fun q call hq hcall => ?_⟩
  · rw [expression, feed_append_of_ok _ hfeed, feed_cons_of_ok _ hstep, hfeeds]
  · refine hlast q call hq ?_
    rwa [List.reverse_cons, List.append_assoc, List.singleton_append]

theorem readsAs_call (hT : T.Coherent) {paren p q : Token} {f : Expr} {args : List Expr}
    {fs ts : List Token} (hp : p.type = .leftParen) (hq : q.type = .rightParen)
    (hparen : paren.type = .leftParen) (hdepth : deepest (f :: args) < maxDepth)
    (hf : ReadsAs T (needsParens (f.precedence T) appliedBinding .left) f fs)
    (hts : args = [] ∧ ts = [] ∨ ts ≠ [] ∧ ReadsArgs T args ts) :
    ReadsAs T false (.call paren f args (deepest (f :: args) + 1)) (fs ++ p :: (ts ++ [q])) := by
  refine .of_callee fun stack => ?_
  obtain ⟨f', hcopy, hfeed⟩ := hf.callee needsParens_callee_eq_false.mp stack
  have hopen : step T p (.complete f' stack) = .ok (.opened p f' stack) := by
    rw [step, if_pos hp]
  -- copies of the arguments make a call of the same depth
  have hmake : ∀ args', List.Forall₂ Copy args args' →
      newCall (some p) (some f') (args'.map some) =
        .ok (.call p f' args' (deepest (f :: args) + 1)) := by
    intro args' hcopies
    have hdeep := Copy.deepest_eq (.cons hcopy hcopies)
    exact newCall_some_eq_ok.mpr ⟨hp, by rwa [hdeep], by rw [hdeep]⟩
  have halike : ∀ args', List.Forall₂ Copy args args' →
      Copy (.call paren f args (deepest (f :: args) + 1))
        (.call p f' args' (deepest (f :: args) + 1)) := by
    intro args' hcopies
    exact ⟨.call (hparen.trans hp.symm) hcopy.1 (hcopies.imp fun _ _ h => h.1), rfl⟩
  rw [feed_append_of_ok _ hfeed, feed_cons_of_ok _ hopen]
  rcases hts with ⟨rfl, rfl⟩ | ⟨hne, hargs⟩
  · refine ⟨_, halike [] .nil, ?_⟩
    have hcall := hmake [] .nil
    rw [List.map_nil] at hcall
    rw [List.nil_append, feed_singleton, step, if_pos hq, hcall]
    rfl
  · obtain ⟨s, args', hcopies, hfeeds, hlast⟩ := hargs p f' [] stack
    refine ⟨_, halike args' hcopies, ?_⟩
    rw [feed_append_of_ok _ (feed_opened hT hne hfeeds), feed_singleton]
    exact hlast q _ hq (hmake args' hcopies)

/-! ### Whole parenthesisations -/

/-- What is proved of each part of a source text. -/
def PartRead (T : Table) : Part → List Token → Prop
  | .bare e, ts => Built e → (∀ n ∈ e.nodes, n.HasEntry T) → ReadsAs T false e ts
  | .slot needed e, ts => Built e → (∀ n ∈ e.nodes, n.HasEntry T) → ReadsAs T needed e ts
  | .list es, ts => (∀ e ∈ es, Built e) → (∀ e ∈ es, ∀ n ∈ e.nodes, n.HasEntry T) →
      es ≠ [] → ReadsArgs T es ts

theorem partRead_of_parenthesised (hT : T.Coherent) {part : Part} {ts : List Token}
    (h : Parenthesised T part ts) : PartRead T part ts := by
  have hpos : ∀ {e : Expr}, (∀ n ∈ e.nodes, n.HasEntry T) →
      Precedence.lowest + 1 ≤ e.precedence T := fun hentry =>
    lowest_lt_precedence hT.regular (forall_nodes.mp hentry).1
  induction h with
  | literal ht =>
    intro hbuilt _
    obtain ⟨htype, hsp⟩ := hbuilt.checked
    exact readsAs_literal hT ht htype hsp
  | ident ht =>
    intro hbuilt _
    obtain ⟨htype, hsp⟩ := hbuilt.checked
    exact readsAs_ident hT ht htype hsp
  | unary ho _ ih =>
    intro hbuilt hentry
    obtain ⟨-, hdepth, rfl, hx⟩ := hbuilt.checked
    obtain ⟨hop, hentries⟩ := forall_nodes.mp hentry
    obtain ⟨u, hu⟩ := Option.isSome_iff_exists.mp hop
    exact readsAs_unary hT hu ho hdepth (ih hx (hentries _ (by simp [children])))
  | binary _ ho _ ihl ihr =>
    intro hbuilt hentry
    obtain ⟨hc, hdepth, rfl, hl, hr⟩ := hbuilt.checked
    obtain ⟨hop, hentries⟩ := forall_nodes.mp hentry
    obtain ⟨b, hb⟩ := Option.isSome_iff_exists.mp hop
    exact readsAs_binary hT hb hc ho hdepth (ihl hl (hentries _ (by simp [children])))
      (ihr hr (hentries _ (by simp [children])))
  | @call _ p q f args _ fs ts _ hp hargs hq ihf ihargs =>
    intro hbuilt hentry
    obtain ⟨hparen, hdepth, rfl, hf, hbuilts⟩ := hbuilt.checked
    obtain ⟨-, hentries⟩ := forall_nodes.mp hentry
    refine readsAs_call hT hp.1 hq.1 hparen hdepth (ihf hf (hentries _ (by simp [children]))) ?_
    cases args with
    | nil =>
      cases hargs
      exact Or.inl ⟨rfl, rfl⟩
    | cons a as =>
      refine Or.inr ⟨hargs.ne_nil (by simp), ihargs hbuilts (fun e he => hentries e ?_) (by simp)⟩
      rw [children]
      exact List.mem_cons_of_mem f he
  | plain _ ih => exact ih
  | group hp _ hq ih =>
    intro hbuilt hentry
    exact readsAs_group hT hp.1 hq.1 (hpos hentry) (ih hbuilt hentry)
  | none =>
    intro _ _ hne
    exact absurd rfl hne
  | one _ ih =>
    intro hbuilts hentries _
    exact readsArgs_one hT (hpos (hentries _ (by simp)))
      (ih (hbuilts _ (by simp)) (hentries _ (by simp)))
  | more _ hcomma _ ih ihs =>
    intro hbuilts hentries _
    refine readsArgs_more hT hcomma.1 (hpos (hentries _ (by simp)))
      (ih (hbuilts _ (by simp)) (hentries _ (by simp))) (ihs ?_ ?_ (by simp))
    · exact fun e he => hbuilts e (List.mem_cons_of_mem _ he)
    · exact fun e he => hentries e (List.mem_cons_of_mem _ he)

/-- **Every parenthesisation of a tree is parsed, and to that tree.** -/
theorem run_of_parenthesised (hT : T.Coherent) {e : Expr} {ts : List Token} {last : Token}
    (hbuilt : Built e) (hentry : ∀ n ∈ e.nodes, n.HasEntry T) (h : e.ParenthesisedBy T ts)
    (hlast : last.type = .eof) :
    ∃ e', Alike e e' ∧ run T last start ts = ⟨.ok e', []⟩ := by
  have hpos := lowest_lt_precedence hT.regular (forall_nodes.mp hentry).1
  have hread : ReadsAs T false e ts := partRead_of_parenthesised hT h hbuilt hentry
  obtain ⟨s, e', hcopy, hfeed, hnext⟩ := hread.operand (Precedence.lowest + 1) [] fun _ => hpos
  have hnone : T.binary? last.type = none := hlast ▸ hT.binary?_eq_none rfl
  have hstep : step T last s = .ok (.finished e') := by
    rw [hnext last (by simp [hlast]) fun _ op hop => by simp [hnone] at hop,
      settle_climb fun op hop => by simp [hnone] at hop, settle, if_pos hlast]
  refine ⟨e', hcopy.1, ?_⟩
  have hrun := run_append_of_feed last [] hfeed
  rw [List.append_nil] at hrun
  rw [start, expression, hrun, run, hstep]

end Fixity.Parser
