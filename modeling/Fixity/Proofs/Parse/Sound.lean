import Fixity.Proofs.Parse.Complete
import Fixity.Proofs.Token.Scan

/-!
# What is parsed is a parenthesisation

Under a table whose prefix operators share one level above every binary one, and whose operators all
group in a way that has a name, the tokens of a text that parses are a parenthesisation of the tree
they are parsed to (`parenthesised_of_run`).

The tokens read so far are accounted for by the frames (`Pending`): each frame holds a part of a
parenthesisation that waits for its rest.  An operand with the token that follows it is `Settled` when
that token does not take its right end away, which is what decides on its parentheses:

* below a `climb`, an operand that no operator takes binds at least as tightly as the `climb` asks;
* an operator that is passed on binds looser than the operation made before it, or as tightly when
  both group to the left.
-/

namespace Fixity

/-- Every associativity has a name, and all prefix operators have one precedence, above every binary
one. -/
structure Table.PrefixTightest (T : Table) : Prop where
  assoc : ∀ b ∈ T.binary, b.assoc = .left ∨ b.assoc = .right ∨ b.assoc = .none
  level : ∀ u ∈ T.unary, ∀ v ∈ T.unary, u.precedence = v.precedence
  above : ∀ u ∈ T.unary, ∀ b ∈ T.binary, b.precedence < u.precedence

namespace Parser

open Fixity.Expr

variable {T : Table}

/-! ### Tokens that the frames account for -/

/-- The arguments read so far, the last one first, each with the comma after it. -/
inductive ReadArgs (T : Table) : List Expr → List Token → Prop
  | nil : ReadArgs T [] []
  | cons {e : Expr} {read : List Expr} {comma : Token} {rs es : List Token} :
      ReadArgs T read rs → Parenthesised T (.slot false e) es → comma.Spells .comma "," →
      ReadArgs T (e :: read) (rs ++ (es ++ [comma]))

theorem ReadArgs.parenthesised {read : List Expr} {rs : List Token} (h : ReadArgs T read rs) :
    ∀ {e : Expr} {es : List Expr} {us : List Token}, Parenthesised T (.list (e :: es)) us →
      Parenthesised T (.list (read.reverse ++ e :: es)) (rs ++ us) := by
  induction h with
  | nil =>
    intro e es us hus
    exact hus
  | @cons x read comma rs xs _ hx hcomma ih =>
    intro e es us hus
    have hmore := ih (.more hx hcomma hus)
    rw [List.reverse_cons, List.append_assoc, List.append_assoc, List.append_assoc]
    exact hmore

/-- The tree can be called: it is in parentheses or needs none. -/
def Callee (T : Table) (f : Expr) (fs : List Token) : Prop :=
  Parenthesised T (.slot (needsParens (f.precedence T) appliedBinding .left) f) fs

/-- The tokens read before an expression that stands below `climb least` and the frames. -/
inductive Pending (T : Table) : Int → List Frame → List Token → Prop
  | start : Pending T (Precedence.lowest + 1) [] []
  | right {op : BinaryOp} {o : Token} {l : Expr} {least : Int} {stack : List Frame}
      {ts ls : List Token} :
      Pending T least stack ts → T.binary? o.type = some op → o.Spells o.type o.type.name →
      least ≤ op.precedence →
      Parenthesised T (.slot (needsParens (l.precedence T) (T.binding o.type) .left) l) ls →
      Pending T (rightLeast op) (.right op o l :: .climb least :: stack) (ts ++ (ls ++ [o]))
  | operand {u : UnaryOp} {o : Token} {least : Int} {stack : List Frame} {ts : List Token} :
      Pending T least stack ts → T.unary? o.type = some u → o.Spells o.type o.type.name →
      Pending T u.precedence (.operand o :: .climb least :: stack) (ts ++ [o])
  | group {p : Token} {least : Int} {stack : List Frame} {ts : List Token} :
      Pending T least stack ts → p.Spells .leftParen "(" →
      Pending T (Precedence.lowest + 1) (.group :: .climb least :: stack) (ts ++ [p])
  | argument {p : Token} {f : Expr} {read : List Expr} {least : Int} {stack : List Frame}
      {ts fs rs : List Token} :
      Pending T least stack ts → Callee T f fs → p.Spells .leftParen "(" → ReadArgs T read rs →
      Pending T (Precedence.lowest + 1) (.argument p f read :: .climb least :: stack)
        (ts ++ (fs ++ p :: rs))

/-- What a state says about the tokens read so far. -/
inductive Reached (T : Table) : State → List Token → Prop
  | expect {least : Int} {stack : List Frame} {ts : List Token} :
      Pending T least stack ts → Reached T (.expect (.climb least :: stack)) ts
  | opened {p : Token} {f : Expr} {least : Int} {stack : List Frame} {ts fs : List Token} :
      Pending T least stack ts → Callee T f fs → p.Spells .leftParen "(" →
      Reached T (.opened p f (.climb least :: stack)) (ts ++ (fs ++ [p]))
  | complete {e : Expr} {least : Int} {stack : List Frame} {ts es : List Token} :
      Pending T least stack ts → Callee T e es →
      Reached T (.complete e (.climb least :: stack)) (ts ++ es)
  | finished {e : Expr} {last : Token} {es rest : List Token} :
      e.ParenthesisedBy T es → last.type = .eof → Reached T (.finished e) (es ++ last :: rest)

/-! ### Operands -/

/-- An operand with the tokens that spell it, in parentheses or not, and how tightly it binds. -/
inductive Operand (T : Table) (e : Expr) (es : List Token) : Int → Prop
  | bare : Parenthesised T (.bare e) es → Operand T e es (e.precedence T)
  | grouped : (∀ needed, Parenthesised T (.slot needed e) es) → Operand T e es Precedence.primary

theorem Operand.slot {e : Expr} {es : List Token} {level : Int} (h : Operand T e es level)
    {needed : Bool} (hneed : level = e.precedence T → needed = false) :
    Parenthesised T (.slot needed e) es := by
  cases h with
  | bare h =>
    rw [hneed rfl]
    exact .plain h
  | grouped h => exact h needed

theorem callee_of_closed {e : Expr} {es : List Token} (h : Parenthesised T (.bare e) es)
    (hlevel : 1000 ≤ e.precedence T) : Callee T e es := by
  rw [Callee, needsParens_callee_eq_false.mpr hlevel]
  exact .plain h

theorem Callee.operand {e : Expr} {es : List Token} (h : Callee T e es) :
    ∃ level, 1000 ≤ level ∧ Operand T e es level := by
  unfold Callee at h
  generalize hneed : needsParens (e.precedence T) appliedBinding .left = needed at h
  cases h with
  | plain h =>
    exact ⟨_, needsParens_callee_eq_false.mp hneed, .bare h⟩
  | group hp h hq => exact ⟨1001, by decide, .grouped fun _ => .group hp h hq⟩

/-! ### Steps -/

/-- No frame asks for more than a call or any prefix operation offers. -/
theorem Pending.least_le (hT : T.Regular) (hP : T.PrefixTightest) {least : Int}
    {stack : List Frame} {ts : List Token} (h : Pending T least stack ts) :
    least ≤ 1000 ∧ ∀ type u, T.unary? type = some u → least ≤ u.precedence := by
  have hlow : Precedence.lowest + 1 ≤ 1000 ∧
      ∀ type u, T.unary? type = some u → Precedence.lowest + 1 ≤ u.precedence := by
    refine ⟨by decide, fun type u hu => ?_⟩
    have := hT.unary?_level hu
    show 0 + 1 ≤ u.precedence
    omega
  cases h with
  | start => exact hlow
  | group => exact hlow
  | argument => exact hlow
  | @right op o _ _ _ _ _ _ hop =>
    have hle : rightLeast op ≤ op.precedence + 1 := by
      unfold rightLeast
      split <;> omega
    refine ⟨?_, fun type u hu => ?_⟩
    · have := hT.binary?_level hop
      omega
    · have := hP.above u (Table.mem_of_unary? hu).1 op (Table.mem_of_binary? hop).1
      omega
  | @operand v o _ _ _ _ hv =>
    refine ⟨?_, fun type u hu => ?_⟩
    · have := hT.unary?_level hv
      omega
    · exact Int.le_of_eq (hP.level v (Table.mem_of_unary? hv).1 u (Table.mem_of_unary? hu).1)

/-- A scanned token that is neither a number nor a string nor a name is spelt like its type. -/
theorem spells_name {t : Token} (ht : t.Scanned) (hn : t.type ≠ .number) (hs : t.type ≠ .string)
    (hi : t.type ≠ .identifier) : t.Spells t.type t.type.name := by
  rcases ht.name with h | h | h | h
  · exact absurd h hn
  · exact absurd h hs
  · exact absurd h hi
  · exact h ▸ ht.spells

theorem spells_of_type {t : Token} (ht : t.Scanned) {type : TokenType} (htype : t.type = type)
    (hn : type ≠ .number) (hs : type ≠ .string) (hi : type ≠ .identifier) :
    t.Spells type type.name := by
  subst htype
  exact spells_name ht hn hs hi

theorem spells_of_binary? (hT : T.Coherent) {t : Token} (ht : t.Scanned) {op : BinaryOp}
    (hop : T.binary? t.type = some op) : t.Spells t.type t.type.name := by
  have hc := hT.category?_of_binary? hop
  refine spells_name ht ?_ ?_ ?_ <;>
    · intro h
      simp [h, TokenType.category?] at hc

theorem spells_of_unary? (hT : T.Coherent) {t : Token} (ht : t.Scanned) {u : UnaryOp}
    (hu : T.unary? t.type = some u) : t.Spells t.type t.type.name := by
  have hc := hT.isUnary_of_unary? hu
  refine spells_name ht ?_ ?_ ?_ <;>
    · intro h
      simp [h, TokenType.isUnary] at hc

theorem reached_begin (hT : T.Coherent) {t : Token} (ht : t.Scanned) {least : Int}
    {stack : List Frame} {ts : List Token} {s : State} (hpend : Pending T least stack ts)
    (h : begin T (.climb least :: stack) t = .ok s) : Reached T s (ts ++ [t]) := by
  rcases begin_eq_ok h with ⟨u, hu, rfl⟩ | ⟨-, rfl⟩ | ⟨-, rfl⟩ | ⟨hparen, rfl⟩
  · exact .expect (.operand hpend hu (spells_of_unary? hT ht hu))
  · exact .complete hpend (callee_of_closed (.literal ht.spells) (show (1000 : Int) ≤ 1001 by decide))
  · exact .complete hpend (callee_of_closed (.ident ht.spells) (show (1000 : Int) ≤ 1001 by decide))
  · exact .expect (.group hpend (spells_of_type ht hparen (by simp) (by simp) (by simp)))

theorem callee_call {paren q : Token} {f call : Expr} {args : List Expr} {fs us : List Token}
    (hf : Callee T f fs) (hp : paren.Spells .leftParen "(")
    (hargs : Parenthesised T (.list args) us) (hq : q.Spells .rightParen ")")
    (h : newCall (some paren) (some f) (args.map some) = .ok call) :
    Callee T call (fs ++ paren :: (us ++ [q])) := by
  obtain ⟨-, -, rfl⟩ := newCall_some_eq_ok.mp h
  exact callee_of_closed (.call hf hp hargs hq) (show (1000 : Int) ≤ 1000 by decide)

/-- The token does not take the right end of an operand that binds as tightly as `level`. -/
def Passes (T : Table) (t : Token) (level : Int) : Prop :=
  ∀ b, T.binary? t.type = some b →
    b.precedence < level ∨ b.precedence = level ∧ b.assoc = .left

/-- After the operation of a binary operator, what follows passes it. -/
theorem passes_of_right (hT : T.Regular) (hP : T.PrefixTightest) {t o : Token} {op : BinaryOp}
    (hop : T.binary? o.type = some op)
    (hless : ∀ b, T.binary? t.type = some b → b.precedence < rightLeast op)
    (hcheck : checkNonAssoc T op t = .ok ()) : Passes T t op.precedence := by
  intro b hb
  have hlt := hless b hb
  unfold rightLeast at hlt
  rcases hP.assoc op (Table.mem_of_binary? hop).1 with h | h | h
  · rw [if_neg (by simp [h])] at hlt
    by_cases heq : b.precedence = op.precedence
    · exact Or.inr ⟨heq, (hT.assoc_eq hb hop heq).trans h⟩
    · exact Or.inl (by omega)
  · rw [if_pos h] at hlt
    exact Or.inl hlt
  · rw [if_neg (by simp [h])] at hlt
    have hne := checkNonAssoc_eq_ok.mp hcheck h b hb
    exact Or.inl (by omega)

/-- The token is a binary operator that takes the operand as its left one. -/
theorem reached_left (hT : T.Coherent) {t : Token} (ht : t.type ≠ .eof → t.Scanned) {least : Int}
    {stack : List Frame} {ts es : List Token} {e : Expr} {level : Int} {op : BinaryOp}
    (hpend : Pending T least stack ts) (hoperand : Operand T e es level) (hpass : Passes T t level)
    (hop : T.binary? t.type = some op) (hleast : least ≤ op.precedence) :
    Reached T (.expect (.climb (rightLeast op) :: .right op t e :: .climb least :: stack))
      (ts ++ (es ++ [t])) := by
  have hscanned : t.Scanned := by
    refine ht fun heof => ?_
    rw [heof, hT.binary?_eq_none rfl] at hop
    cases hop
  refine .expect (.right hpend hop (spells_of_binary? hT hscanned hop) hleast ?_)
  refine hoperand.slot fun hlevel => ?_
  rw [Table.binding_of_binary? hop, needsParens_left_eq_false, ← hlevel]
  exact hpass op hop

/-- **An operand is handed to the frames that wait for it**, and all tokens stay accounted for. -/
theorem reached_settle (hT : T.Coherent) (hP : T.PrefixTightest) {t : Token}
    (ht : t.type ≠ .eof → t.Scanned) {least : Int} {stack : List Frame} {ts : List Token}
    (hpend : Pending T least stack ts) :
    ∀ {e : Expr} {es : List Token} {level : Int} {s : State}, Operand T e es level →
      least ≤ level → Passes T t level → settle T t e (.climb least :: stack) = .ok s →
      Reached T s (ts ++ (es ++ [t])) := by
  have hreg := hT.regular
  have hspells : ∀ {type : TokenType}, t.type = type → type ≠ .eof → type ≠ .number →
      type ≠ .string → type ≠ .identifier → t.Spells type type.name := by
    intro type htype heof
    exact spells_of_type (ht (htype ▸ heof)) htype
  induction hpend with
  | start =>
    intro e es level s hoperand _ hpass h
    rcases settle_climb_eq_ok h with ⟨op, hop, hleast, rfl⟩ | ⟨-, h⟩
    · exact reached_left hT ht .start hoperand hpass hop hleast
    · obtain ⟨heof, rfl⟩ := settle_nil_eq_ok h
      exact .finished (hoperand.slot fun _ => rfl) heof
  | @right op o l least stack ts ls hpend hop ho hleast hl ih =>
    intro e es level s hoperand hle hpass h
    rcases settle_climb_eq_ok h with ⟨op', hop', hleast', rfl⟩ | ⟨hless, h⟩
    · exact reached_left hT ht (.right hpend hop ho hleast hl) hoperand hpass hop' hleast'
    · obtain ⟨e', he', hcheck, h⟩ := settle_right_eq_ok h
      obtain ⟨-, -, rfl⟩ := newBinary_some_eq_ok.mp he'
      have hr : Parenthesised T
          (.slot (needsParens (e.precedence T) (T.binding o.type) .right) e) es := by
        refine hoperand.slot fun hlevel => ?_
        rw [Table.binding_of_binary? hop, needsParens_right_eq_false_iff_le, ← hlevel]
        exact hle
      have hwhole := Operand.bare (Parenthesised.binary (c := op.builder)
        (d := max l.depth e.depth + 1) hl ho hr)
      rw [precedence_binary hop] at hwhole
      have hreached := ih hwhole hleast (passes_of_right hreg hP hop hless hcheck) h
      simpa only [List.append_assoc, List.cons_append, List.nil_append] using hreached
  | @operand u o least stack ts hpend hu ho ih =>
    intro e es level s hoperand hle hpass h
    rcases settle_climb_eq_ok h with ⟨op', hop', hleast', rfl⟩ | ⟨hless, h⟩
    · exact reached_left hT ht (.operand hpend hu ho) hoperand hpass hop' hleast'
    · obtain ⟨e', he', h⟩ := settle_operand_eq_ok h
      obtain ⟨-, -, rfl⟩ := newUnary_some_eq_ok.mp he'
      have hx : Parenthesised T
          (.slot (needsParens (e.precedence T) ⟨unaryLevel T o.type, .right⟩ .right) e) es := by
        refine hoperand.slot fun hlevel => ?_
        rw [unaryLevel_of_unary? hu, needsParens_prefix_eq_false, ← hlevel]
        exact hle
      have hwhole := Operand.bare (Parenthesised.unary (d := e.depth + 1) ho hx)
      rw [precedence_unary hu] at hwhole
      have hreached := ih hwhole ((hpend.least_le hreg hP).2 _ _ hu)
        (fun b hb => Or.inl (hless b hb)) h
      simpa only [List.append_assoc, List.cons_append, List.nil_append] using hreached
  | @group p least stack ts hpend hp ih =>
    intro e es level s hoperand _ hpass h
    rcases settle_climb_eq_ok h with ⟨op', hop', hleast', rfl⟩ | ⟨-, h⟩
    · exact reached_left hT ht (.group hpend hp) hoperand hpass hop' hleast'
    · obtain ⟨htype, rfl⟩ := settle_group_eq_ok h
      have hq := hspells htype (by simp) (by simp) (by simp) (by simp)
      have hreached := Reached.complete hpend (Parenthesised.group hp (hoperand.slot fun _ => rfl) hq)
      simpa only [List.append_assoc, List.cons_append, List.nil_append] using hreached
  | @argument p f read least stack ts fs rs hpend hf hp hread ih =>
    intro e es level s hoperand _ hpass h
    have hslot : Parenthesised T (.slot false e) es := hoperand.slot fun _ => rfl
    rcases settle_climb_eq_ok h with ⟨op', hop', hleast', rfl⟩ | ⟨-, h⟩
    · exact reached_left hT ht (.argument hpend hf hp hread) hoperand hpass hop' hleast'
    · rcases settle_argument_eq_ok h with ⟨htype, rfl⟩ | ⟨htype, call, rfl, hcall⟩
      · have hcomma := hspells htype (by simp) (by simp) (by simp) (by simp)
        have hreached := Reached.expect (.argument hpend hf hp (.cons hread hslot hcomma))
        simpa only [expression, List.append_assoc, List.cons_append, List.nil_append] using hreached
      · have hq := hspells htype (by simp) (by simp) (by simp) (by simp)
        have hargs := hread.parenthesised (.one hslot)
        rw [List.reverse_cons] at hcall
        have hreached := Reached.complete hpend (callee_call hf hp hargs hq hcall)
        simpa only [List.append_assoc, List.cons_append, List.nil_append] using hreached

/-- **One token**: what a state says of the tokens before it, the next state says with it. -/
theorem reached_step (hT : T.Coherent) (hP : T.PrefixTightest) {t : Token}
    (ht : t.type ≠ .eof → t.Scanned) {s s' : State} {ts : List Token} (hs : Reached T s ts)
    (h : step T t s = .ok s') : Reached T s' (ts ++ [t]) := by
  have hbegin : ∀ {stack : List Frame}, begin T stack t = .ok s' → t.Scanned := by
    intro stack h
    refine ht fun heof => ?_
    rw [begin, if_pos heof] at h
    cases h
  cases hs with
  | expect hpend => exact reached_begin hT (hbegin h) hpend h
  | @opened p f least stack ts fs hpend hf hp =>
    rcases step_opened_eq_ok h with ⟨htype, call, rfl, hcall⟩ | h
    · have hq := spells_of_type (ht (by simp [htype])) htype (by simp) (by simp) (by simp)
      have hreached := Reached.complete hpend (callee_call hf hp .none hq hcall)
      simpa only [List.append_assoc, List.cons_append, List.nil_append] using hreached
    · exact reached_begin hT (hbegin h) (.argument hpend hf hp .nil) h
  | @complete e least stack ts es hpend he =>
    rcases step_complete_eq_ok h with ⟨htype, rfl⟩ | h
    · have hp := spells_of_type (ht (by simp [htype])) htype (by simp) (by simp) (by simp)
      rw [List.append_assoc]
      exact .opened hpend he hp
    · obtain ⟨level, hlevel, hoperand⟩ := he.operand
      have hle := (hpend.least_le hT.regular hP).1
      rw [List.append_assoc]
      refine reached_settle hT hP ht hpend hoperand (by omega) (fun b hb => ?_) h
      have := hT.regular.binary?_level hb
      exact Or.inl (by omega)
  | @finished e last es rest he hlast =>
    rw [step] at h
    obtain rfl := Except.ok.inj h
    rw [List.append_assoc, List.cons_append]
    exact .finished he hlast

/-- **The tokens of an expression are a parenthesisation of it.** -/
theorem parenthesised_of_run (hT : T.Coherent) (hP : T.PrefixTightest) {last : Token}
    (hlast : last.type = .eof) {ts : List Token} (hts : ∀ t ∈ ts, t.Scanned) {e : Expr}
    (h : (run T last start ts).result = .ok e) : e.ParenthesisedBy T ts := by
  obtain ⟨s, hs, hfin⟩ := run_induct (P := Reached T)
    (fun s s' us t ht hs hstep => reached_step hT hP (fun _ => hts t ht) hs hstep)
    start [] e (.expect .start) h
  have hend := reached_step hT hP (fun hne => absurd hlast hne) hs hfin
  -- the only token of type `eof` is the last one
  generalize hus : [] ++ ts ++ [last] = us at hend
  cases hend with
  | @finished _ last' es rest he hlast' =>
    rcases List.eq_nil_or_concat rest with rfl | ⟨rest, x, rfl⟩
    · obtain ⟨rfl, -⟩ := List.append_inj' hus rfl
      exact he
    · rw [List.concat_eq_append, ← List.cons_append, ← List.append_assoc] at hus
      obtain ⟨hts', -⟩ := List.append_inj' hus rfl
      have hmem : last' ∈ ts := by
        rw [List.nil_append] at hts'
        rw [hts']
        simp
      exact absurd hlast' (hts last' hmem).ne_eof

end Parser

end Fixity
