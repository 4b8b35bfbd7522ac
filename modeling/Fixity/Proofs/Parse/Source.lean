import Fixity.Proofs.Expr.Segments
import Fixity.Proofs.Parse.Grouping

/-!
# Source texts are parenthesisations

Tokens that spell the segments of a tree under a table are a parenthesisation of the tree, under that
table and under every table that asks for no more parentheses (`parenthesisedBy_of_spelt`).  So the
scanned source text of a tree is a parenthesisation of it (`parenthesisedBy_source`).
-/

namespace Fixity

open Fixity.Expr

/-- Operands of built trees that stand without parentheses under `T` may do so under `S` too. -/
structure Table.Laxer (S T : Table) : Prop where
  operand : ∀ {x : Expr} {type : TokenType}, Built x → type.isUnary = true →
    needsParens (x.precedence T) ⟨unaryLevel T type, .right⟩ .right = false →
    needsParens (x.precedence S) ⟨unaryLevel S type, .right⟩ .right = false
  joined : ∀ {x : Expr} {type : TokenType} {c : Category} {side : Side}, Built x →
    type.category? = some c → needsParens (x.precedence T) (T.binding type) side = false →
    needsParens (x.precedence S) (S.binding type) side = false
  callee : ∀ {x : Expr}, Built x → needsParens (x.precedence T) appliedBinding .left = false →
    needsParens (x.precedence S) appliedBinding .left = false

theorem Table.Laxer.refl (T : Table) : T.Laxer T := ⟨fun _ _ h => h, fun _ _ h => h, fun _ h => h⟩

namespace Expr

variable {S T : Table}

/-! ### Tokens one after the other -/

theorem Spelt.of_cons {type : TokenType} {text : Bytes} {ss : List (Segment UInt8 Lexeme)}
    {ts : List Token} (h : Spelt ts (lexeme type text :: ss)) :
    ∃ t us, ts = t :: us ∧ t.Spells type text ∧ Spelt us ss := by
  have hcons : (lexeme type text :: ss).filterMap token? = (type, text) :: ss.filterMap token? := rfl
  rw [Spelt, hcons] at h
  obtain ⟨t, us, ht, hus, rfl⟩ := List.forall₂_cons_right_iff.mp h
  exact ⟨t, us, rfl, ht, hus⟩

theorem Spelt.of_blank {ss : List (Segment UInt8 Lexeme)} {ts : List Token}
    (h : Spelt ts (blank :: ss)) : Spelt ts ss := h

theorem Spelt.of_append {ss ss' : List (Segment UInt8 Lexeme)} {ts : List Token}
    (h : Spelt ts (ss ++ ss')) : ∃ us us', ts = us ++ us' ∧ Spelt us ss ∧ Spelt us' ss' := by
  rw [Spelt, List.filterMap_append] at h
  exact ⟨_, _, (List.take_append_drop _ ts).symm, List.forall₂_take_append _ _ _ h,
    List.forall₂_drop_append _ _ _ h⟩

theorem Spelt.of_nil {ts : List Token} (h : Spelt ts []) : ts = [] :=
  List.forall₂_nil_right_iff.mp h

/-! ### Parts of a source text -/

theorem parenthesised_grouped {needed needed' : Bool} {e : Expr}
    {ss : List (Segment UInt8 Lexeme)} {ts : List Token}
    (hbody : ∀ us, Spelt us ss → Parenthesised S (.bare e) us)
    (hneed : needed = false → needed' = false) (h : Spelt ts (grouped needed ss)) :
    Parenthesised S (.slot needed' e) ts := by
  cases needed with
  | false =>
    rw [hneed rfl]
    exact .plain (hbody ts h)
  | true =>
    obtain ⟨p, us, rfl, hp, hus⟩ := h.of_cons
    obtain ⟨vs, ws, rfl, hvs, hws⟩ := hus.of_append
    obtain ⟨q, rest, rfl, hq, hrest⟩ := hws.of_cons
    obtain rfl := hrest.of_nil
    exact .group hp (.plain (hbody vs hvs)) hq

theorem parenthesised_segmentsAll {es : List Expr}
    (h : ∀ e ∈ es, ∀ us, Spelt us (e.segments T) → Parenthesised S (.bare e) us) :
    ∀ {ts : List Token}, Spelt ts (segmentsAll T es) → Parenthesised S (.list es) ts := by
  induction es with
  | nil =>
    intro ts hts
    rw [segmentsAll] at hts
    obtain rfl := hts.of_nil
    exact .none
  | cons e es ih =>
    intro ts hts
    cases es with
    | nil =>
      rw [segmentsAll] at hts
      exact .one (.plain (h e (by simp) ts hts))
    | cons e' es =>
      rw [segmentsAll_cons_cons] at hts
      obtain ⟨us, vs, rfl, hus, hvs⟩ := hts.of_append
      obtain ⟨comma, ws, rfl, hcomma, hws⟩ := hvs.of_cons
      exact .more (.plain (h e (by simp) us hus)) hcomma
        (ih (fun x hx => h x (List.mem_cons_of_mem _ hx)) hws.of_blank)

theorem parenthesised_of_spelt (hlax : S.Laxer T) {e : Expr} (h : Built e) :
    ∀ ts, Spelt ts (e.segments T) → Parenthesised S (.bare e) ts := by
  induction h using Built.induct with
  | literal t _ _ _ =>
    intro ts hts
    rw [segments] at hts
    obtain ⟨t', us, rfl, ht', hus⟩ := hts.of_cons
    obtain rfl := hus.of_nil
    exact .literal ht'
  | ident t _ _ _ =>
    intro ts hts
    rw [segments] at hts
    obtain ⟨t', us, rfl, ht', hus⟩ := hts.of_cons
    obtain rfl := hus.of_nil
    exact .ident ht'
  | unary op x _ hu _ hx ih =>
    intro ts hts
    obtain ⟨o, ho, hunary⟩ := exists_op_of_isUnary hu
    have hword := isWord_symbol_of_isUnary hunary
    have hword' : Writer.isWord op.type.name = false := by rw [ho]; exact hword
    rw [segments, hword', if_neg Bool.false_ne_true, List.nil_append] at hts
    obtain ⟨t', us, rfl, ht', hus⟩ := hts.of_cons
    exact .unary ht' (parenthesised_grouped ih (hlax.operand hx hu) hus)
  | binary c op l r _ hc _ hl hr ihl ihr =>
    intro ts hts
    rw [segments] at hts
    obtain ⟨us, vs, rfl, hus, hvs⟩ := hts.of_append
    obtain ⟨t', ws, rfl, ht', hws⟩ := hvs.of_blank.of_cons
    exact .binary (parenthesised_grouped ihl (hlax.joined hl hc) hus) ht'
      (parenthesised_grouped ihr (hlax.joined hr hc) hws.of_blank)
  | call p f args _ _ _ hf _ ihf ihargs =>
    intro ts hts
    rw [segments] at hts
    obtain ⟨us, vs, rfl, hus, hvs⟩ := hts.of_append
    obtain ⟨p', ws, rfl, hp', hws⟩ := hvs.of_cons
    obtain ⟨xs, ys, rfl, hxs, hys⟩ := hws.of_append
    obtain ⟨q, rest, rfl, hq, hrest⟩ := hys.of_cons
    obtain rfl := hrest.of_nil
    exact .call (parenthesised_grouped ihf (hlax.callee hf) hus) hp'
      (parenthesised_segmentsAll ihargs hxs) hq

/-- **Tokens that spell a source text are a parenthesisation of its tree.** -/
theorem parenthesisedBy_of_spelt (hlax : S.Laxer T) {e : Expr} (h : Built e) {ts : List Token}
    (hts : Spelt ts (e.segments T)) : e.ParenthesisedBy S ts :=
  .plain (parenthesised_of_spelt hlax h ts hts)

/-- **The scanned source text of a tree is a parenthesisation of it.** -/
theorem parenthesisedBy_source (T : Table) {e : Expr} (h : Built e) (hvalid : e.ValidStrings)
    (line : Int64) : e.ParenthesisedBy T (Scan.ofBytes line (e.source T)).stream.tokens :=
  parenthesisedBy_of_spelt (.refl T) h (scan_source T h hvalid line).2

end Expr

end Fixity
