import Fixity.Proofs.Parse.Complete
import Fixity.Proofs.Table.Ranked

/-!
# Source texts are unambiguous

Under every accepted table, two built trees have the same source text exactly when they have the same
shape:

    a.source T = b.source T  ↔  Expr.same a b = true

A table that lacks operators cannot read the text back.  But the text determines its lexemes, and these
are a parenthesisation of both trees under the ranked table, which has all operators and reads them as
one tree.  To the left, nothing in the text depends on what sameness ignores.
-/

open Fixity.Parser

namespace Fixity.Expr

variable {T : Table}

def spelling (ss : List (Segment UInt8 Lexeme)) : List Token :=
  (ss.filterMap token?).map fun l => ⟨l.1, l.2, Literal.ofLexeme l.1 l.2, ⟨1, 1⟩⟩

theorem spelt_spelling (ss : List (Segment UInt8 Lexeme)) : Spelt (spelling ss) ss := by
  rw [Spelt, spelling, List.forall₂_map_left_iff, List.forall₂_same]
  intro l _
  exact ⟨rfl, rfl, rfl⟩

theorem ranked_hasEntry_nodes (T : Table) {e : Expr} (h : Built e) :
    ∀ n ∈ e.nodes, n.HasEntry T.ranked := fun n hn => Table.ranked_hasEntry T (h.of_mem_nodes n hn)

/-- **Trees with the same source text are alike.** -/
theorem alike_of_source_eq (hT : T.Regular) {a b : Expr} (ha : Built a) (hb : Built b)
    (h : a.source T = b.source T) : Alike a b := by
  let last : Token := ⟨.eof, [], .none, ⟨1, 1⟩⟩
  have hread : ∀ {e : Expr}, Built e → e.segments T = a.segments T →
      ∃ e', Alike e e' ∧ run T.ranked last start (spelling (a.segments T)) = ⟨.ok e', []⟩ := by
    intro e he hsegments
    refine run_of_parenthesised (Table.ranked_coherent hT) he (ranked_hasEntry_nodes T he) ?_ rfl
    refine parenthesisedBy_of_spelt (Table.ranked_laxer hT) he ?_
    rw [hsegments]
    exact spelt_spelling _
  obtain ⟨a', haa', hrun⟩ := hread ha rfl
  obtain ⟨b', hbb', hrun'⟩ := hread hb (segments_inj T ha hb h).symm
  rw [hrun] at hrun'
  obtain rfl := Except.ok.inj (Outcome.mk.inj hrun').1
  exact haa'.trans hbb'.symm

/-! ### Trees that are alike are written alike -/

theorem Alike.precedence_eq {a b : Expr} (h : Alike a b) (T : Table) :
    a.precedence T = b.precedence T := by
  obtain ⟨hshape, htype, -, -⟩ := alike_iff.mp h
  cases a <;> cases b <;> simp only [shape, reduceCtorEq] at hshape <;>
    simp_all [precedence, token]

theorem segmentsAll_eq {es fs : List Expr}
    (h : List.Forall₂ (fun a b => a.segments T = b.segments T) es fs) :
    segmentsAll T es = segmentsAll T fs := by
  induction h with
  | nil => rfl
  | @cons a b as bs hab hrest ih =>
    cases hrest with
    | nil =>
      rw [segmentsAll, segmentsAll]
      exact hab
    | cons _ _ => rw [segmentsAll_cons_cons, segmentsAll_cons_cons, hab, ih]

/-- **Trees that are alike are written alike.** -/
theorem Alike.segments_eq {a b : Expr} (h : Alike a b) (T : Table) :
    a.segments T = b.segments T := by
  induction a using induction_children generalizing b with
  | node a ih =>
    obtain ⟨hshape, htype, hlex, hchildren⟩ := alike_iff.mp h
    have hsegments : List.Forall₂ (fun a b => a.segments T = b.segments T) a.children b.children := by
      have hboth := (List.forall₂_and_left _ _).mpr ⟨fun c hc b h => ih c hc (b := b) h, hchildren⟩
      exact hboth.imp fun c b hc => hc.1 b hc.2
    cases a with
    | literal s =>
      cases b with
      | literal t =>
        have hlex : s.lexeme = t.lexeme := hlex rfl
        have htype : s.type = t.type := htype
        rw [segments, segments, htype, hlex]
      | _ => cases hshape
    | ident s =>
      cases b with
      | ident t =>
        have hlex : s.lexeme = t.lexeme := hlex rfl
        have htype : s.type = t.type := htype
        rw [segments, segments, htype, hlex]
      | _ => cases hshape
    | unary s x d =>
      cases b with
      | unary t y d' =>
        have htype : s.type = t.type := htype
        obtain ⟨hx, -⟩ := List.forall₂_cons.mp hchildren
        obtain ⟨hsx, -⟩ := List.forall₂_cons.mp hsegments
        rw [segments, segments, htype, hx.precedence_eq T, hsx]
      | _ => cases hshape
    | binary c s l r d =>
      cases b with
      | binary c' t l' r' d' =>
        have htype : s.type = t.type := htype
        obtain ⟨hl, hrest⟩ := List.forall₂_cons.mp hchildren
        obtain ⟨hr, -⟩ := List.forall₂_cons.mp hrest
        obtain ⟨hsl, hsrest⟩ := List.forall₂_cons.mp hsegments
        obtain ⟨hsr, -⟩ := List.forall₂_cons.mp hsrest
        rw [segments, segments, htype, hl.precedence_eq T, hr.precedence_eq T, hsl, hsr]
      | _ => cases hshape
    | call s f args d =>
      cases b with
      | call t g args' d' =>
        obtain ⟨hf, -⟩ := List.forall₂_cons.mp hchildren
        obtain ⟨hsf, hsargs⟩ := List.forall₂_cons.mp hsegments
        rw [segments, segments, hf.precedence_eq T, hsf, segmentsAll_eq hsargs]
      | _ => cases hshape
    | subscript s x i d =>
      cases b with
      | subscript t y j d' =>
        obtain ⟨hx, -⟩ := List.forall₂_cons.mp hchildren
        obtain ⟨hsx, hsrest⟩ := List.forall₂_cons.mp hsegments
        obtain ⟨hsi, -⟩ := List.forall₂_cons.mp hsrest
        rw [segments, segments, hx.precedence_eq T, hsx, hsi]
      | _ => cases hshape

theorem Alike.source_eq {a b : Expr} (h : Alike a b) (T : Table) : a.source T = b.source T := by
  rw [Expr.source_eq, Expr.source_eq, h.segments_eq T]

/-- **Source texts are unambiguous under every accepted table**: two trees have the same text exactly
when they have the same shape. -/
theorem source_eq_iff_same (hT : T.Accepted) {a b : Expr} (ha : Built a) (hb : Built b) :
    a.source T = b.source T ↔ Expr.same a b = true := by
  constructor
  · intro h
    exact alike_of_source_eq hT.regular ha hb h
  · intro h
    have halike : Alike a b := h
    exact halike.source_eq T

/-! ### A table without operators -/

def negation (lexeme : Bytes) (pos : Pos) : Expr :=
  .unary ⟨.op .minus, lexeme, .none, pos⟩ (.literal ⟨.string, [34, 255, 34], .none, pos⟩) 2

theorem negation_built (lexeme : Bytes) (pos : Pos) : Built (negation lexeme pos) := by
  have hstring : Built (.literal ⟨.string, [34, 255, 34], .none, pos⟩) :=
    @Built.literal (some ⟨.string, [34, 255, 34], .none, pos⟩) _ rfl
  exact @Built.unary (some ⟨.op .minus, lexeme, .none, pos⟩) _ _ hstring rfl

/-- Under a table without operators, two negations of a string with a stray byte are written alike,
whatever the lexeme and the place of the operator. -/
theorem source_negation_eq : (⟨[], []⟩ : Table).Accepted ∧
    (negation "-" ⟨1, 1⟩).source ⟨[], []⟩ = (negation "minus" ⟨-4, 9⟩).source ⟨[], []⟩ := by
  have hempty : (⟨[], []⟩ : Table).Accepted := ⟨[], [], rfl⟩
  refine ⟨hempty, (source_eq_iff_same hempty (negation_built _ _) (negation_built _ _)).mpr ?_⟩
  exact Alike.unary rfl (.literal rfl rfl)

end Fixity.Expr
