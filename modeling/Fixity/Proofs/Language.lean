import Fixity.Proofs.Parse.Complete
import Fixity.Proofs.Parse.Sound
import Fixity.Proofs.Parse.Source

/-!
# The language of the parser

The parser reads exactly the parenthesisations.  Under a well-typed table every parenthesisation of a
tree, the scanned source text among them, is parsed to the tree; and if the prefix operators share one
level above all binary ones, the tokens of a text that is parsed are a parenthesisation of the tree
they are parsed to.

The second half needs the condition on the table.  A prefix operator that binds looser than a binary
one is read without parentheses as its right operand, as in `a * -b`, where the source text of the tree
has them.
-/

namespace Fixity

open Fixity.Expr

/-- **The parser reads the parenthesisations of a tree, and under usual tables nothing else.** -/
theorem TokenStream.parse_language {T : Table} (hT : T.WellTyped) :
    (∀ (e : Expr) (s : TokenStream), Built e → (∀ n ∈ e.nodes, n.HasEntry T) →
      s.last.type = .eof → e.ParenthesisedBy T s.tokens →
      ∃ e', s.parse T = (.ok e', { s with tokens := [] }) ∧ Expr.same e e' = true) ∧
    (∀ (e : Expr) (line : Int64), Built e → e.ValidStrings →
      e.ParenthesisedBy T (Scan.ofBytes line (e.source T)).stream.tokens) ∧
    (T.PrefixTightest → ∀ (line : Int64) (src : Bytes) (e : Expr),
      ((Scan.ofBytes line src).stream.parse T).1 = .ok e →
      e.ParenthesisedBy T (Scan.ofBytes line src).stream.tokens) := by
  refine ⟨?_, ?_, ?_⟩
  · intro e s hbuilt hentry hlast h
    obtain ⟨e', halike, hrun⟩ := Parser.run_of_parenthesised hT.coherent hbuilt hentry h hlast
    refine ⟨e', ?_, halike⟩
    rw [TokenStream.parse, hrun]
  · intro e line hbuilt hvalid
    exact parenthesisedBy_source T hbuilt hvalid line
  · intro htight line src e h
    exact Parser.parenthesised_of_run hT.coherent htight rfl (fun t ht => Scan.scanned_of_mem ht) h

/-! ### A text under the standard table -/

theorem Table.standard_prefixTightest : Table.standard.PrefixTightest where
  assoc := by decide
  level := by decide
  above := by decide

def doubleMinus : TokenStream := (Scan.ofBytes 1 "(a) - -a").stream

theorem tokens_doubleMinus : (Scan.ofBytes 1 "(a) - -a").stream =
    ⟨[⟨.leftParen, "(", .none, ⟨1, 1⟩⟩, ⟨.identifier, "a", .none, ⟨1, 2⟩⟩,
      ⟨.rightParen, ")", .none, ⟨1, 3⟩⟩, ⟨.op .minus, "-", .none, ⟨1, 5⟩⟩,
      ⟨.op .minus, "-", .none, ⟨1, 7⟩⟩, ⟨.identifier, "a", .none, ⟨1, 8⟩⟩],
      ⟨.eof, [], .none, ⟨1, 9⟩⟩⟩ := by
  decide +kernel

def difference : Expr :=
  .binary .arithmetic ⟨.op .minus, "-", .none, ⟨1, 5⟩⟩
    (.ident ⟨.identifier, "a", .none, ⟨1, 2⟩⟩)
    (.unary ⟨.op .minus, "-", .none, ⟨1, 7⟩⟩ (.ident ⟨.identifier, "a", .none, ⟨1, 8⟩⟩) 2) 3

theorem difference_built : Built difference := by
  have hleft : Built (.ident ⟨.identifier, "a", .none, ⟨1, 2⟩⟩) :=
    @Built.ident (some ⟨.identifier, "a", .none, ⟨1, 2⟩⟩) _ rfl
  have hname : Built (.ident ⟨.identifier, "a", .none, ⟨1, 8⟩⟩) :=
    @Built.ident (some ⟨.identifier, "a", .none, ⟨1, 8⟩⟩) _ rfl
  have hminus : Built (.unary ⟨.op .minus, "-", .none, ⟨1, 7⟩⟩ _ 2) :=
    @Built.unary (some ⟨.op .minus, "-", .none, ⟨1, 7⟩⟩) _ _ hname rfl
  exact @Built.binary .arithmetic (some ⟨.op .minus, "-", .none, ⟨1, 5⟩⟩) _ _ _ hleft hminus rfl

/-- `(a) - -a` is parsed, its tokens are a parenthesisation of the tree it is parsed to, and so they
are parsed to a tree like it. -/
theorem TokenStream.parse_doubleMinus :
    difference.ParenthesisedBy Table.standard doubleMinus.tokens ∧
      ∃ e', doubleMinus.parse Table.standard = (.ok e', { doubleMinus with tokens := [] }) ∧
        Expr.same difference e' = true := by
  obtain ⟨hcomplete, -, hsound⟩ := TokenStream.parse_language Table.standard_wellTyped
  have hparsed : difference.ParenthesisedBy Table.standard doubleMinus.tokens :=
    hsound Table.standard_prefixTightest 1 "(a) - -a" difference (by rw [tokens_doubleMinus]; rfl)
  exact ⟨hparsed, hcomplete difference doubleMinus difference_built (by decide) rfl hparsed⟩

end Fixity
