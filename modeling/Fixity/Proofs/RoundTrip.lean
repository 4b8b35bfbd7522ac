import Fixity.Proofs.Parse.Complete
import Fixity.Proofs.Parse.Result
import Fixity.Proofs.Parse.Source
import Fixity.RoundTrip

/-!
# Which trees survive a round trip

A built tree survives a round trip under a well-typed table exactly when its operators are in the
table and its strings are UTF-8:

    (∃ src, e.verify T = .ok src)  ↔  (∀ n ∈ e.nodes, n.HasEntry T) ∧ e.ValidStrings

To the left, the source text scans to a parenthesisation of the tree, which is parsed to a tree like
it.  To the right, a parsed tree has only operators of the table and strings without stray bytes, and
a tree like it has the same operators and the same strings.
-/

open Fixity.Parser

namespace Fixity.Expr

variable {T : Table}

theorem verify_eq_ok {e : Expr} {src : Bytes} :
    e.verify T = .ok src ↔ src = e.source T ∧ ∃ t, Expr.parse T (e.source T) = .ok t ∧ Alike e t := by
  unfold verify
  simp only
  cases hparse : Expr.parse T (e.source T) with
  | error cause => simp
  | ok t =>
    show (if Expr.same e t = true then Except.ok (e.source T) else .error _) = .ok src ↔ _
    by_cases hsame : Expr.same e t = true
    · rw [if_pos hsame]
      constructor
      · intro h
        exact ⟨(Except.ok.inj h).symm, t, rfl, hsame⟩
      · rintro ⟨rfl, -⟩
        rfl
    · rw [if_neg hsame]
      constructor
      · intro h
        cases h
      · rintro ⟨-, t', ht', halike⟩
        obtain rfl := Except.ok.inj ht'
        exact absurd halike hsame

/-- A text parses when it scans without errors and its tokens are read to the end. -/
theorem parseAt_eq_ok {line : Int64} {src : Bytes} {t : Expr} :
    Expr.parseAt T line src = .ok t ↔ (Scan.ofBytes line src).errors = [] ∧
      (run T (Scan.ofBytes line src).stream.last start
        (Scan.ofBytes line src).stream.tokens).result = .ok t := by
  unfold Expr.parseAt
  simp only
  cases herrors : (Scan.ofBytes line src).errors with
  | cons first more => simp
  | nil =>
    simp only [TokenStream.parse, true_and]
    cases (run T (Scan.ofBytes line src).stream.last start
      (Scan.ofBytes line src).stream.tokens).result <;> simp [Except.mapError]

theorem parse_eq_ok {src : Bytes} {t : Expr} :
    Expr.parse T src = .ok t ↔ (Scan.ofBytes 1 src).errors = [] ∧
      (run T (Scan.ofBytes 1 src).stream.last start (Scan.ofBytes 1 src).stream.tokens).result =
        .ok t := parseAt_eq_ok

/-- The source text of a tree is parsed to a tree like it, if its operators are in the table and its
strings are UTF-8. -/
theorem exists_parseAt_source (hT : T.Coherent) {e : Expr} (he : Built e)
    (hentry : ∀ n ∈ e.nodes, n.HasEntry T) (hvalid : e.ValidStrings) (line : Int64) :
    ∃ t, Expr.parseAt T line (e.source T) = .ok t ∧ Alike e t := by
  obtain ⟨herrors, -⟩ := scan_source T he hvalid line
  have hlast : (Scan.ofBytes line (e.source T)).stream.last.type = .eof := rfl
  obtain ⟨t, halike, hrun⟩ := run_of_parenthesised hT he hentry
    (parenthesisedBy_source T he hvalid line) hlast
  exact ⟨t, parseAt_eq_ok.mpr ⟨herrors, by rw [hrun]⟩, halike⟩

theorem exists_parse_source (hT : T.Coherent) {e : Expr} (he : Built e)
    (hentry : ∀ n ∈ e.nodes, n.HasEntry T) (hvalid : e.ValidStrings) :
    ∃ t, Expr.parse T (e.source T) = .ok t ∧ Alike e t :=
  exists_parseAt_source hT he hentry hvalid 1

/-- **A tree survives a round trip exactly when its operators are in the table and its strings are
UTF-8.** -/
theorem verify_ok_iff (hT : T.WellTyped) {e : Expr} (he : Built e) :
    (∃ src, e.verify T = .ok src) ↔
      (∀ n ∈ e.nodes, n.HasEntry T) ∧
        ∀ n ∈ e.nodes, n.token.type = .string → Utf8.isValid n.token.lexeme = true := by
  constructor
  · rintro ⟨src, h⟩
    obtain ⟨-, t, hparse, halike⟩ := verify_eq_ok.mp h
    obtain ⟨-, hrun⟩ := parse_eq_ok.mp hparse
    have hscanned : ∀ t ∈ (Scan.ofBytes 1 (e.source T)).stream.tokens, t.Scanned :=
      fun t ht => Scan.scanned_of_mem ht
    have hentry := run_kept kept_hasEntry rfl hscanned hrun
    have hvalid := run_kept kept_validStrings rfl hscanned hrun
    refine ⟨halike.forall_nodes (fun _ h => h.hasEntry) he hentry,
      halike.forall_nodes (fun {a b} ha h hb hstring => ?_) he hvalid⟩
    -- only leaves have the type of a string, and their lexemes agree
    obtain ⟨-, htype, hlex, -⟩ := alike_iff.mp h
    have hleaf : a.children = [] := by
      by_cases hc : a.children = []
      · exact hc
      · exact absurd hstring (ha.type_ne_string hc)
    rw [hlex hleaf]
    exact hb (htype ▸ hstring)
  · rintro ⟨hentry, hvalid⟩
    exact ⟨e.source T, verify_eq_ok.mpr ⟨rfl, exists_parse_source hT.coherent he hentry hvalid⟩⟩

/-! ### A prefix operator that binds loosely -/

def looseMinus : Table := ⟨[⟨.op .star, 7, .none, .arithmetic⟩], [⟨.op .minus, 2, ()⟩]⟩

theorem looseMinus_wellTyped : looseMinus.WellTyped where
  accepted := ⟨looseMinus.binary.map BinaryOp.draft, looseMinus.unary.map UnaryOp.draft, rfl⟩
  binary := by decide
  unary := by decide

def negatedFactor : Expr :=
  .binary .arithmetic ⟨.op .star, "", .none, ⟨0, 0⟩⟩
    (.unary ⟨.op .minus, "neg", .none, ⟨7, -3⟩⟩ (.ident ⟨.identifier, "a", .none, ⟨1, 1⟩⟩) 2)
    (.literal ⟨.string, "\"b\"", .none, ⟨1, 1⟩⟩) 3

theorem negatedFactor_built : Built negatedFactor := by
  have hname : Built (.ident ⟨.identifier, "a", .none, ⟨1, 1⟩⟩) :=
    @Built.ident (some ⟨.identifier, "a", .none, ⟨1, 1⟩⟩) _ rfl
  have hstring : Built (.literal ⟨.string, "\"b\"", .none, ⟨1, 1⟩⟩) :=
    @Built.literal (some ⟨.string, "\"b\"", .none, ⟨1, 1⟩⟩) _ rfl
  have hminus : Built (.unary ⟨.op .minus, "neg", .none, ⟨7, -3⟩⟩ _ 2) :=
    @Built.unary (some ⟨.op .minus, "neg", .none, ⟨7, -3⟩⟩) _ _ hname rfl
  exact @Built.binary .arithmetic (some ⟨.op .star, "", .none, ⟨0, 0⟩⟩) _ _ _ hminus hstring rfl

/-- `(-a) * "b"` survives a round trip although the minus sign binds looser than the product. -/
theorem verify_negatedFactor : looseMinus.WellTyped ∧ Built negatedFactor ∧
    ∃ src, negatedFactor.verify looseMinus = .ok src :=
  ⟨looseMinus_wellTyped, negatedFactor_built,
    (verify_ok_iff looseMinus_wellTyped negatedFactor_built).mpr ⟨by decide, by decide⟩⟩

end Fixity.Expr
