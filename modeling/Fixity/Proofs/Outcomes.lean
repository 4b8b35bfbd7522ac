import Fixity.Proofs.Parse.Unlimited

/-!
# What parsing ends with

A text is parsed to a tree, or it is refused: with all the errors of its scan in the order of the text,
or else with one error of the parser (`Expr.parse_outcomes`).  An error of the parser is about no node,
unless the tokens determine a tree that is higher than `Expr.maxDepth`; then it is about such a tree, and
that it is too deep is all that is wrong with it.

The parser makes nodes only of tokens that belong to them.  Its leaves are lexemes, its operators are
those of the table, and the calls have their parentheses (`Parser.Leads.sound`).
-/

namespace Fixity

/-! ### Errors of a scan -/

namespace Scan

open Lexeme

/-- The errors stand at places of the text, each of them farther on than those before it. -/
def InOrder (line : Int64) (src : List Char) (errors : List ScanError) : Prop :=
  ∃ befores : List (List Char), errors.map ScanError.pos = befores.map (placeAfter line) ∧
    befores.Pairwise (fun a b => a <+: b ∧ a ≠ b) ∧ ∀ before ∈ befores, before <+: src

/-- The text before a segment goes on to the text before any later one. -/
theorem pairwise_located {segs : List (Segment Char Lexeme)} (h : ∀ s ∈ segs, s.text ≠ []) :
    ∀ start : List Char, (located start segs).Pairwise fun a b => a.1 <+: b.1 ∧ a.1 ≠ b.1 := by
  induction segs with
  | nil => exact fun _ => .nil
  | cons s segs ih =>
    intro start
    obtain ⟨hs, hsegs⟩ := List.forall_mem_cons.mp h
    refine List.pairwise_cons.mpr ⟨fun ⟨before, s'⟩ hmem => ?_, ih hsegs _⟩
    obtain ⟨as, bs, -, rfl⟩ := exists_of_mem_located hmem
    refine ⟨⟨s.text ++ as.flatMap Segment.text, (List.append_assoc _ _ _).symm⟩, fun heq => hs ?_⟩
    rw [List.append_assoc, List.self_eq_append_right] at heq
    exact (List.append_eq_nil_iff.mp heq).1

theorem text_ne_nil_of_mem_segments {src : List Char} {s : Segment Char Lexeme}
    (h : s ∈ segments src) : s.text ≠ [] := by
  obtain ⟨as, bs, hsplit⟩ := List.append_of_mem h
  obtain ⟨c, cs, rfl, -⟩ := Segment.exists_lead_of_cut hsplit
  exact List.cons_ne_nil _ _

/-- **The errors of a scan are in the order of the text.** -/
theorem inOrder_ofChars (line : Int64) (src : List Char) :
    InOrder line src (ofChars line src).errors := by
  -- the text before each segment that is rejected
  refine ⟨(located [] (segments src)).filterMap fun p => (errorAt? line p).map fun _ => p.1,
    ?_, ?_, ?_⟩
  · rw [ofChars_eq, List.map_filterMap, List.map_filterMap]
    congr 1
    funext p
    unfold errorAt?
    split <;> rfl
  · refine List.Pairwise.filterMap _ (fun a b hab x hx y hy => ?_)
      (pairwise_located (fun s => text_ne_nil_of_mem_segments) [])
    obtain ⟨-, -, rfl⟩ := Option.map_eq_some_iff.mp hx
    obtain ⟨-, -, rfl⟩ := Option.map_eq_some_iff.mp hy
    exact hab
  · intro before hbefore
    obtain ⟨⟨_, s⟩, hs, herror⟩ := List.mem_filterMap.mp hbefore
    obtain ⟨-, -, rfl⟩ := Option.map_eq_some_iff.mp herror
    obtain ⟨as, bs, hsplit, rfl⟩ := exists_of_mem_located hs
    have hcovers := Segment.flatMap_text_cut Lexeme.lead src
    rw [← segments, hsplit, List.flatMap_append] at hcovers
    exact ⟨_, hcovers⟩

end Scan

/-! ### Errors of the parser -/

namespace Parser

open Fixity.Expr

variable {T : Table}

/-- A run is a reading of all tokens, the end with them. -/
theorem result_run (last : Token) (ts : List Token) : ∀ s : State, (run T last s ts).result =
    match feed T s (ts ++ [last]) with
    | .ok (.finished e) => .ok e
    | .ok _ => .error ⟨last, .expectExpression⟩
    | .error stop => .error stop.error := by
  induction ts with
  | nil =>
    intro s
    rw [List.nil_append, feed_singleton, run]
    cases step T last s with
    | ok s' => cases s' <;> rfl
    | error stop => rfl
  | cons t ts ih =>
    intro s
    rw [run, List.cons_append, feed_cons]
    cases step T t s with
    | ok s' => exact ih s'
    | error stop => rfl

def WithinLimit (T : Table) (us : List Token) : Prop :=
  ∀ e, Determines T us e → e.height ≤ maxDepth

theorem withinLimit_of_not_refuses (hT : T.Coherent) {us : List Token} (h : ¬ Refuses T us) :
    WithinLimit T us := by
  intro e he
  by_contra hheight
  exact h (he.refuses hT (by omega))

/-- **The parser refuses a node when, and only when, the tokens determine a tree that is too high.** -/
theorem result_cases (hT : T.Coherent) {last : Token} {ts : List Token}
    (hts : ∀ t ∈ ts ++ [last], t.type ≠ .eof → t.type.HasLexeme t.lexeme) :
    ((∃ e, (run T last start ts).result = .ok e ∧ Determines T (ts ++ [last]) e) ∧
      WithinLimit T (ts ++ [last])) ∨
    ((∃ err, (run T last start ts).result = .error err ∧ ¬ err.WrapsNode) ∧
      WithinLimit T (ts ++ [last])) ∨
    ∃ e, (run T last start ts).result = .error (.tooDeep e) ∧ Determines T (ts ++ [last]) e ∧
      maxDepth < e.height := by
  have hagrees := agrees_feed hT _ hts
  rw [result_run]
  cases hfeed : feed T start (ts ++ [last]) with
  | ok s =>
    have hlimit : WithinLimit T (ts ++ [last]) := by
      refine withinLimit_of_not_refuses hT ?_
      rintro ⟨stop, hstop, -⟩
      rw [hfeed] at hstop
      cases hstop
    cases s with
    | finished e =>
      rw [hfeed] at hagrees
      exact Or.inl ⟨⟨e, rfl, hagrees⟩, hlimit⟩
    | _ => exact Or.inr (Or.inl ⟨⟨_, rfl, ParseError.not_wrapsNode last (by simp)⟩, hlimit⟩)
  | error stop =>
    by_cases hwraps : stop.error.WrapsNode
    · rw [hfeed] at hagrees
      obtain ⟨e, he, hheight, herror⟩ := hagrees hwraps
      exact Or.inr (Or.inr ⟨e, congrArg _ herror, he, hheight⟩)
    · refine Or.inr (Or.inl ⟨⟨_, rfl, hwraps⟩, withinLimit_of_not_refuses hT ?_⟩)
      rintro ⟨stop', hstop, hwraps'⟩
      rw [hfeed] at hstop
      obtain rfl := Except.error.inj hstop
      exact hwraps hwraps'

end Parser

/-- **A text is parsed, or refused with its scan errors, or refused with one parse error.**  The scan
errors are all there and in the order of the text.  The parse error is about no node; or it is about one
that is too deep, and this happens exactly when the tokens determine a tree that is too high. -/
theorem Expr.parse_outcomes {T : Table} (hT : T.WellTyped) (src : Bytes) :
    (∃ e, parse T src = .ok e ∧ (Scan.ofBytes 1 src).errors = [] ∧
      Parser.Determines T (Scan.ofBytes 1 src).stream.toList e ∧
      Parser.WithinLimit T (Scan.ofBytes 1 src).stream.toList) ∨
    (∃ first more, parse T src = .error (.scan first more) ∧
      (Scan.ofBytes 1 src).errors = first :: more ∧
      Scan.InOrder 1 (Utf8.decode src) (first :: more)) ∨
    (∃ err, parse T src = .error (.parse err) ∧ (Scan.ofBytes 1 src).errors = [] ∧
      ¬ err.WrapsNode ∧ Parser.WithinLimit T (Scan.ofBytes 1 src).stream.toList) ∨
    ∃ e, parse T src = .error (.parse (.tooDeep e)) ∧ (Scan.ofBytes 1 src).errors = [] ∧
      Parser.Determines T (Scan.ofBytes 1 src).stream.toList e ∧ maxDepth < e.height := by
  have horder := Scan.inOrder_ofChars 1 (Utf8.decode src)
  have hlexemes : ∀ t ∈ (Scan.ofBytes 1 src).stream.toList,
      t.type ≠ .eof → t.type.HasLexeme t.lexeme := by
    intro t ht heof
    rcases List.mem_append.mp ht with ht | ht
    · exact Scan.hasLexeme_of_mem ht
    · exact absurd (congrArg Token.type (List.mem_singleton.mp ht)) heof
  rw [← Scan.ofBytes] at horder
  rw [parse, parseAt]
  generalize Scan.ofBytes 1 src = scan at horder hlexemes ⊢
  cases herrors : scan.errors with
  | cons first more =>
    rw [herrors] at horder
    exact Or.inr (Or.inl ⟨first, more, rfl, rfl, horder⟩)
  | nil =>
    rcases Parser.result_cases hT.coherent hlexemes with
      ⟨⟨e, he, hdetermines⟩, hlimit⟩ | ⟨⟨err, herr, hwraps⟩, hlimit⟩ | ⟨e, he, hdetermines, hheight⟩
    · exact Or.inl ⟨e, congrArg (Except.mapError SourceError.parse) he, rfl, hdetermines, hlimit⟩
    · exact Or.inr (Or.inr (Or.inl
        ⟨err, congrArg (Except.mapError SourceError.parse) herr, rfl, hwraps, hlimit⟩))
    · exact Or.inr (Or.inr (Or.inr
        ⟨e, congrArg (Except.mapError SourceError.parse) he, rfl, hdetermines, hheight⟩))

theorem scan_comparisons : Scan.ofBytes 1 "((a)) < b < c" =
    ⟨⟨[⟨.leftParen, "(", .none, ⟨1, 1⟩⟩, ⟨.leftParen, "(", .none, ⟨1, 2⟩⟩,
      ⟨.identifier, "a", .none, ⟨1, 3⟩⟩, ⟨.rightParen, ")", .none, ⟨1, 4⟩⟩,
      ⟨.rightParen, ")", .none, ⟨1, 5⟩⟩, ⟨.op .less, "<", .none, ⟨1, 7⟩⟩,
      ⟨.identifier, "b", .none, ⟨1, 9⟩⟩, ⟨.op .less, "<", .none, ⟨1, 11⟩⟩,
      ⟨.identifier, "c", .none, ⟨1, 13⟩⟩], ⟨.eof, [], .none, ⟨1, 14⟩⟩⟩, []⟩ := by
  decide +kernel

/-- The second comparison of `((a)) < b < c` cannot follow the first.  What the tokens determine is not
too high. -/
theorem Expr.parse_comparisons : Table.standard.WellTyped ∧
    parse Table.standard "((a)) < b < c" = .error (.parse
      ⟨⟨.op .less, "<", .none, ⟨1, 11⟩⟩, .nonAssociative (.op .less)⟩) ∧
    Parser.WithinLimit Table.standard (Scan.ofBytes 1 "((a)) < b < c").stream.toList := by
  have hparse : parse Table.standard "((a)) < b < c" = .error (.parse
      ⟨⟨.op .less, "<", .none, ⟨1, 11⟩⟩, .nonAssociative (.op .less)⟩) := by
    rw [parse, parseAt, scan_comparisons]
    rfl
  refine ⟨Table.standard_wellTyped, hparse, ?_⟩
  rcases parse_outcomes Table.standard_wellTyped "((a)) < b < c" with
    ⟨e, htree, -⟩ | ⟨first, more, hscan, -⟩ | ⟨err, -, -, -, hlimit⟩ | ⟨e, hdeep, -⟩
  · rw [hparse] at htree
    cases htree
  · rw [hparse] at hscan
    cases hscan
  · exact hlimit
  · rw [hparse] at hdeep
    have hfault := (ParseError.mk.inj (SourceError.parse.inj (Except.error.inj hdeep))).2
    cases hfault

end Fixity
