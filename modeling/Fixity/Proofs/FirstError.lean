import Fixity.Proofs.Parse.Completion
import Fixity.Proofs.RoundTrip

/-!
# The first token that cannot be right

An error of the parser, other than one about a node that cannot be made, is about the token it stops
before: whatever follows that token, the error is the same, and what comes before it can be finished
(`TokenStream.parse_stops_at_first_wrong`).

The tokens before the error lead to a state by themselves (`Parser.run_eq_error`), and the token
decides alone that it cannot follow there, so any list that begins alike ends alike
(`Parser.run_of_stop`).
-/

namespace Fixity

/-- The error is about a node that could not be made. -/
def ParseError.WrapsNode (e : ParseError) : Prop := ∃ error, e.fault = .node error

namespace Parser

variable {T : Table}

/-! ### One token -/

/-- The parser stopped before the token and because of it, or could not make a node. -/
def Stop.Blames (t : Token) (stop : Stop) : Prop :=
  stop.error.WrapsNode ∨ stop.taken = false ∧ stop.error.token = t

theorem blames_of_stopAt {α : Type} {t : Token} {fault : ParseFault} {stop : Stop}
    (h : (stopAt t fault : Except Stop α) = .error stop) : stop.Blames t := by
  obtain rfl := Except.error.inj h
  exact Or.inr ⟨rfl, rfl⟩

/-- Before or after its last token, a node that cannot be made is what the error is about. -/
theorem wrapsNode_of_ofNode {t : Token} {r : Except NodeError Expr} {taken : Bool} {stop : Stop}
    (h : (ParseError.ofNode t r).mapError (Stop.mk · taken) = .error stop) :
    stop.error.WrapsNode := by
  cases r with
  | ok e => cases h
  | error error =>
    obtain rfl := Except.error.inj h
    exact ⟨error, rfl⟩

theorem bind_eq_error {α β : Type} {x : Except Stop α} {f : α → Except Stop β} {stop : Stop}
    (h : x >>= f = .error stop) : x = .error stop ∨ ∃ a, x = .ok a ∧ f a = .error stop := by
  cases x with
  | ok a => exact Or.inr ⟨a, rfl, h⟩
  | error stop' => exact Or.inl (congrArg _ (Except.error.inj h))

theorem wrapsNode_of_complete {t : Token} {r : Except NodeError Expr} {stack : List Frame}
    {stop : Stop} (h : (do let e ← taken (ParseError.ofNode t r); return State.complete e stack) =
      .error stop) : stop.error.WrapsNode := by
  rcases bind_eq_error h with h | ⟨e, -, h⟩
  · exact wrapsNode_of_ofNode h
  · cases h

theorem blames_begin {stack : List Frame} {t : Token} {stop : Stop}
    (h : begin T stack t = .error stop) : stop.Blames t := by
  unfold begin at h
  split at h
  · exact blames_of_stopAt h
  split at h
  · cases h
  split at h
  case h_7 => cases h
  case h_8 => exact blames_of_stopAt h
  all_goals exact Or.inl (wrapsNode_of_complete h)

theorem blames_checkNonAssoc {op : BinaryOp} {t : Token} {stop : Stop}
    (h : checkNonAssoc T op t = .error stop) : stop.Blames t := by
  obtain ⟨type, rfl⟩ := checkNonAssoc_eq_error h
  exact Or.inr ⟨rfl, rfl⟩

theorem blames_settle {t : Token} {stop : Stop} {stack : List Frame} :
    ∀ {e : Expr}, settle T t e stack = .error stop → stop.Blames t := by
  induction stack with
  | nil =>
    intro e h
    rw [settle] at h
    split at h
    · cases h
    · exact blames_of_stopAt h
  | cons frame stack ih =>
    intro e h
    cases frame with
    | climb least =>
      rw [settle] at h
      split at h
      · split at h
        · exact ih h
        · split at h
          · exact blames_of_stopAt h
          · cases h
      · exact ih h
    | right op o l =>
      rw [settle] at h
      rcases bind_eq_error h with h | ⟨e', -, h⟩
      · exact Or.inl (wrapsNode_of_ofNode h)
      · rcases bind_eq_error h with h | ⟨-, -, h⟩
        · exact blames_checkNonAssoc h
        · exact ih h
    | operand o =>
      rw [settle] at h
      rcases bind_eq_error h with h | ⟨e', -, h⟩
      · exact Or.inl (wrapsNode_of_ofNode h)
      · exact ih h
    | group =>
      rw [settle] at h
      split at h
      · cases h
      · exact blames_of_stopAt h
    | argument paren f read =>
      rw [settle] at h
      split at h
      · cases h
      · exact Or.inl (wrapsNode_of_complete h)
      · exact blames_of_stopAt h

/-- **A token that is refused** is the one the error names, unless a node could not be made. -/
theorem blames_step {t : Token} {s : State} {stop : Stop} (h : step T t s = .error stop) :
    stop.Blames t := by
  cases s with
  | expect stack => exact blames_begin h
  | opened paren f stack =>
    rw [step] at h
    split at h
    · exact Or.inl (wrapsNode_of_complete h)
    · exact blames_begin h
  | complete e stack =>
    rw [step] at h
    split at h
    · cases h
    · exact blames_settle h
  | finished e => cases h

/-! ### The end of the tokens -/

theorem settle_eof (hT : T.Coherent) {t : Token} (ht : t.type = .eof) {s : State}
    {stack : List Frame} : ∀ {e : Expr}, settle T t e stack = .ok s → ∃ e', s = .finished e' := by
  have hnone : T.binary? t.type = none := ht ▸ hT.binary?_eq_none rfl
  induction stack with
  | nil =>
    intro e h
    exact ⟨e, (settle_nil_eq_ok h).2⟩
  | cons frame stack ih =>
    intro e h
    cases frame with
    | climb least =>
      rcases settle_climb_eq_ok h with ⟨op, hop, -⟩ | ⟨-, h⟩
      · rw [hnone] at hop
        cases hop
      · exact ih h
    | right op o l =>
      obtain ⟨e', -, -, h⟩ := settle_right_eq_ok h
      exact ih h
    | operand o =>
      obtain ⟨e', -, h⟩ := settle_operand_eq_ok h
      exact ih h
    | group =>
      have htype := (settle_group_eq_ok h).1
      rw [ht] at htype
      cases htype
    | argument paren f read =>
      rcases settle_argument_eq_ok h with ⟨htype, -⟩ | ⟨htype, -⟩
      · rw [ht] at htype
        cases htype
      · rw [ht] at htype
        cases htype

theorem step_eof (hT : T.Coherent) {t : Token} (ht : t.type = .eof) {s s' : State}
    (h : step T t s = .ok s') : ∃ e, s' = .finished e := by
  cases s with
  | expect stack =>
    rw [step, begin, if_pos ht] at h
    cases h
  | opened paren f stack =>
    rw [step, if_neg (by simp [ht]), begin, if_pos ht] at h
    cases h
  | complete e stack =>
    rw [step, if_neg (by simp [ht])] at h
    exact settle_eof hT ht h
  | finished e => exact ⟨e, (Except.ok.inj h).symm⟩

/-! ### All tokens -/

/-- **Where a run stops**: the tokens before lead to a state, and there the next token is refused. -/
theorem run_eq_error (hT : T.Coherent) {last : Token} (hlast : last.type = .eof) {err : ParseError}
    (herr : ¬ err.WrapsNode) {ts rest : List Token} : ∀ {s : State},
      run T last s ts = ⟨.error err, rest⟩ → ∃ us s', ts = us ++ rest ∧ feed T s us = .ok s' ∧
        step T (rest.headD last) s' = .error ⟨err, false⟩ ∧ err.token = rest.headD last := by
  have hstop : ∀ {t : Token} {s : State} {stop : Stop}, step T t s = .error stop →
      stop.error = err → stop = ⟨err, false⟩ ∧ err.token = t := by
    rintro t s ⟨error, taken⟩ h rfl
    obtain ⟨htaken, htoken⟩ := (blames_step h).resolve_left herr
    exact ⟨congrArg (Stop.mk error) htaken, htoken⟩
  induction ts with
  | nil =>
    intro s h
    rw [run] at h
    split at h
    · cases h
    · rename_i s' hnot hs'
      obtain ⟨e, rfl⟩ := step_eof hT hlast hs'
      exact absurd rfl (hnot e)
    · rename_i stop hs'
      injection h with herr' hrest
      subst hrest
      obtain ⟨rfl, htoken⟩ := hstop hs' (Except.error.inj herr')
      exact ⟨[], s, rfl, rfl, hs', htoken⟩
  | cons t ts ih =>
    intro s h
    rw [run] at h
    split at h
    · rename_i s₁ hs₁
      obtain ⟨us, s', rfl, hfeed, hstep, htoken⟩ := ih h
      exact ⟨t :: us, s', rfl, by rw [feed_cons_of_ok us hs₁, hfeed], hstep, htoken⟩
    · rename_i stop hs'
      injection h with herr' hrest
      obtain ⟨rfl, htoken⟩ := hstop hs' (Except.error.inj herr')
      subst hrest
      exact ⟨[], s, rfl, rfl, hs', htoken⟩

/-- **A refused token stops every run that reaches it**, whatever follows. -/
theorem run_of_stop {last : Token} {us rest : List Token} {s s' : State} {err : ParseError}
    (hfeed : feed T s us = .ok s') (hstep : step T (rest.headD last) s' = .error ⟨err, false⟩) :
    run T last s (us ++ rest) = ⟨.error err, rest⟩ := by
  rw [run_append_of_feed last rest hfeed]
  cases rest with
  | nil =>
    have hstep : step T last s' = .error ⟨err, false⟩ := hstep
    rw [run, hstep]
  | cons t rest =>
    have hstep : step T t s' = .error ⟨err, false⟩ := hstep
    rw [run, hstep]
    rfl

end Parser

/-! ### Lists of tokens -/

namespace TokenStream

/-- The tokens of a list up to the end, when a beginning of it is known. -/
theorem ofList?_append {us vs : List Token} {t : Token} {s : TokenStream}
    (hus : ∀ u ∈ us, u.type ≠ .eof) (h : ofList? (us ++ t :: vs) = some s) :
    ∃ rest, s.tokens = us ++ rest ∧ rest.headD s.last = t := by
  rw [ofList?, List.takeWhile_append_of_pos (fun u hu => by simpa using hus u hu)] at h
  obtain ⟨last, hlast, rfl⟩ := Option.map_eq_some_iff.mp h
  refine ⟨(t :: vs).takeWhile (·.type != .eof), rfl, ?_⟩
  by_cases ht : t.type = .eof
  · rw [List.takeWhile_cons_of_neg (by simp [ht])] at hlast ⊢
    simp at hlast
    exact hlast.symm
  · rw [List.takeWhile_cons_of_pos (by simp [ht])]
    rfl

theorem ofList?_toList {s : TokenStream} (htokens : ∀ u ∈ s.tokens, u.type ≠ .eof)
    (hlast : s.last.type = .eof) : ofList? s.toList = some s := by
  rw [ofList?, toList, List.takeWhile_append_of_pos (fun u hu => by simpa using htokens u hu)]
  simp [hlast]

/-- **The token of index `k` is the first that cannot be right**: it is the one that the error names,
every list of tokens that begins alike up to it is refused there with the same error, and what comes
before it is the beginning of an expression, if it is not longer than a tree can be deep. -/
structure FirstWrong (T : Table) (s : TokenStream) (k : Nat) (err : ParseError) : Prop where
  token : s.toList[k]? = some err.token
  refused : ∀ (ts : List Token) (other : TokenStream), ofList? ts = some other →
    ts.take (k + 1) = s.toList.take (k + 1) →
    other.parse T = (.error err, { other with tokens := other.tokens.drop k })
  finished : k < Expr.maxDepth → ∃ (more : List Token) (other : TokenStream) (e : Expr),
    ofList? (s.toList.take k ++ more) = some other ∧
    other.parse T = (.ok e, { other with tokens := [] })

/-- Tokens that lead to a state where the next one is refused have their first wrong token there. -/
theorem firstWrong_of_stop {T : Table} (hT : T.Coherent) {s : TokenStream}
    (hlast : s.last.type = .eof) {us rest : List Token} (hus : ∀ u ∈ us, u.type ≠ .eof)
    (htokens : s.tokens = us ++ rest) {s' : Parser.State} {err : ParseError}
    (hfeed : Parser.feed T Parser.start us = .ok s')
    (hstep : Parser.step T (rest.headD s.last) s' = .error ⟨err, false⟩)
    (htoken : err.token = rest.headD s.last) : s.FirstWrong T us.length err := by
  obtain ⟨vs, hlist⟩ : ∃ vs, s.toList = us ++ err.token :: vs := by
    rw [toList, htokens, htoken]
    cases rest with
    | nil => exact ⟨[], by simp⟩
    | cons t rest => exact ⟨rest ++ [s.last], by simp⟩
  have htake : s.toList.take (us.length + 1) = us ++ [err.token] := by
    rw [hlist, List.take_length_add_append]
    rfl
  refine ⟨?_, ?_, ?_⟩
  · rw [hlist, List.getElem?_append_right (Nat.le_refl _), Nat.sub_self]
    rfl
  · intro ts other hother hagree
    have hts : ts = us ++ err.token :: ts.drop (us.length + 1) := by
      conv_lhs => rw [← List.take_append_drop (us.length + 1) ts, hagree, htake]
      simp
    rw [hts] at hother
    obtain ⟨rest', hrest', hhead⟩ := ofList?_append hus hother
    rw [parse, hrest', Parser.run_of_stop hfeed (by rw [hhead, htoken, hstep])]
    simp
  · intro hk
    have hwithin := Parser.within_feed hus (Parser.within_start (T := T)) hfeed
    rw [Nat.zero_add] at hwithin
    obtain ⟨more, e, hmore, hrun⟩ := Parser.exists_run_eq_ok hT hlast hk hwithin
    refine ⟨more ++ [s.last], ⟨us ++ more, s.last⟩, e, ?_, ?_⟩
    · rw [hlist, List.take_left', ← List.append_assoc]
      · refine ofList?_toList (s := ⟨us ++ more, s.last⟩) (fun u hu => ?_) hlast
        exact (List.mem_append.mp hu).elim (hus u) (hmore u)
      · rfl
    · rw [parse, Parser.run_append_of_feed s.last more hfeed, hrun]

/-- **The parser stops at the first token that cannot be right.** -/
theorem parse_stops_at_first_wrong {T : Table} (hT : T.WellTyped) (line : Int64) (src : Bytes)
    {err : ParseError} {rest : TokenStream}
    (h : (Scan.ofBytes line src).stream.parse T = (.error err, rest)) (herr : ¬ err.WrapsNode) :
    ∃ k, rest = { (Scan.ofBytes line src).stream with
        tokens := (Scan.ofBytes line src).stream.tokens.drop k } ∧
      (Scan.ofBytes line src).stream.FirstWrong T k err := by
  have hlast : (Scan.ofBytes line src).stream.last.type = .eof := rfl
  have hscanned : ∀ t ∈ (Scan.ofBytes line src).stream.tokens, t.type ≠ .eof :=
    fun t ht => (Scan.scanned_of_mem ht).ne_eof
  generalize (Scan.ofBytes line src).stream = s at h hlast hscanned
  rw [parse] at h
  injection h with hresult hrest
  have hrun : Parser.run T s.last Parser.start s.tokens =
      ⟨.error err, (Parser.run T s.last Parser.start s.tokens).rest⟩ := by rw [← hresult]
  obtain ⟨us, s', htokens, hfeed, hstep, htoken⟩ :=
    Parser.run_eq_error hT.coherent hlast herr hrun
  have hus : ∀ u ∈ us, u.type ≠ .eof :=
    fun u hu => hscanned u (htokens ▸ List.mem_append_left _ hu)
  refine ⟨us.length, ?_, firstWrong_of_stop hT.coherent hlast hus htokens hfeed hstep htoken⟩
  rw [← hrest]
  conv_rhs => rw [htokens, List.drop_left]

/-! ### A chain of operators inside a prefix operand -/

theorem tokens_productChain : (Scan.ofBytes 1 "-a * b * c").stream =
    ⟨[⟨.op .minus, "-", .none, ⟨1, 1⟩⟩, ⟨.identifier, "a", .none, ⟨1, 2⟩⟩,
      ⟨.op .star, "*", .none, ⟨1, 4⟩⟩, ⟨.identifier, "b", .none, ⟨1, 6⟩⟩,
      ⟨.op .star, "*", .none, ⟨1, 8⟩⟩, ⟨.identifier, "c", .none, ⟨1, 10⟩⟩],
      ⟨.eof, [], .none, ⟨1, 11⟩⟩⟩ := by
  decide +kernel

def secondStar : ParseError := ⟨⟨.op .star, "*", .none, ⟨1, 8⟩⟩, .nonAssociative (.op .star)⟩

/-- Where the minus sign negates a product and products do not associate, `-a * b * c` is refused at
its second star, inside the operand of the minus sign: whatever follows the star, the error is the
same, and `-a * b` can be finished. -/
theorem parse_productChain : Expr.looseMinus.WellTyped ∧ ¬ secondStar.WrapsNode ∧
    (Scan.ofBytes 1 "-a * b * c").stream.parse Expr.looseMinus = (.error secondStar,
      { (Scan.ofBytes 1 "-a * b * c").stream with
        tokens := (Scan.ofBytes 1 "-a * b * c").stream.tokens.drop 4 }) ∧
    (Scan.ofBytes 1 "-a * b * c").stream.FirstWrong Expr.looseMinus 4 secondStar := by
  have herr : ¬ secondStar.WrapsNode := by
    rintro ⟨error, h⟩
    cases h
  have hparse : (Scan.ofBytes 1 "-a * b * c").stream.parse Expr.looseMinus = (.error secondStar,
      { (Scan.ofBytes 1 "-a * b * c").stream with
        tokens := (Scan.ofBytes 1 "-a * b * c").stream.tokens.drop 4 }) := by
    rw [tokens_productChain]
    rfl
  have honly : ∀ k < 7,
      (Scan.ofBytes 1 "-a * b * c").stream.toList[k]? = some secondStar.token → k = 4 := by
    rw [tokens_productChain]
    decide
  have hlength : (Scan.ofBytes 1 "-a * b * c").stream.toList.length = 7 := by
    rw [tokens_productChain]
    rfl
  obtain ⟨k, -, hfirst⟩ :=
    parse_stops_at_first_wrong Expr.looseMinus_wellTyped 1 "-a * b * c" hparse herr
  have hk : k < 7 := hlength ▸ (List.getElem?_eq_some_iff.mp hfirst.token).1
  exact ⟨Expr.looseMinus_wellTyped, herr, hparse, honly k hk hfirst.token ▸ hfirst⟩

end TokenStream

end Fixity
