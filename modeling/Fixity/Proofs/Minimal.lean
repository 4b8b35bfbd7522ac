import Fixity.Proofs.Language
import Fixity.Proofs.Unambiguous

/-!
# Source texts are minimal

A parenthesisation of a tree is its source text with further pairs of parentheses
(`Parenthesised.exists_spelt`), so nothing shorter than the source text is parsed to a tree like it
(`Expr.length_source_le`).  In particular no pair of parentheses can be left out of a source text
(`Expr.parens_needed`): what is left is rejected, or parsed to a tree of another shape,

    (a + b) * c        a + b * c        -(a * b)        -a * b

`Expr.Encloses` says between which lexemes of the source text the parentheses of its operands stand.
-/

namespace Fixity

open Fixity.Expr

/-! ### The lexemes that every parenthesisation has -/

namespace Expr

theorem Spelt.nil : Spelt [] [] := List.Forall₂.nil

theorem Spelt.cons {type : TokenType} {text : Bytes} {ss : List (Segment UInt8 Lexeme)} {t : Token}
    {ts : List Token} (ht : t.Spells type text) (hts : Spelt ts ss) :
    Spelt (t :: ts) (lexeme type text :: ss) :=
  List.Forall₂.cons ht hts

theorem Spelt.blank {ss : List (Segment UInt8 Lexeme)} {ts : List Token} (h : Spelt ts ss) :
    Spelt ts (Expr.blank :: ss) := h

theorem Spelt.append {ss ss' : List (Segment UInt8 Lexeme)} {us us' : List Token}
    (h : Spelt us ss) (h' : Spelt us' ss') : Spelt (us ++ us') (ss ++ ss') := by
  rw [Spelt, List.filterMap_append]
  exact List.rel_append h h'

theorem Spelt.length_eq {ss : List (Segment UInt8 Lexeme)} {ts : List Token} (h : Spelt ts ss) :
    ts.length = (ss.filterMap token?).length := List.Forall₂.length_eq h

end Expr

def Part.segments (T : Table) : Part → List (Segment UInt8 Lexeme)
  | .bare e => e.segments T
  | .slot needed e => grouped needed (e.segments T)
  | .list es => segmentsAll T es

/-- **The source text is left of a parenthesisation** when further parentheses are taken away. -/
theorem Parenthesised.exists_spelt {T : Table} {part : Part} {ts : List Token}
    (h : Parenthesised T part ts) : ∃ us, us.Sublist ts ∧ Spelt us (part.segments T) := by
  induction h with
  | @literal s t ht =>
    refine ⟨[t], .refl _, ?_⟩
    rw [Part.segments, segments]
    exact .cons ht .nil
  | @ident s t ht =>
    refine ⟨[t], .refl _, ?_⟩
    rw [Part.segments, segments]
    exact .cons ht .nil
  | @unary op o x d ts ho _ ih =>
    obtain ⟨us, hsub, hus⟩ := ih
    refine ⟨o :: us, hsub.cons_cons o, ?_⟩
    rw [Part.segments, segments]
    refine .cons ho ?_
    split
    · exact .blank hus
    · exact hus
  | @binary c op o l r d ls rs _ ho _ ihl ihr =>
    obtain ⟨us, hsub, hus⟩ := ihl
    obtain ⟨vs, hsub', hvs⟩ := ihr
    refine ⟨us ++ o :: vs, hsub.append (hsub'.cons_cons o), ?_⟩
    rw [Part.segments, segments]
    exact .append hus (.blank (.cons ho (.blank hvs)))
  | @call paren p q f args d fs ts _ hp _ hq ihf ihargs =>
    obtain ⟨us, hsub, hus⟩ := ihf
    obtain ⟨vs, hsub', hvs⟩ := ihargs
    refine ⟨us ++ p :: (vs ++ [q]), hsub.append ((hsub'.append (.refl _)).cons_cons p), ?_⟩
    rw [Part.segments, segments]
    exact .append hus (.cons hp (.append hvs (.cons hq .nil)))
  | plain _ ih => exact ih
  | @group needed e p q ts hp _ hq ih =>
    obtain ⟨us, hsub, hus⟩ := ih
    cases needed with
    | false => exact ⟨us, (hsub.trans (List.sublist_append_left ts [q])).cons p, hus⟩
    | true =>
      refine ⟨p :: (us ++ [q]), (hsub.append (.refl _)).cons_cons p, ?_⟩
      exact .cons hp (.append hus (.cons hq .nil))
  | none =>
    refine ⟨[], .refl _, ?_⟩
    rw [Part.segments, segmentsAll]
    exact .nil
  | one _ ih =>
    rw [Part.segments, segmentsAll]
    exact ih
  | @more e e' es comma ts us _ hcomma _ ihe ihes =>
    obtain ⟨vs, hsub, hvs⟩ := ihe
    obtain ⟨ws, hsub', hws⟩ := ihes
    refine ⟨vs ++ comma :: ws, hsub.append (hsub'.cons_cons comma), ?_⟩
    rw [Part.segments, segmentsAll_cons_cons]
    exact .append hvs (.cons hcomma (.blank hws))

namespace Expr

variable {T : Table}

def types (ss : List (Segment UInt8 Lexeme)) : List TokenType := (ss.filterMap token?).map Prod.fst

theorem types_append (ss ss' : List (Segment UInt8 Lexeme)) :
    types (ss ++ ss') = types ss ++ types ss' := by
  rw [types, List.filterMap_append, List.map_append, types, types]

theorem types_lexeme (type : TokenType) (text : Bytes) (ss : List (Segment UInt8 Lexeme)) :
    types (lexeme type text :: ss) = type :: types ss := rfl

/-- **The tokens of a source text have the types of its lexemes**, whatever its strings hold. -/
theorem types_source (T : Table) {e : Expr} (h : Built e) (line : Int64) :
    (Scan.ofBytes line (e.source T)).stream.tokens.map (·.type) = types (e.segments T) := by
  have htokens := Scan.tokens_ofChars line (Utf8.decode (e.source T))
  rw [segments_decode_source T h, List.filterMap_map] at htokens
  have hfst : ∀ s : Segment UInt8 Lexeme,
      (Lexeme.spelled? ⟨Utf8.decode s.text, s.label⟩).map Prod.fst = (token? s).map Prod.fst := by
    intro s
    unfold Lexeme.spelled? token?
    cases s.label <;> rfl
  have htypes : ((e.segments T).filterMap
      (Lexeme.spelled? ∘ fun s => ⟨Utf8.decode s.text, s.label⟩)).map Prod.fst =
        types (e.segments T) := by
    rw [types, List.map_filterMap, List.map_filterMap]
    exact List.filterMap_congr fun s _ => hfst s
  rw [← htypes, ← List.forall₂_eq_eq_eq, List.forall₂_map_left_iff, List.forall₂_map_right_iff]
  exact htokens.imp fun t l ht => ht.1

/-- **No shorter text has the same tree**: tokens that are parsed to a tree like `e` are at least as
many as those of the source text of `e`. -/
theorem length_source_le (hT : T.WellTyped) (hP : T.PrefixTightest) {e e' : Expr} (he : Built e)
    (line : Int64) {s : TokenStream} (hlast : s.last.type = .eof) (hs : ∀ t ∈ s.tokens, t.Scanned)
    (h : (s.parse T).1 = .ok e') (hsame : Expr.same e e' = true) :
    (Scan.ofBytes line (e.source T)).stream.tokens.length ≤ s.tokens.length := by
  have halike : Alike e e' := hsame
  obtain ⟨us, hsub, hus⟩ :=
    (Parser.parenthesised_of_run hT.coherent hP hlast hs h).exists_spelt
  have hus : Spelt us (e.segments T) := by
    rw [halike.segments_eq T]
    exact hus
  calc (Scan.ofBytes line (e.source T)).stream.tokens.length
      = (types (e.segments T)).length := by rw [← types_source T he line, List.length_map]
    _ = us.length := by rw [hus.length_eq, types, List.length_map]
    _ ≤ s.tokens.length := hsub.length_le

/-! ### The parentheses of a source text -/

/-- The child `x` of the node is written between `as` and `bs`, in parentheses if `needed`. -/
inductive Stands (T : Table) : Expr → Expr → Bool →
    List (Segment UInt8 Lexeme) → List (Segment UInt8 Lexeme) → Prop
  | operand {op : Token} {x : Expr} {d : Nat} : Stands T (.unary op x d) x
      (needsParens (x.precedence T) ⟨unaryLevel T op.type, .right⟩ .right)
      (lexeme op.type op.type.name :: if Writer.isWord op.type.name then [blank] else []) []
  | left {c : Category} {op : Token} {l r : Expr} {d : Nat} : Stands T (.binary c op l r d) l
      (needsParens (l.precedence T) (T.binding op.type) .left) []
      (blank :: lexeme op.type op.type.name :: blank ::
        grouped (needsParens (r.precedence T) (T.binding op.type) .right) (r.segments T))
  | right {c : Category} {op : Token} {l r : Expr} {d : Nat} : Stands T (.binary c op l r d) r
      (needsParens (r.precedence T) (T.binding op.type) .right)
      (grouped (needsParens (l.precedence T) (T.binding op.type) .left) (l.segments T) ++
        [blank, lexeme op.type op.type.name, blank]) []
  | callee {p : Token} {f : Expr} {args : List Expr} {d : Nat} : Stands T (.call p f args d) f
      (needsParens (f.precedence T) appliedBinding .left) []
      (lexeme .leftParen "(" :: (segmentsAll T args ++ [lexeme .rightParen ")"]))
  | argument {p : Token} {f x : Expr} {xs ys : List Expr} {d : Nat} :
      Stands T (.call p f (xs ++ x :: ys) d) x false
        (grouped (needsParens (f.precedence T) appliedBinding .left) (f.segments T) ++
          lexeme .leftParen "(" :: xs.flatMap fun y => y.segments T ++ [lexeme .comma ",", blank])
        ((ys.flatMap fun y => lexeme .comma "," :: blank :: y.segments T) ++
          [lexeme .rightParen ")"])

theorem segmentsAll_cons_eq (x : Expr) (ys : List Expr) : segmentsAll T (x :: ys) =
    x.segments T ++ ys.flatMap fun y => lexeme .comma "," :: blank :: y.segments T := by
  induction ys generalizing x with
  | nil => rw [segmentsAll, List.flatMap_nil, List.append_nil]
  | cons y ys ih =>
    rw [segmentsAll_cons_cons, ih, List.flatMap_cons]
    rfl

theorem segmentsAll_append_cons (x : Expr) (xs ys : List Expr) :
    segmentsAll T (xs ++ x :: ys) =
      (xs.flatMap fun y => y.segments T ++ [lexeme .comma ",", blank]) ++ (x.segments T ++
        ys.flatMap fun y => lexeme .comma "," :: blank :: y.segments T) := by
  induction xs with
  | nil => exact segmentsAll_cons_eq x ys
  | cons y xs ih =>
    obtain ⟨z, zs, hz⟩ := List.exists_cons_of_ne_nil (show xs ++ x :: ys ≠ [] by simp)
    rw [List.cons_append, hz, segmentsAll_cons_cons, ← hz, ih, List.flatMap_cons]
    simp

theorem Stands.segments_eq {e x : Expr} {needed : Bool} {as bs : List (Segment UInt8 Lexeme)}
    (h : Stands T e x needed as bs) :
    e.segments T = as ++ (grouped needed (x.segments T) ++ bs) := by
  cases h with
  | operand =>
    rw [segments, List.append_nil]
    rfl
  | left =>
    rw [segments]
    rfl
  | right =>
    rw [segments]
    simp
  | callee =>
    rw [segments]
    rfl
  | argument =>
    rw [segments, segmentsAll_append_cons]
    simp [grouped]

/-- In the source text of the tree, parentheses are written around an operand with the segments
`body`, between `as` and `bs`. -/
inductive Encloses (T : Table) : Expr → List (Segment UInt8 Lexeme) →
    List (Segment UInt8 Lexeme) → List (Segment UInt8 Lexeme) → Prop
  | child {e x : Expr} {as bs : List (Segment UInt8 Lexeme)} :
      Stands T e x true as bs → Encloses T e as (x.segments T) bs
  | within {e x : Expr} {needed : Bool} {as bs as' body bs' : List (Segment UInt8 Lexeme)} :
      Stands T e x needed as bs → Encloses T x as' body bs' →
      Encloses T e (as ++ ((if needed then [lexeme .leftParen "("] else []) ++ as')) body
        (bs' ++ ((if needed then [lexeme .rightParen ")"] else []) ++ bs))

/-- **Where parentheses are written.** -/
theorem Encloses.segments_eq {e : Expr} {as body bs : List (Segment UInt8 Lexeme)}
    (h : Encloses T e as body bs) :
    e.segments T = as ++ lexeme .leftParen "(" :: (body ++ lexeme .rightParen ")" :: bs) := by
  induction h with
  | child hx =>
    rw [hx.segments_eq]
    simp [grouped]
  | @within e x needed as bs as' body bs' hx _ ih =>
    rw [hx.segments_eq, ih]
    cases needed <;> simp [grouped]

end Expr

/-! ### Without a pair of parentheses -/

/-- At two places there are an opening parenthesis and, after it, a closing one. -/
structure IsPair (ts : List Token) (i j : Nat) : Prop where
  lt : i < j
  opening : ts[i]?.map (·.type) = some .leftParen
  closing : ts[j]?.map (·.type) = some .rightParen

/-- The tokens but those at two places, of which the second is behind the first. -/
def TokenStream.without (s : TokenStream) (i j : Nat) : TokenStream :=
  { s with tokens := (s.tokens.eraseIdx j).eraseIdx i }

theorem IsPair.length_without {s : TokenStream} {i j : Nat} (h : IsPair s.tokens i j) :
    (s.without i j).tokens.length < s.tokens.length := by
  have hlt := h.lt
  have hj : j < s.tokens.length := by
    by_contra hle
    have hclosing := h.closing
    rw [List.getElem?_eq_none (Nat.le_of_not_lt hle)] at hclosing
    cases hclosing
  have hi : i < (s.tokens.eraseIdx j).length := by
    rw [List.length_eraseIdx_of_lt hj]
    omega
  rw [TokenStream.without, List.length_eraseIdx_of_lt hi, List.length_eraseIdx_of_lt hj]
  omega

theorem TokenStream.mem_of_mem_without {s : TokenStream} {i j : Nat} {t : Token}
    (h : t ∈ (s.without i j).tokens) : t ∈ s.tokens :=
  List.mem_of_mem_eraseIdx (List.mem_of_mem_eraseIdx h)

namespace Expr

variable {T : Table}

theorem Encloses.isPair {e : Expr} (he : Built e) {as body bs : List (Segment UInt8 Lexeme)}
    (h : Encloses T e as body bs) (line : Int64) :
    IsPair (Scan.ofBytes line (e.source T)).stream.tokens (types as).length
      ((types as).length + 1 + (types body).length) := by
  have htypes := types_source T he line
  rw [h.segments_eq, types_append, types_lexeme, types_append, types_lexeme] at htypes
  refine ⟨by omega, ?_, ?_⟩
  · rw [← List.getElem?_map, htypes, List.getElem?_append_right (Nat.le_refl _), Nat.sub_self]
    rfl
  · rw [← List.getElem?_map, htypes, List.getElem?_append_right (by omega)]
    have hplace : (types as).length + 1 + (types body).length - (types as).length =
        (types body).length + 1 := by omega
    rw [hplace, List.getElem?_cons_succ, List.getElem?_append_right (Nat.le_refl _), Nat.sub_self]
    rfl

/-- **Source texts have no superfluous parentheses.**  The parentheses around operands are pairs
among the tokens of the source text, and without any pair the tokens are rejected or parsed to a
tree of another shape. -/
theorem parens_needed (hT : T.WellTyped) (hP : T.PrefixTightest) {e : Expr} (he : Built e)
    (line : Int64) :
    (∀ as body bs, Encloses T e as body bs →
      IsPair (Scan.ofBytes line (e.source T)).stream.tokens (types as).length
        ((types as).length + 1 + (types body).length)) ∧
    ∀ i j, IsPair (Scan.ofBytes line (e.source T)).stream.tokens i j → ∀ e',
      (((Scan.ofBytes line (e.source T)).stream.without i j).parse T).1 = .ok e' →
      Expr.same e e' = false := by
  refine ⟨fun as body bs h => h.isPair he line, fun i j hpair e' hparse => ?_⟩
  have hscanned : ∀ t ∈ ((Scan.ofBytes line (e.source T)).stream.without i j).tokens, t.Scanned :=
    fun t ht => Scan.scanned_of_mem (TokenStream.mem_of_mem_without ht)
  have hshorter := hpair.length_without
  by_contra hsame
  have hlonger := length_source_le hT hP he line rfl hscanned hparse (Bool.not_eq_false _ ▸ hsame)
  omega

/-! ### A sum as a factor -/

def sum : Expr :=
  .binary .arithmetic ⟨.op .plus, "+", .none, ⟨1, 4⟩⟩
    (.ident ⟨.identifier, "a", .none, ⟨1, 2⟩⟩) (.ident ⟨.identifier, "b", .none, ⟨1, 6⟩⟩) 2

def sumTimes : Expr :=
  .binary .arithmetic ⟨.op .star, "*", .none, ⟨1, 9⟩⟩ sum
    (.ident ⟨.identifier, "c", .none, ⟨1, 11⟩⟩) 3

theorem sumTimes_built : Built sumTimes := by
  have hname : ∀ (name : Bytes) (column : Int64), Spelling.isIdentifier name = true →
      Built (.ident ⟨.identifier, name, .none, ⟨1, column⟩⟩) :=
    fun name column h => .ident (newIdent_some_eq_ok.mpr ⟨rfl, h, rfl⟩)
  have hsum : Built sum :=
    @Built.binary .arithmetic (some ⟨.op .plus, "+", .none, ⟨1, 4⟩⟩) _ _ _
      (hname "a" 2 (by decide +kernel)) (hname "b" 6 (by decide +kernel)) rfl
  exact @Built.binary .arithmetic (some ⟨.op .star, "*", .none, ⟨1, 9⟩⟩) _ _ _ hsum
    (hname "c" 11 (by decide +kernel)) rfl

theorem tokens_sumTimes : (Scan.ofBytes 1 (sumTimes.source Table.standard)).stream =
    ⟨[⟨.leftParen, "(", .none, ⟨1, 1⟩⟩, ⟨.identifier, "a", .none, ⟨1, 2⟩⟩,
      ⟨.op .plus, "+", .none, ⟨1, 4⟩⟩, ⟨.identifier, "b", .none, ⟨1, 6⟩⟩,
      ⟨.rightParen, ")", .none, ⟨1, 7⟩⟩, ⟨.op .star, "*", .none, ⟨1, 9⟩⟩,
      ⟨.identifier, "c", .none, ⟨1, 11⟩⟩], ⟨.eof, [], .none, ⟨1, 12⟩⟩⟩ := by
  decide +kernel

/-- In `(a + b) * c` the parentheses are the first and the fifth token, and without them the tokens
are parsed to another tree. -/
theorem parens_sumTimes :
    IsPair (Scan.ofBytes 1 (sumTimes.source Table.standard)).stream.tokens 0 4 ∧
    ∃ e', (((Scan.ofBytes 1 (sumTimes.source Table.standard)).stream.without 0 4).parse
      Table.standard).1 = .ok e' ∧ Expr.same sumTimes e' = false := by
  obtain ⟨henclosed, hneeded⟩ :=
    parens_needed Table.standard_wellTyped Table.standard_prefixTightest sumTimes_built 1
  have hsum : Stands Table.standard sumTimes sum true [] _ := .left
  have hclosing : (types (sum.segments Table.standard)).length = 3 := by decide +kernel
  have hpair := henclosed _ _ _ (.child hsum)
  rw [hclosing] at hpair
  obtain ⟨e', hparse⟩ : ∃ e',
      (((Scan.ofBytes 1 (sumTimes.source Table.standard)).stream.without 0 4).parse
        Table.standard).1 = .ok e' := by
    rw [tokens_sumTimes]
    exact ⟨_, rfl⟩
  exact ⟨hpair, e', hparse, hneeded 0 4 hpair e' hparse⟩

end Expr

end Fixity
