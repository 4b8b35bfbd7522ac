import Fixity.Proofs.Expr.Built
import Fixity.Proofs.Expr.Nodes
import Fixity.Proofs.Parse.Grouping
import Fixity.Proofs.Token.Lexeme
import Fixity.Proofs.Token.Scan

/-!
# The source text of a tree as segments

`Expr.segments T e` lists the lexemes and spaces of the source text of a tree, and `write_eq` says that
they make it:

    e.write T rest = (e.segments T).flatMap Segment.text ++ rest

For a built tree they are what the text is cut into (`legible_segments`), so the text determines them
(`segments_inj`), and when its strings have no stray byte, scanning it gives one token for each lexeme
(`scan_source`).
-/

namespace Fixity.Expr

open Lexeme Utf8

def lexeme (type : TokenType) (text : Bytes) : Segment UInt8 Lexeme := ⟨text, .token type⟩

def blank : Segment UInt8 Lexeme := ⟨[32], .blank⟩

def grouped (needed : Bool) (body : List (Segment UInt8 Lexeme)) : List (Segment UInt8 Lexeme) :=
  if needed then lexeme .leftParen "(" :: (body ++ [lexeme .rightParen ")"]) else body

mutual

/-- The lexemes and spaces of the source text of a tree. -/
def segments (T : Table) : Expr → List (Segment UInt8 Lexeme)
  | literal t => [lexeme t.type t.lexeme]
  | ident t => [lexeme t.type t.lexeme]
  | unary op e _ =>
    lexeme op.type op.type.name :: ((if Writer.isWord op.type.name then [blank] else []) ++
      grouped (needsParens (e.precedence T) ⟨unaryLevel T op.type, .right⟩ .right) (e.segments T))
  | binary _ op l r _ =>
    grouped (needsParens (l.precedence T) (T.binding op.type) .left) (l.segments T) ++
      blank :: lexeme op.type op.type.name :: blank ::
        grouped (needsParens (r.precedence T) (T.binding op.type) .right) (r.segments T)
  | call _ f args _ =>
    grouped (needsParens (f.precedence T) appliedBinding .left) (f.segments T) ++
      lexeme .leftParen "(" :: (segmentsAll T args ++ [lexeme .rightParen ")"])
  -- no lexeme has a bracket
  | subscript _ e i _ =>
    grouped (needsParens (e.precedence T) appliedBinding .left) (e.segments T) ++
      ⟨[91], .rejected .unexpectedCharacter⟩ ::
        (i.segments T ++ [⟨[93], .rejected .unexpectedCharacter⟩])

def segmentsAll (T : Table) : List Expr → List (Segment UInt8 Lexeme)
  | [] => []
  | [e] => e.segments T
  | e :: es => e.segments T ++ lexeme .comma "," :: blank :: segmentsAll T es

end

theorem segmentsAll_cons_cons (T : Table) (e e' : Expr) (es : List Expr) :
    segmentsAll T (e :: e' :: es) =
      e.segments T ++ lexeme .comma "," :: blank :: segmentsAll T (e' :: es) := by
  rw [segmentsAll]
  simp

/-! ### They make the source text -/

theorem operand_eq {body : Writer} {ss : List (Segment UInt8 Lexeme)} {p : Int} {b : Binding}
    {side : Side} (h : ∀ rest, body rest = ss.flatMap Segment.text ++ rest) (rest : Bytes) :
    Writer.operand p b side body rest =
      (grouped (needsParens p b side) ss).flatMap Segment.text ++ rest := by
  unfold Writer.operand grouped
  split
  · rw [Writer.group, h, List.flatMap_cons, List.flatMap_append, List.flatMap_singleton]
    simp only [List.append_assoc]
    rfl
  · exact h rest

mutual

/-- **The segments of a tree make its source text.** -/
theorem write_eq (T : Table) : ∀ (e : Expr) (rest : Bytes),
    e.write T rest = (e.segments T).flatMap Segment.text ++ rest
  | literal t, rest => by
    rw [write, segments, List.flatMap_singleton]
    rfl
  | ident t, rest => by
    rw [write, segments, List.flatMap_singleton]
    rfl
  | unary op e _, rest => by
    rw [write, segments, Writer.prefixed, operand_eq (write_eq T e), List.flatMap_cons,
      List.flatMap_append]
    split <;> simp [lexeme, blank]
  | binary _ op l r _, rest => by
    rw [write, segments, Writer.joined, operand_eq (write_eq T r), operand_eq (write_eq T l)]
    simp [lexeme, blank]
  | call _ f args _, rest => by
    rw [write, segments]
    show Writer.operand _ _ _ (f.write T) (40 :: writeArgs T args (41 :: rest)) = _
    rw [operand_eq (write_eq T f), writeArgs_eq T args]
    simp only [List.flatMap_append, List.flatMap_cons, List.append_assoc]
    rfl
  | subscript _ e i _, rest => by
    rw [write, segments]
    show Writer.operand _ _ _ (e.write T) (91 :: i.write T (93 :: rest)) = _
    rw [operand_eq (write_eq T e), write_eq T i]
    simp

theorem writeArgs_eq (T : Table) : ∀ (es : List Expr) (rest : Bytes),
    writeArgs T es rest = (segmentsAll T es).flatMap Segment.text ++ rest
  | [], rest => by
    rw [writeArgs, segmentsAll]
    rfl
  | [e], rest => by
    rw [writeArgs, segmentsAll, write_eq T e]
  | e :: e' :: es, rest => by
    rw [writeArgs, segmentsAll_cons_cons]
    · show e.write T (44 :: 32 :: writeArgs T (e' :: es) rest) = _
      rw [write_eq T e, writeArgs_eq T (e' :: es)]
      simp only [List.flatMap_append, List.flatMap_cons, List.append_assoc]
      rfl
    · simp

end

theorem source_eq (T : Table) (e : Expr) : e.source T = (e.segments T).flatMap Segment.text := by
  rw [source, write_eq, List.append_nil]

/-! ### The text is cut into them -/

theorem begins_blank (rest : Bytes) : Begins blank.text rest blank.label :=
  begins_encode ' ' [] rfl

theorem begins_leftParen (rest : Bytes) : Begins "(" rest (.token .leftParen) :=
  begins_encode '(' [] rfl

theorem begins_rightParen (rest : Bytes) : Begins ")" rest (.token .rightParen) :=
  begins_encode ')' [] rfl

theorem begins_comma (rest : Bytes) : Begins "," rest (.token .comma) :=
  begins_encode ',' [] rfl

theorem apart_blank (rest : Bytes) : Apart (decode (32 :: rest)) := by
  rw [decode_ascii_cons (by decide)]
  exact apart_cons (by decide) _

/-- What can follow a tree in a text does not go on with its last lexeme. -/
theorem breaks_delimiter {b : UInt8} (hb : b = 32 ∨ b = 40 ∨ b = 41 ∨ b = 44) (rest : Bytes) :
    Breaks (decode (b :: rest)) := by
  rcases hb with rfl | rfl | rfl | rfl <;>
    exact breaks_ascii_cons (by decide) rest (by decide +kernel)

theorem legible_grouped {needed : Bool} {ss : List (Segment UInt8 Lexeme)} {rest : Bytes}
    (h : ∀ rest, Breaks (decode rest) → Legible ss rest) (hrest : Breaks (decode rest)) :
    Legible (grouped needed ss) rest := by
  unfold grouped
  split
  · refine .cons (begins_leftParen _) (.append (h _ ?_) (.cons (begins_rightParen _) .nil))
    exact breaks_delimiter (Or.inr (Or.inr (Or.inl rfl))) _
  · exact h rest hrest

def Leads (ss : List (Segment UInt8 Lexeme)) : Prop :=
  ∃ s more type, ss = s :: more ∧ s.label = .token type ∧ type ≠ .op .equalEqual

theorem Leads.grouped (needed : Bool) {ss : List (Segment UInt8 Lexeme)} (h : Leads ss) :
    Leads (grouped needed ss) := by
  unfold Expr.grouped
  split
  · exact ⟨_, _, .leftParen, rfl, rfl, by simp⟩
  · exact h

theorem Leads.append {as : List (Segment UInt8 Lexeme)} (h : Leads as)
    (bs : List (Segment UInt8 Lexeme)) : Leads (as ++ bs) := by
  obtain ⟨s, more, type, rfl, hs, htype⟩ := h
  exact ⟨s, more ++ bs, type, rfl, hs, htype⟩

theorem leads_segments (T : Table) {e : Expr} (h : Built e) : Leads (e.segments T) := by
  induction h using Built.induct with
  | literal t _ ht _ =>
    rw [segments]
    refine ⟨_, [], t.type, rfl, rfl, fun heq => ?_⟩
    simp [heq, TokenType.isLiteral] at ht
  | ident t _ ht _ =>
    rw [segments]
    exact ⟨_, [], t.type, rfl, rfl, by simp [ht]⟩
  | unary op x _ hu _ _ _ =>
    rw [segments]
    refine ⟨_, _, op.type, rfl, rfl, fun heq => ?_⟩
    rw [heq] at hu
    cases hu
  | binary c op l r _ _ _ _ _ ihl _ =>
    rw [segments]
    exact (ihl.grouped _).append _
  | call p f args _ _ _ _ _ ihf _ =>
    rw [segments]
    exact (ihf.grouped _).append _

theorem legible_segmentsAll (T : Table) {es : List Expr} {rest : Bytes}
    (h : ∀ e ∈ es, ∀ rest, Breaks (decode rest) → Legible (e.segments T) rest)
    (hrest : Breaks (decode rest)) : Legible (segmentsAll T es) rest := by
  induction es with
  | nil =>
    rw [segmentsAll]
    exact .nil
  | cons e es ih =>
    cases es with
    | nil =>
      rw [segmentsAll]
      exact h e (by simp) rest hrest
    | cons e' es =>
      rw [segmentsAll_cons_cons]
      refine .append (h e (by simp) _ ?_) (.cons (begins_comma _) (.cons (begins_blank _) (ih ?_)))
      · exact breaks_delimiter (Or.inr (Or.inr (Or.inr rfl))) _
      · exact fun x hx => h x (List.mem_cons_of_mem _ hx)

theorem isWord_symbol_of_isUnary {o : Operator} (h : o.isUnary = true) :
    Writer.isWord o.symbol = false := by
  cases o with
  | minus | bang | tilde => decide +kernel
  | _ => cases h

/-- **The source text of a built tree is cut into its segments.** -/
theorem legible_segments (T : Table) {e : Expr} (h : Built e) :
    ∀ rest, Breaks (decode rest) → Legible (e.segments T) rest := by
  induction h using Built.induct with
  | literal t _ ht hs =>
    intro rest hrest
    rw [segments]
    exact .cons (begins_literal ht hs hrest) .nil
  | ident t _ ht hs =>
    intro rest hrest
    rw [segments, ht]
    exact .cons (begins_identifier hs hrest) .nil
  | unary op x _ hu _ hx ih =>
    intro rest hrest
    obtain ⟨o, ho, hunary⟩ := exists_op_of_isUnary hu
    have hword := isWord_symbol_of_isUnary hunary
    have hoperand : Legible (grouped (needsParens (x.precedence T)
        ⟨unaryLevel T op.type, .right⟩ .right) (x.segments T)) rest := legible_grouped ih hrest
    rw [segments, ho, TokenType.name, hword, if_neg Bool.false_ne_true, List.nil_append, ← ho]
    refine .cons ?_ hoperand
    obtain ⟨s, more, type, heq, hs, htype⟩ := (leads_segments T hx).grouped
      (needsParens (x.precedence T) ⟨unaryLevel T op.type, .right⟩ .right)
    rw [heq] at hoperand ⊢
    rw [ho]
    exact begins_prefix hunary (hoperand.head_ne hs htype)
  | binary c op l r _ hc _ _ _ ihl ihr =>
    intro rest hrest
    obtain ⟨o, ho⟩ := exists_op_of_category? hc
    rw [segments]
    refine .append (legible_grouped ihl ?_)
      (.cons (begins_blank _) (.cons ?_ (.cons (begins_blank _) (legible_grouped ihr hrest))))
    · exact breaks_delimiter (Or.inl rfl) _
    · rw [ho]
      exact begins_symbol o (apart_blank _)
  | call p f args _ _ _ _ _ ihf ihargs =>
    intro rest hrest
    rw [segments]
    refine .append (legible_grouped ihf ?_) (.cons (begins_leftParen _)
      (.append (legible_segmentsAll T ihargs ?_) (.cons (begins_rightParen _) .nil)))
    · exact breaks_delimiter (Or.inr (Or.inl rfl)) _
    · exact breaks_delimiter (Or.inr (Or.inr (Or.inl rfl))) _

/-- The pieces of the source text are cut into the pieces of the segments. -/
theorem cut_source (T : Table) {e : Expr} (h : Built e) :
    Segment.cut leadPiece (pieces (e.source T)) =
      (e.segments T).map fun s => ⟨pieces s.text, s.label⟩ := by
  have hcut := cut_of_legible (legible_segments T h [] (by intro c hc; cases hc))
  rw [List.append_nil, pieces_nil, Segment.cut_nil, List.append_nil, ← source_eq] at hcut
  exact hcut

/-- **The source text determines the segments.** -/
theorem segments_inj (T : Table) {a b : Expr} (ha : Built a) (hb : Built b)
    (h : a.source T = b.source T) : a.segments T = b.segments T := by
  have hcut := cut_source T ha
  rw [h, cut_source T hb] at hcut
  refine (List.map_injective_iff.mpr ?_ hcut).symm
  rintro ⟨text, label⟩ ⟨text', label'⟩ heq
  obtain ⟨hpieces, rfl⟩ := Segment.mk.inj heq
  obtain rfl : text = text' := pieces_injective hpieces
  rfl

/-! ### All segments of a source text -/

theorem forall_grouped {P : Segment UInt8 Lexeme → Prop} (hopen : P (lexeme .leftParen "("))
    (hclose : P (lexeme .rightParen ")")) (needed : Bool) {ss : List (Segment UInt8 Lexeme)}
    (h : ∀ s ∈ ss, P s) : ∀ s ∈ grouped needed ss, P s := by
  unfold grouped
  split
  · simp only [List.mem_cons, List.mem_append, List.not_mem_nil, or_false]
    rintro s (rfl | hs | rfl)
    · exact hopen
    · exact h s hs
    · exact hclose
  · exact h

theorem forall_segmentsAll {P : Segment UInt8 Lexeme → Prop} (hblank : P blank)
    (hcomma : P (lexeme .comma ",")) (T : Table) {es : List Expr}
    (h : ∀ e ∈ es, ∀ s ∈ e.segments T, P s) : ∀ s ∈ segmentsAll T es, P s := by
  induction es with
  | nil =>
    rw [segmentsAll]
    simp
  | cons e es ih =>
    cases es with
    | nil =>
      rw [segmentsAll]
      exact h e (by simp)
    | cons e' es =>
      rw [segmentsAll_cons_cons]
      simp only [List.mem_append, List.mem_cons]
      rintro s (hs | rfl | rfl | hs)
      · exact h e (by simp) s hs
      · exact hcomma
      · exact hblank
      · exact ih (fun x hx => h x (List.mem_cons_of_mem _ hx)) s hs

/-- **The segments of a built tree** are spaces, parentheses, commas, operators and its leaves. -/
theorem forall_segments {P : Segment UInt8 Lexeme → Prop} (hblank : P blank)
    (hopen : P (lexeme .leftParen "(")) (hclose : P (lexeme .rightParen ")"))
    (hcomma : P (lexeme .comma ",")) (hsymbol : ∀ o : Operator, P (lexeme (.op o) o.symbol))
    (T : Table) {e : Expr} (h : Built e) :
    (∀ n ∈ e.nodes, n.children = [] → P (lexeme n.token.type n.token.lexeme)) →
      ∀ s ∈ e.segments T, P s := by
  have hchild : ∀ {e c : Expr},
      (∀ n ∈ e.nodes, n.children = [] → P (lexeme n.token.type n.token.lexeme)) →
      c ∈ e.children → ∀ n ∈ c.nodes, n.children = [] → P (lexeme n.token.type n.token.lexeme) :=
    fun hleaf hc => (forall_nodes.mp hleaf).2 _ hc
  induction h using Built.induct with
  | literal t _ _ _ =>
    intro hleaf
    rw [segments]
    exact List.forall_mem_singleton.mpr ((forall_nodes.mp hleaf).1 rfl)
  | ident t _ _ _ =>
    intro hleaf
    rw [segments]
    exact List.forall_mem_singleton.mpr ((forall_nodes.mp hleaf).1 rfl)
  | unary op x _ hu _ _ ih =>
    intro hleaf
    obtain ⟨o, ho, hunary⟩ := exists_op_of_isUnary hu
    have hword := isWord_symbol_of_isUnary hunary
    have hx := ih (hchild hleaf (by simp [children]))
    rw [segments, ho, TokenType.name, hword, if_neg Bool.false_ne_true, List.nil_append]
    exact List.forall_mem_cons.mpr ⟨hsymbol o, forall_grouped hopen hclose _ hx⟩
  | binary c op l r _ hc _ _ _ ihl ihr =>
    intro hleaf
    obtain ⟨o, ho⟩ := exists_op_of_category? hc
    have hl := ihl (hchild hleaf (by simp [children]))
    have hr := ihr (hchild hleaf (by simp [children]))
    rw [segments]
    simp only [List.mem_append, List.mem_cons]
    rintro s (hs | rfl | rfl | rfl | hs)
    · exact forall_grouped hopen hclose _ hl s hs
    · exact hblank
    · rw [ho]
      exact hsymbol o
    · exact hblank
    · exact forall_grouped hopen hclose _ hr s hs
  | call p f args _ _ _ _ _ ihf ihargs =>
    intro hleaf
    have hf := ihf (hchild hleaf (by simp [children]))
    have hargs := forall_segmentsAll hblank hcomma T fun a ha =>
      ihargs a ha (hchild hleaf (by simp [children, ha]))
    rw [segments]
    simp only [List.mem_append, List.mem_cons, List.not_mem_nil, or_false]
    rintro s (hs | rfl | hs | rfl)
    · exact forall_grouped hopen hclose _ hf s hs
    · exact hopen
    · exact hargs s hs
    · exact hclose

/-! ### Tokens of the source text -/

/-- The segment is a space or a lexeme, and has no stray byte. -/
def Clean (s : Segment UInt8 Lexeme) : Prop :=
  isValid s.text = true ∧ ∀ fault, s.label ≠ .rejected fault

theorem clean_lexeme {type : TokenType} {text : Bytes} (h : isValid text = true) :
    Clean (lexeme type text) := ⟨h, fun _ h => by cases h⟩

theorem isValid_of_isLiteral {type : TokenType} {bs : Bytes} (htype : type.isLiteral = true)
    (h : Spelling.isLiteral type bs = true) (hstring : type ≠ .string) : isValid bs = true := by
  cases type with
  | number => exact isValid_of_isNumber h
  | string => exact absurd rfl hstring
  | trueWord | falseWord | nilWord =>
    rw [beq_iff_eq.mp h]
    decide
  | _ => cases htype

theorem isValid_leaf {e : Expr} (h : Built e) (hleaf : e.children = [])
    (hvalid : e.token.type = .string → isValid e.token.lexeme = true) :
    isValid e.token.lexeme = true := by
  induction h using Built.induct with
  | literal t _ ht hs =>
    by_cases hstring : t.type = .string
    · exact hvalid hstring
    · exact isValid_of_isLiteral ht hs hstring
  | ident t _ _ hs =>
    obtain ⟨c, cs, hlex, -⟩ := exists_of_isIdentifier hs
    show isValid t.lexeme = true
    rw [hlex]
    exact isValid_encode _
  | _ => cases hleaf

theorem clean_segments (T : Table) {e : Expr} (h : Built e) (hvalid : e.ValidStrings) :
    ∀ s ∈ e.segments T, Clean s := by
  refine forall_segments ⟨by decide, fun _ h => by cases h⟩ (clean_lexeme (by decide))
    (clean_lexeme (by decide)) (clean_lexeme (by decide)) (fun o => clean_lexeme ?_) T h
    fun n hn hleaf => clean_lexeme (isValid_leaf (h.of_mem_nodes n hn) hleaf (hvalid n hn))
  cases o <;> decide

/-- The type and the text of a segment that becomes a token. -/
def token? (s : Segment UInt8 Lexeme) : Option (TokenType × Bytes) :=
  match s.label with
  | .token type => some (type, s.text)
  | _ => none

/-- The tokens spell the segments, one for each lexeme. -/
def Spelt (ts : List Token) (ss : List (Segment UInt8 Lexeme)) : Prop :=
  List.Forall₂ (fun t l => t.Spells l.1 l.2) ts (ss.filterMap token?)

theorem segments_decode_source (T : Table) {e : Expr} (h : Built e) :
    Lexeme.segments (decode (e.source T)) =
      (e.segments T).map fun s => ⟨decode s.text, s.label⟩ := by
  rw [Lexeme.segments, decode, Segment.cut_map]
  show (Segment.cut leadPiece (pieces (e.source T))).map _ = _
  rw [cut_source T h, List.map_map]
  rfl

/-- **Scanning the source text of a tree** whose strings have no stray byte gives a token for each
lexeme and no error. -/
theorem scan_source (T : Table) {e : Expr} (h : Built e) (hvalid : e.ValidStrings) (line : Int64) :
    (Scan.ofBytes line (e.source T)).errors = [] ∧
      Spelt (Scan.ofBytes line (e.source T)).stream.tokens (e.segments T) := by
  have hclean := clean_segments T h hvalid
  constructor
  · refine Scan.errors_ofChars line fun s hs => ?_
    rw [segments_decode_source T h] at hs
    obtain ⟨s', hs', rfl⟩ := List.mem_map.mp hs
    exact (hclean s' hs').2
  · have htokens := Scan.tokens_ofChars line (decode (e.source T))
    have hsame : ∀ s ∈ e.segments T, spelled? ⟨decode s.text, s.label⟩ = token? s := by
      intro s hs
      unfold spelled? token?
      cases s.label with
      | token type => rw [encode_decode (hclean s hs).1]
      | _ => rfl
    rw [segments_decode_source T h, List.filterMap_map] at htokens
    have hlexemes := List.filterMap_congr hsame
    rwa [Spelt, ← hlexemes]

end Fixity.Expr
