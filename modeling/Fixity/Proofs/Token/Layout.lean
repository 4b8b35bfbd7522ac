import Fixity.Proofs.Token.Longest
import Fixity.Proofs.Token.Scan

/-!
# Layout

Between tokens there may be white space and comments.  How much of them makes no difference, as long as
two tokens have white space behind the first: a text with the same lexemes in another layout has the
same tokens, except for their places, and no errors (`Scan.tokens_of_laidOut`).

    a<=/* * / " */b        a <= // "
                             b

A lexeme is found whole in front of white space (`Lexeme.begins_of_hasLexeme`).  What stands between two
lexemes is cut into segments of its own (`Lexeme.segments_gap`), each a white-space character or a
comment that ends at its first end.
-/

namespace Fixity

open Utf8

/-- What a token says besides its place. -/
def Token.content (t : Token) : TokenType × Bytes × Literal := (t.type, t.lexeme, t.literal)

theorem Token.Spells.content_eq {t t' : Token} (h : t.Spells t.type t.lexeme)
    (h' : t'.Spells t.type t.lexeme) : t'.content = t.content := by
  obtain ⟨-, -, hliteral⟩ := h
  obtain ⟨htype', hlexeme', hliteral'⟩ := h'
  rw [content, content, htype', hlexeme', hliteral', hliteral]

namespace Lexeme

/-! ### Gaps -/

/-- White space and comments, each comment with its end. -/
inductive IsGap : List Char → Prop
  | nil : IsGap []
  | blank {c : Char} {cs : List Char} : c ∈ blanks → IsGap cs → IsGap (c :: cs)
  | block {body cs : List Char} : Unclosed body → IsGap cs →
      IsGap ('/' :: '*' :: (body ++ '*' :: '/' :: cs))
  | line {body cs : List Char} : '\n' ∉ body → IsGap cs →
      IsGap ('/' :: '/' :: (body ++ '\n' :: cs))

/-- The lexemes of the tokens in their order.  After each of them there is a gap that begins with white
space, except that nothing need follow the last. -/
inductive Spaced : List Token → List Char → Prop
  | nil : Spaced [] []
  | last {t : Token} : Spaced [t] (decode t.lexeme)
  | cons {t : Token} {ts : List Token} {c : Char} {gap cs : List Char} : c ∈ blanks → IsGap gap →
      Spaced ts cs → Spaced (t :: ts) (decode t.lexeme ++ c :: (gap ++ cs))

/-- The text is a layout of the tokens: a gap, and then their lexemes with gaps after them. -/
def LaidOut (ts : List Token) (text : List Char) : Prop :=
  ∃ gap cs, IsGap gap ∧ Spaced ts cs ∧ text = gap ++ cs

theorem toCommentEnd?_of_unclosed {body : List Char} (h : Unclosed body) (rest : List Char) :
    ∀ n, toCommentEnd? n (body ++ '*' :: '/' :: rest) = some (n + (body.length + 2)) := by
  induction body with
  | nil =>
    intro n
    rfl
  | cons c body ih =>
    intro n
    have hstep : toCommentEnd? n (c :: (body ++ '*' :: '/' :: rest)) =
        toCommentEnd? (n + 1) (body ++ '*' :: '/' :: rest) := by
      -- the character after `c` is in the comment, or it is the star of its end
      cases body with
      | nil => exact if_neg fun hend => absurd hend.2 (by decide)
      | cons d body => exact if_neg (unclosed_cons_cons.mp h).1
    have hbody : Unclosed body := fun hpair => h (hpair.trans (List.suffix_cons c body).isInfix)
    rw [List.cons_append, hstep, ih hbody, List.length_cons]
    congr 1
    omega

theorem segments_blank {c : Char} (hc : c ∈ blanks) (cs : List Char) :
    segments (c :: cs) = ⟨[c], .blank⟩ :: segments cs := by
  have hlead : lead c ([] ++ cs) = (.blank, ([] : List Char).length) := by
    simp only [blanks, List.mem_cons, List.not_mem_nil, or_false] at hc
    rcases hc with rfl | rfl | rfl | rfl <;> rfl
  exact Segment.cut_of_lead lead hlead

theorem segments_block {body : List Char} (h : Unclosed body) (cs : List Char) :
    segments ('/' :: '*' :: (body ++ '*' :: '/' :: cs)) =
      ⟨'/' :: '*' :: (body ++ ['*', '/']), .comment⟩ :: segments cs := by
  have hslash : slash ('*' :: (body ++ '*' :: '/' :: cs)) = (.comment, body.length + 3) := by
    rw [slash, toCommentEnd?_of_unclosed h]
    simp only [Prod.mk.injEq, true_and]
    omega
  have htext : '*' :: (body ++ '*' :: '/' :: cs) = '*' :: (body ++ ['*', '/']) ++ cs := by simp
  rw [htext] at hslash ⊢
  exact Segment.cut_of_lead lead (hslash.trans (by simp))

theorem segments_line {body : List Char} (h : '\n' ∉ body) (cs : List Char) :
    segments ('/' :: '/' :: (body ++ '\n' :: cs)) =
      ⟨'/' :: '/' :: body, .comment⟩ :: ⟨['\n'], .blank⟩ :: segments cs := by
  have hall : body.all (· != '\n') = true :=
    List.all_eq_true.mpr fun c hc => bne_iff_ne.mpr fun heq => h (heq ▸ hc)
  have hstop : ∀ c ∈ ('\n' :: cs).head?, (c != '\n') = false := by
    intro c hc
    obtain rfl := Option.some.inj hc
    rfl
  have hlead : lead '/' (('/' :: body) ++ '\n' :: cs) = (.comment, ('/' :: body).length) := by
    show slash ('/' :: (body ++ '\n' :: cs)) = _
    rw [slash, takeWhile_append_of_stop hall hstop, Nat.add_comm, List.length_cons]
  rw [← segments_blank (by decide)]
  exact Segment.cut_of_lead lead hlead

/-- **A gap is cut into white space and comments**, whatever follows it. -/
theorem segments_gap {gap : List Char} (h : IsGap gap) (cs : List Char) :
    ∃ segs, segments (gap ++ cs) = segs ++ segments cs ∧
      ∀ s ∈ segs, s.label = .blank ∨ s.label = .comment := by
  induction h with
  | nil => exact ⟨[], rfl, by simp⟩
  | @blank c gap hc _ ih =>
    obtain ⟨segs, hsegs, hall⟩ := ih
    refine ⟨⟨[c], .blank⟩ :: segs, ?_, List.forall_mem_cons.mpr ⟨Or.inl rfl, hall⟩⟩
    rw [List.cons_append, segments_blank hc, hsegs, List.cons_append]
  | @block body gap hbody _ ih =>
    obtain ⟨segs, hsegs, hall⟩ := ih
    refine ⟨⟨'/' :: '*' :: (body ++ ['*', '/']), .comment⟩ :: segs, ?_,
      List.forall_mem_cons.mpr ⟨Or.inr rfl, hall⟩⟩
    simp only [List.cons_append, List.append_assoc]
    rw [segments_block hbody, hsegs]
  | @line body gap hbody _ ih =>
    obtain ⟨segs, hsegs, hall⟩ := ih
    refine ⟨⟨'/' :: '/' :: body, .comment⟩ :: ⟨['\n'], .blank⟩ :: segs, ?_,
      List.forall_mem_cons.mpr ⟨Or.inr rfl, List.forall_mem_cons.mpr ⟨Or.inl rfl, hall⟩⟩⟩
    simp only [List.cons_append, List.append_assoc]
    rw [segments_line hbody, hsegs]

/-! ### Tokens of a layout -/

/-- The segments are those of the tokens, with nothing but white space and comments between them. -/
structure Yields (segs : List (Segment Char Lexeme)) (ts : List Token) : Prop where
  spelled : segs.filterMap spelled? = ts.map fun t => (t.type, t.lexeme)
  accepted : ∀ s ∈ segs, ∀ fault, s.label ≠ .rejected fault

theorem Yields.gap {segs segs' : List (Segment Char Lexeme)} {ts : List Token}
    (hgap : ∀ s ∈ segs, s.label = .blank ∨ s.label = .comment) (h : Yields segs' ts) :
    Yields (segs ++ segs') ts where
  spelled := by
    have hnone : segs.filterMap spelled? = [] := List.filterMap_eq_nil_iff.mpr fun s hs => by
      rcases hgap s hs with hlabel | hlabel <;> rw [spelled?, hlabel]
    rw [List.filterMap_append, hnone, List.nil_append, h.spelled]
  accepted := by
    intro s hs fault
    rcases List.mem_append.mp hs with hs | hs
    · rcases hgap s hs with hlabel | hlabel <;> simp [hlabel]
    · exact h.accepted s hs fault

theorem Yields.lexeme {t : Token} {ts : List Token} {rest : List Char}
    (ht : t.type.HasLexeme t.lexeme) (hvalid : isValid t.lexeme = true) (hrest : Apart rest)
    (h : Yields (segments rest) ts) : Yields (segments (decode t.lexeme ++ rest)) (t :: ts) := by
  obtain ⟨c, cs, hdecode, hlead⟩ :=
    (begins_of_hasLexeme ht (show Apart (decode (encode rest)) by rwa [decode_encode])).found
  rw [decode_encode] at hlead
  have hcut : segments (decode t.lexeme ++ rest) =
      ⟨decode t.lexeme, .token t.type⟩ :: segments rest := by
    rw [hdecode]
    exact Segment.cut_of_lead Lexeme.lead hlead
  rw [hcut]
  constructor
  · have hspelled : spelled? ⟨decode t.lexeme, .token t.type⟩ = some (t.type, t.lexeme) := by
      rw [spelled?, encode_decode hvalid]
    rw [List.filterMap_cons_some hspelled, h.spelled, List.map_cons]
  · exact List.forall_mem_cons.mpr ⟨fun fault => by simp, h.accepted⟩

theorem yields_of_spaced {ts : List Token} {cs : List Char} (h : Spaced ts cs)
    (hts : ∀ t ∈ ts, t.type.HasLexeme t.lexeme ∧ isValid t.lexeme = true) :
    Yields (segments cs) ts := by
  have hnil : Yields (segments []) [] := ⟨rfl, by simp [segments]⟩
  induction h with
  | nil => exact hnil
  | @last t =>
    obtain ⟨ht, hvalid⟩ := hts t (by simp)
    have hlast := hnil.lexeme ht hvalid apart_nil
    rwa [List.append_nil] at hlast
  | @cons t ts c gap cs hc hgap _ ih =>
    obtain ⟨⟨ht, hvalid⟩, hts⟩ := List.forall_mem_cons.mp hts
    obtain ⟨segs, hsegs, hall⟩ := segments_gap (.blank hc hgap) cs
    have hrest : Yields (segments (c :: (gap ++ cs))) ts := by
      rw [← List.cons_append, hsegs]
      exact (ih hts).gap hall
    exact hrest.lexeme ht hvalid (apart_cons hc _)

end Lexeme

namespace Scan

open Lexeme

theorem map_content_eq {ts ts' : List Token} (h : ∀ t ∈ ts, t.Spells t.type t.lexeme)
    (h' : List.Forall₂ (fun t' t => t'.Spells t.type t.lexeme) ts' ts) :
    ts'.map Token.content = ts.map Token.content := by
  induction h' with
  | nil => rfl
  | cons hhead _ ih =>
    obtain ⟨ht, hts⟩ := List.forall_mem_cons.mp h
    rw [List.map_cons, List.map_cons, ht.content_eq hhead, ih hts]

/-- **Layout does not matter.**  The tokens of a text, laid out in any other way, are the tokens of the
new text, which has no errors. -/
theorem tokens_of_laidOut (line line' : Int64) {src text : List Char}
    (h : LaidOut (ofChars line src).stream.tokens text) :
    (ofChars line' text).errors = [] ∧
    (ofChars line' text).stream.tokens.map Token.content =
      (ofChars line src).stream.tokens.map Token.content ∧
    (ofChars line' text).stream.last = ⟨.eof, [], .none, placeAfter line' text⟩ := by
  obtain ⟨gap, cs, hgap, hspaced, rfl⟩ := h
  have hts : ∀ t ∈ (ofChars line src).stream.tokens,
      t.type.HasLexeme t.lexeme ∧ isValid t.lexeme = true :=
    fun t ht => ⟨hasLexeme_of_mem ht, (scanned_of_mem ht).valid⟩
  obtain ⟨segs, hsegs, hall⟩ := segments_gap hgap cs
  have hyields : Yields (segments (gap ++ cs)) (ofChars line src).stream.tokens := by
    rw [hsegs]
    exact (yields_of_spaced hspaced hts).gap hall
  refine ⟨errors_ofChars line' hyields.accepted, ?_, by rw [ofChars_eq]⟩
  have hspells := tokens_ofChars line' (gap ++ cs)
  rw [hyields.spelled, List.forall₂_map_right_iff] at hspells
  exact map_content_eq (fun t ht => (scanned_of_mem ht).spells) hspells

/-- The text `a<=b` with a comment in front of it that holds a quote, another one after `<=` that holds
a star, and line ends. -/
def commented : List Char :=
  ['/', '*', '"', '*', '/', 'a', ' ', '<', '=', '\t', '/', '/', '*', '\n', 'b', '\n']

/-- The comments and line ends of `commented` make no difference. -/
theorem tokens_commented : LaidOut (ofChars 1 ['a', '<', '=', 'b']).stream.tokens commented ∧
    (ofChars 1 commented).errors = [] ∧
    (ofChars 1 commented).stream.tokens.map Token.content =
      (ofChars 1 ['a', '<', '=', 'b']).stream.tokens.map Token.content ∧
    (ofChars 1 commented).stream.last = ⟨.eof, [], .none, placeAfter 1 commented⟩ := by
  have htokens : (ofChars 1 ['a', '<', '=', 'b']).stream.tokens =
      [⟨.identifier, "a", .none, ⟨1, 1⟩⟩, ⟨.op .lessEqual, "<=", .none, ⟨1, 2⟩⟩,
        ⟨.identifier, "b", .none, ⟨1, 4⟩⟩] := by
    decide +kernel
  have hlaidOut : LaidOut (ofChars 1 ['a', '<', '=', 'b']).stream.tokens commented := by
    rw [htokens]
    have hquote : Unclosed ['"'] := fun hpair => absurd hpair (by decide)
    have hstar : '\n' ∉ ['*'] := by decide
    exact ⟨_, _, .block hquote .nil,
      .cons (show ' ' ∈ blanks by decide) .nil
        (.cons (show '\t' ∈ blanks by decide) (.line hstar .nil)
          (.cons (show '\n' ∈ blanks by decide) .nil .nil)), by decide +kernel⟩
  exact ⟨hlaidOut, tokens_of_laidOut 1 1 hlaidOut⟩

end Scan

end Fixity
