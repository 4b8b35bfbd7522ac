import Fixity.Proofs.Token.Leaf

/-!
# The longest lexeme

A token of a text is the longest lexeme that begins where it begins, and it is the same token when its
lexeme stands alone (`Scan.tokens_longest`):

    a <= b      has the token   <=   and not   <
    1.5.2       has the token   1.5  and not   1.

Both halves compare the spelling of a lexeme with what is found where it stands.  What is found is never
shorter than a lexeme that stands there (`Lexeme.length_le_of_hasLexeme`), and in front of white space
or nothing it is that lexeme (`Lexeme.begins_of_hasLexeme`).
-/

namespace Fixity

open Utf8

namespace Lexeme

/-! ### A lexeme and what follows it -/

/-- **Every lexeme is found whole** in front of white space and at the end of a text. -/
theorem begins_of_hasLexeme {type : TokenType} {bs rest : Bytes} (h : type.HasLexeme bs)
    (hrest : Apart (decode rest)) : Begins bs rest (.token type) := by
  cases type with
  | leftParen =>
    obtain rfl : bs = "(" := h
    exact begins_encode '(' [] rfl
  | rightParen =>
    obtain rfl : bs = ")" := h
    exact begins_encode ')' [] rfl
  | comma =>
    obtain rfl : bs = "," := h
    exact begins_encode ',' [] rfl
  | op o =>
    obtain rfl : bs = o.symbol := h
    exact begins_symbol o hrest
  | identifier => exact begins_identifier h hrest.breaks
  | string => exact begins_string h
  | number => exact begins_number h hrest.breaks
  | trueWord | falseWord | nilWord => exact begins_literal rfl (h.isLiteral rfl) hrest.breaks
  | eof => exact h.elim
  | other name free => exact h.elim

/-- Characters that are one lexeme in front of others. -/
theorem lead_of_begins {c : Char} {cs : List Char} {rest : Bytes} {label : Lexeme}
    (h : Begins (encode (c :: cs)) rest label) : lead c (cs ++ decode rest) = (label, cs.length) := by
  obtain ⟨x, xs, hx, hfound⟩ := h.found
  rw [decode_encode] at hx
  obtain ⟨rfl, rfl⟩ := List.cons.inj hx
  exact hfound

/-! ### No longer lexeme -/

theorem length_le_number {ds : List Char} (hds : ds.all isDigit = true) (rest : List Char) :
    ds.length ≤ (number (ds ++ rest)).2 := by
  have hwhole : ds.length ≤ ((ds ++ rest).takeWhile isDigit).length := by
    rw [List.takeWhile_append_of_pos (List.all_eq_true.mp hds), List.length_append]
    omega
  unfold number
  simp only
  split
  · split <;> simp only <;> omega
  · exact hwhole

theorem length_le_fraction {d : Char} {ds fs : List Char} (hds : ds.all isDigit = true)
    (hd : isDigit d = true) (hfs : fs.all isDigit = true) (rest : List Char) :
    (ds ++ '.' :: d :: fs).length ≤ (number (ds ++ '.' :: d :: (fs ++ rest))).2 := by
  have hpoint : ∀ x ∈ ('.' :: d :: (fs ++ rest)).head?, isDigit x = false := by
    intro x hx
    obtain rfl := Option.some.inj hx
    decide
  rw [number, takeWhile_append_of_stop hds hpoint]
  simp only [List.drop_left, hd, if_true]
  rw [List.takeWhile_append_of_pos (List.all_eq_true.mp hfs)]
  simp only [List.length_append, List.length_cons]
  omega

theorem length_le_word {c : Char} {cs : List Char} (hcs : cs.all continuesWord = true)
    (rest : List Char) : cs.length ≤ (word c (cs ++ rest)).2 := by
  rw [word, List.takeWhile_append_of_pos (List.all_eq_true.mp hcs), List.length_append]
  omega

/-- **What is found is no shorter than any lexeme that stands there.** -/
theorem length_le_of_hasLexeme {type : TokenType} {c : Char} {cs : List Char}
    (h : type.HasLexeme (encode (c :: cs))) (rest : List Char) :
    cs.length ≤ (lead c (cs ++ rest)).2 := by
  have hone : ∀ {x : Char}, encode (c :: cs) = encode [x] →
      cs.length ≤ (lead c (cs ++ rest)).2 := by
    intro x hx
    obtain ⟨-, rfl⟩ := List.cons.inj (encode_injective hx)
    exact Nat.zero_le _
  have htwo : ∀ {x y : Char}, encode (c :: cs) = encode [x, y] → (lead x (y :: rest)).2 = 1 →
      cs.length ≤ (lead c (cs ++ rest)).2 := by
    intro x y hx hfound
    obtain ⟨rfl, rfl⟩ := List.cons.inj (encode_injective hx)
    exact hfound.ge
  have hword : ∀ (x : Char) (xs : List Char), encode (c :: cs) = encode (x :: xs) →
      beginsWord x = true → xs.all continuesWord = true →
      cs.length ≤ (lead c (cs ++ rest)).2 := by
    intro x xs hx hc hcs
    obtain ⟨rfl, rfl⟩ := List.cons.inj (encode_injective hx)
    rw [lead_of_beginsWord hc]
    exact length_le_word hcs rest
  cases type with
  | leftParen | rightParen | comma => exact hone h
  | trueWord => exact hword 't' ['r', 'u', 'e'] h (by decide) (by decide)
  | falseWord => exact hword 'f' ['a', 'l', 's', 'e'] h (by decide) (by decide)
  | nilWord => exact hword 'n' ['i', 'l'] h (by decide) (by decide)
  | identifier =>
    obtain ⟨x, xs, hx, -, hc, hcs⟩ := exists_of_isIdentifier h
    exact hword x xs hx hc hcs
  | string =>
    -- a string ends at its quote, whatever follows
    have hbegins : Begins (encode (c :: cs)) (encode rest) (.token .string) := begins_string h
    have hfound := lead_of_begins hbegins
    rw [decode_encode] at hfound
    exact (congrArg Prod.snd hfound).ge
  | number =>
    rcases isNumber_cases h with h | ⟨whole, fraction, hbs, hwhole, hfraction⟩
    · obtain ⟨x, xs, hx, hc, hcs⟩ := exists_of_isDigits h
      obtain ⟨rfl, rfl⟩ := List.cons.inj (encode_injective hx)
      rw [lead_of_isDigit hc]
      exact length_le_number hcs rest
    · obtain ⟨x, xs, rfl, hc, hxs⟩ := exists_of_isDigits hwhole
      obtain ⟨d, fs, rfl, hd, hfs⟩ := exists_of_isDigits hfraction
      rw [encode_append_point, List.cons_append] at hbs
      obtain ⟨rfl, rfl⟩ := List.cons.inj (encode_injective hbs)
      rw [lead_of_isDigit hc, List.append_assoc]
      exact length_le_fraction hxs hd hfs rest
  | op o =>
    cases o with
    | starStar | lessLess | greaterGreater | bangEqual | equalEqual | greaterEqual | lessEqual =>
      exact htwo h rfl
    | and => exact hword 'a' ['n', 'd'] h (by decide) (by decide)
    | or => exact hword 'o' ['r'] h (by decide) (by decide)
    | _ => exact hone h
  | eof => exact h.elim
  | other name free => exact h.elim

end Lexeme

namespace Scan

open Lexeme

/-- The token is the longest lexeme where it stands, between two parts of the source: it is the same
token when its text stands alone, and with more of what follows it the text is not one token. -/
structure LongestAt (line : Int64) (src : List Char) (t : Token)
    (before text rest : List Char) : Prop where
  covers : src = before ++ (text ++ rest)
  token : t = ⟨t.type, encode text, Literal.ofLexeme t.type (encode text), placeAfter line before⟩
  alone : ∀ line', ofChars line' text =
    ⟨⟨[{ t with pos := ⟨line', 1⟩ }], ⟨.eof, [], .none, placeAfter line' text⟩⟩, []⟩
  longest : ∀ more, more <+: rest → more ≠ [] → ∀ line' t',
    (ofChars line' (text ++ more)).stream.tokens = [t'] → t'.lexeme ≠ encode (text ++ more)

theorem ofChars_of_hasLexeme {type : TokenType} {text : List Char} (line : Int64)
    (h : type.HasLexeme (encode text)) : ofChars line text =
      ⟨⟨[⟨type, encode text, Literal.ofLexeme type (encode text), ⟨line, 1⟩⟩],
        ⟨.eof, [], .none, placeAfter line text⟩⟩, []⟩ := by
  have hbegins : Begins (encode text) [] (.token type) := begins_of_hasLexeme h apart_nil
  have halone := ofBytes_of_begins line hbegins (isValid_encode text)
  rwa [ofBytes, decode_encode] at halone

/-- With more of what follows it, what is found at a character is no lexeme. -/
theorem not_hasLexeme_of_prefix {c : Char} {cs more : List Char}
    (hmore : more <+: cs.drop (Lexeme.lead c cs).2) (hne : more ≠ []) (type : TokenType) :
    ¬ type.HasLexeme (encode (c :: (cs.take (Lexeme.lead c cs).2 ++ more))) := by
  intro h
  obtain ⟨rest, hrest⟩ := hmore
  have hcs : cs.take (Lexeme.lead c cs).2 ++ more ++ rest = cs := by
    rw [List.append_assoc, hrest, List.take_append_drop]
  have hle := length_le_of_hasLexeme h rest
  have hlength := congrArg List.length hrest
  have hpos := List.length_pos_iff.mpr hne
  rw [hcs, List.length_append, List.length_take] at hle
  rw [List.length_append, List.length_drop] at hlength
  omega

/-- **Every token is the longest lexeme where it stands**, and does not depend on what stands around
it. -/
theorem tokens_longest (line : Int64) (src : List Char) {t : Token}
    (h : t ∈ (ofChars line src).stream.tokens) :
    ∃ before text rest, LongestAt line src t before text rest := by
  have hlexeme := hasLexeme_of_mem h
  obtain ⟨as, bs, text, hsplit, htext, hliteral, hpos⟩ := exists_of_mem_tokens h
  have hcovers := Segment.flatMap_text_cut Lexeme.lead src
  rw [← segments, hsplit, List.flatMap_append, List.flatMap_cons] at hcovers
  obtain ⟨type, lexeme, literal, pos⟩ := t
  obtain rfl : lexeme = encode text := htext
  obtain rfl : literal = Literal.ofLexeme type (encode text) := hliteral
  obtain rfl : pos = placeAfter line (as.flatMap Segment.text) := hpos
  refine ⟨as.flatMap Segment.text, text, bs.flatMap Segment.text, hcovers.symm, rfl,
    fun line' => ofChars_of_hasLexeme line' hlexeme, fun more hmore hne line' t' htokens heq => ?_⟩
  obtain ⟨c, cs, hs, rfl⟩ := Segment.exists_lead_of_cut hsplit
  obtain ⟨rfl, -⟩ := Segment.mk.inj hs
  rw [Segment.flatMap_text_cut] at hmore
  have hmem : t' ∈ (ofChars line' _).stream.tokens := htokens ▸ List.mem_singleton_self t'
  have hlonger := hasLexeme_of_mem hmem
  rw [heq] at hlonger
  exact not_hasLexeme_of_prefix hmore hne _ hlonger

/-- In `a <<= 1` the shift is the longest lexeme at its place, and `=` is left over. -/
theorem tokens_longest_shift :
    (⟨.op .lessLess, "<<", .none, ⟨1, 3⟩⟩ : Token) ∈
      (ofChars 1 ['a', ' ', '<', '<', '=', ' ', '1']).stream.tokens ∧
    ∃ before text rest, LongestAt 1 ['a', ' ', '<', '<', '=', ' ', '1']
      ⟨.op .lessLess, "<<", .none, ⟨1, 3⟩⟩ before text rest := by
  have hmem : (⟨.op .lessLess, "<<", .none, ⟨1, 3⟩⟩ : Token) ∈
      (ofChars 1 ['a', ' ', '<', '<', '=', ' ', '1']).stream.tokens := by
    decide +kernel
  exact ⟨hmem, tokens_longest 1 _ hmem⟩

end Scan

end Fixity
