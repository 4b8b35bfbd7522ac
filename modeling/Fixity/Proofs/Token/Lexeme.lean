import Fixity.Expr
import Fixity.Proofs.Segment
import Fixity.Proofs.Text.Classes
import Fixity.Proofs.Text.Utf8
import Fixity.Token.Scan

/-!
# Where lexemes end

A leaf, a word or a symbol is found whole when what follows it does not go on with it:

* `lead_number`, `lead_word` in front of anything that `Breaks` off a word, `lead_string` in front of all;
* `begins_symbol` in front of white space, `begins_prefix` in front of anything but `=`.

`Legible segments rest` says this of a list of byte strings, each in front of those after it.  The text
that they make is then cut where they join (`cut_of_legible`).  The cut is one of pieces and not of
characters, so that strings with stray bytes keep them.
-/

namespace Fixity.Lexeme

open Utf8

/-! ### Characters -/

def blanks : List Char := [' ', '\r', '\t', '\n']

/-- The text does not go on with a word or a number in front of it. -/
def Breaks (cs : List Char) : Prop := ∀ c ∈ cs.head?, continuesWord c = false ∧ c ≠ '.'

/-- White space follows, or the end of the text. -/
def Apart (cs : List Char) : Prop := ∀ c ∈ cs.head?, c ∈ blanks

theorem Apart.breaks {cs : List Char} (h : Apart cs) : Breaks cs := by
  intro c hc
  have hblank := h c hc
  simp only [blanks, List.mem_cons, List.not_mem_nil, or_false] at hblank
  rcases hblank with rfl | rfl | rfl | rfl <;> exact ⟨by decide +kernel, by decide⟩

theorem apart_nil : Apart [] := by
  intro c hc
  cases hc

theorem apart_cons {c : Char} (hc : c ∈ blanks) (cs : List Char) : Apart (c :: cs) := by
  intro d hd
  obtain rfl := Option.some.inj hd
  exact hc

theorem isDigit_iff {c : Char} : isDigit c = true ↔ 48 ≤ c.toNat ∧ c.toNat ≤ 57 := by
  rw [isDigit, Bool.and_eq_true, decide_eq_true_eq, decide_eq_true_eq]
  rfl

theorem beginsWord_iff {c : Char} :
    beginsWord c = true ↔ c.toNat = 95 ∨ Text.isLetter c = true := by
  rw [beginsWord, Bool.or_eq_true, beq_iff_eq, ← Char.toNat_inj]
  rfl

theorem continuesWord_iff {c : Char} :
    continuesWord c = true ↔ beginsWord c = true ∨ Text.isDigitChar c = true := by
  rw [continuesWord, Bool.or_eq_true]

theorem beginsWord_eq_false_of_isDigit {c : Char} (h : isDigit c = true) :
    beginsWord c = false := by
  obtain ⟨hlo, hhi⟩ := isDigit_iff.mp h
  rw [← Bool.not_eq_true, beginsWord_iff, Text.isLetter_iff_of_ascii (by omega)]
  omega

/-- A decimal digit goes on with a word, but no word begins with one. -/
theorem continuesWord_of_isDigit {c : Char} (h : isDigit c = true) : continuesWord c = true := by
  have hdigit := isDigit_iff.mp h
  exact continuesWord_iff.mpr (Or.inr ((Text.isDigitChar_iff_of_ascii (by omega)).mpr hdigit))

theorem isDigit_eq_false {c : Char} (h : continuesWord c = false) : isDigit c = false := by
  rw [← Bool.not_eq_true] at h ⊢
  exact fun hdigit => h (continuesWord_of_isDigit hdigit)

theorem isDigit_eq_false_of_breaks {cs : List Char} (h : Breaks cs) :
    ∀ c ∈ cs.head?, isDigit c = false := fun c hc => isDigit_eq_false (h c hc).1

/-- Where the rest does not go on, a stretch is taken whole. -/
theorem takeWhile_append_of_stop {p : Char → Bool} {cs rest : List Char} (hcs : cs.all p = true)
    (hrest : ∀ c ∈ rest.head?, p c = false) : (cs ++ rest).takeWhile p = cs := by
  rw [List.takeWhile_append_of_pos (List.all_eq_true.mp hcs)]
  cases rest with
  | nil => rw [List.takeWhile_nil, List.append_nil]
  | cons c rest => rw [List.takeWhile_cons_of_neg (by simp [hrest c rfl]), List.append_nil]

theorem drop_length_takeWhile {α : Type} (p : α → Bool) (cs : List α) :
    cs.drop (cs.takeWhile p).length = cs.dropWhile p := by
  have h := congrArg (List.drop (cs.takeWhile p).length)
    (List.takeWhile_append_dropWhile (p := p) (l := cs))
  rw [List.drop_left] at h
  exact h.symm

/-! ### Numbers, strings and words -/

theorem lead_of_isDigit {c : Char} (h : isDigit c = true) (cs : List Char) :
    lead c cs = number cs := by
  unfold lead
  split
  case h_22 => rw [if_pos h]
  all_goals exact absurd h (by decide)

theorem lead_of_beginsWord {c : Char} (h : beginsWord c = true) (cs : List Char) :
    lead c cs = word c cs := by
  unfold lead
  split
  case h_22 =>
    rw [if_neg, if_pos h]
    intro hd
    rw [beginsWord_eq_false_of_isDigit hd] at h
    cases h
  all_goals exact absurd h (by decide +kernel)

theorem lead_number {c : Char} {ds rest : List Char} (hc : isDigit c = true)
    (hds : ds.all isDigit = true) (hrest : Breaks rest) :
    lead c (ds ++ rest) = (.token .number, ds.length) := by
  rw [lead_of_isDigit hc, number, takeWhile_append_of_stop hds (isDigit_eq_false_of_breaks hrest)]
  simp only [List.drop_left]
  split
  · exact absurd rfl (hrest '.' rfl).2
  · rfl

theorem lead_fraction {c d : Char} {ds fs rest : List Char} (hc : isDigit c = true)
    (hds : ds.all isDigit = true) (hd : isDigit d = true) (hfs : fs.all isDigit = true)
    (hrest : Breaks rest) :
    lead c (ds ++ '.' :: d :: (fs ++ rest)) = (.token .number, (ds ++ '.' :: d :: fs).length) := by
  have hpoint : ∀ x ∈ ('.' :: d :: (fs ++ rest)).head?, isDigit x = false := by
    intro x hx
    obtain rfl := Option.some.inj hx
    decide
  rw [lead_of_isDigit hc, number, takeWhile_append_of_stop hds hpoint]
  simp only [List.drop_left, hd, if_true]
  rw [takeWhile_append_of_stop hfs (isDigit_eq_false_of_breaks hrest)]
  simp only [List.length_append, List.length_cons]
  rw [Nat.add_assoc, Nat.add_comm 2]

theorem lead_string {cs rest : List Char} (hcs : '"' ∉ cs) :
    lead '"' (cs ++ '"' :: rest) = (.token .string, (cs ++ ['"']).length) := by
  show quoted (cs ++ '"' :: rest) = _
  have hall : cs.all (· != '"') = true := by
    refine List.all_eq_true.mpr fun c hc => bne_iff_ne.mpr ?_
    rintro rfl
    exact hcs hc
  rw [quoted, takeWhile_append_of_stop hall fun c hc => by
    obtain rfl := Option.some.inj hc
    rfl]
  simp

theorem lead_word {c : Char} {cs rest : List Char} (hc : beginsWord c = true)
    (hcs : cs.all continuesWord = true) (hrest : Breaks rest) :
    lead c (cs ++ rest) =
      (.token ((TokenType.ofWord? (encode (c :: cs))).getD .identifier), cs.length) := by
  rw [lead_of_beginsWord hc, word, takeWhile_append_of_stop hcs fun c hc => (hrest c hc).1]

/-! ### Byte strings in front of others -/

/-- What begins with a piece in front of others. -/
def leadPiece (p : Piece) (ps : List Piece) : Lexeme × Nat := lead p.toChar (ps.map Piece.toChar)

/-- The byte string is one lexeme when it stands in front of the rest. -/
structure Begins (bs rest : Bytes) (label : Lexeme) : Prop where
  found : ∃ c cs, decode bs = c :: cs ∧ lead c (cs ++ decode rest) = (label, cs.length)
  apart : pieces (bs ++ rest) = pieces bs ++ pieces rest

theorem cut_of_begins {bs rest : Bytes} {label : Lexeme} (h : Begins bs rest label) :
    Segment.cut leadPiece (pieces (bs ++ rest)) =
      ⟨pieces bs, label⟩ :: Segment.cut leadPiece (pieces rest) := by
  obtain ⟨c, cs, hdecode, hlead⟩ := h.found
  rw [h.apart]
  rw [decode] at hdecode
  cases hp : pieces bs with
  | nil => simp [hp] at hdecode
  | cons p ps =>
    rw [hp, List.map_cons] at hdecode
    obtain ⟨rfl, rfl⟩ := List.cons.inj hdecode
    rw [List.cons_append]
    refine Segment.cut_of_lead leadPiece ?_
    rw [leadPiece, List.map_append, ← decode, hlead, List.length_map]

theorem begins_encode (c : Char) (cs : List Char) {rest : Bytes} {label : Lexeme}
    (h : lead c (cs ++ decode rest) = (label, cs.length)) :
    Begins (encode (c :: cs)) rest label where
  found := ⟨c, cs, decode_encode _, h⟩
  apart := by
    have hpieces := pieces_encode_append (c :: cs) []
    rw [List.append_nil, pieces_nil, List.append_nil] at hpieces
    rw [pieces_encode_append, hpieces]

/-! ### Leaves -/

theorem isDigits_iff {bs : Bytes} : Spelling.isDigits bs = true ↔
    bs ≠ [] ∧ ∀ b ∈ bs, 48 ≤ b.toNat ∧ b.toNat ≤ 57 := by
  simp [Spelling.isDigits, UInt8.le_iff_toNat_le]

theorem exists_of_isDigits {bs : Bytes} (h : Spelling.isDigits bs = true) :
    ∃ c cs, bs = encode (c :: cs) ∧ isDigit c = true ∧ cs.all isDigit = true := by
  obtain ⟨hne, hall⟩ := isDigits_iff.mp h
  have hascii : ∀ b ∈ bs, b.toNat < 0x80 := by
    intro b hb
    have := hall b hb
    omega
  have hdigit : ∀ b ∈ bs, isDigit (Char.ofNat b.toNat) = true := by
    intro b hb
    have := hall b hb
    rw [isDigit_iff, toNat_charOfNat (Or.inl (by omega))]
    exact this
  rw [← encode_ascii hascii]
  cases bs with
  | nil => exact absurd rfl hne
  | cons b bs =>
    refine ⟨_, _, rfl, hdigit b (by simp), List.all_eq_true.mpr fun c hc => ?_⟩
    obtain ⟨b', hb', rfl⟩ := List.mem_map.mp hc
    exact hdigit b' (List.mem_cons_of_mem _ hb')

theorem ne_point_of_isDigits {bs : Bytes} (h : Spelling.isDigits bs = true) :
    ∀ b ∈ bs, (b != 46) = true := by
  intro b hb
  have hb' := (isDigits_iff.mp h).2 b hb
  rw [bne_iff_ne]
  rintro rfl
  exact absurd hb' (by decide)

theorem isNumber_cases {bs : Bytes} (h : Spelling.isNumber bs = true) :
    Spelling.isDigits bs = true ∨
      ∃ whole fraction, bs = whole ++ 46 :: fraction ∧ Spelling.isDigits whole = true ∧
        Spelling.isDigits fraction = true := by
  have hsplit := List.takeWhile_append_dropWhile (p := (· != 46)) (l := bs)
  simp only [Spelling.isNumber, drop_length_takeWhile] at h
  cases hrest : bs.dropWhile (· != 46) with
  | nil =>
    rw [hrest] at h hsplit
    rw [List.append_nil] at hsplit
    exact Or.inl (hsplit ▸ h)
  | cons b fraction =>
    have hb := List.head?_dropWhile_not (· != 46) bs
    rw [hrest] at h hsplit hb
    obtain rfl : b = 46 := by simpa using hb
    obtain ⟨hwhole, hfraction⟩ := Bool.and_eq_true_iff.mp h
    exact Or.inr ⟨_, fraction, hsplit.symm, hwhole, hfraction⟩

theorem encode_append_point (cs ds : List Char) :
    encode cs ++ 46 :: encode ds = encode (cs ++ '.' :: ds) := by
  simp only [encode, List.flatMap_cons, List.flatMap_append]
  rfl

theorem isValid_of_isNumber {bs : Bytes} (h : Spelling.isNumber bs = true) : isValid bs = true := by
  rcases isNumber_cases h with h | ⟨whole, fraction, rfl, hwhole, hfraction⟩
  · obtain ⟨c, cs, rfl, -, -⟩ := exists_of_isDigits h
    exact isValid_encode _
  · obtain ⟨c, cs, rfl, -, -⟩ := exists_of_isDigits hwhole
    obtain ⟨d, ds, rfl, -, -⟩ := exists_of_isDigits hfraction
    rw [encode_append_point]
    exact isValid_encode _

theorem begins_number {bs rest : Bytes} (h : Spelling.isNumber bs = true)
    (hrest : Breaks (decode rest)) : Begins bs rest (.token .number) := by
  rcases isNumber_cases h with h | ⟨whole, fraction, rfl, hwhole, hfraction⟩
  · obtain ⟨c, cs, rfl, hc, hcs⟩ := exists_of_isDigits h
    exact begins_encode c cs (lead_number hc hcs hrest)
  · obtain ⟨c, cs, rfl, hc, hcs⟩ := exists_of_isDigits hwhole
    obtain ⟨d, ds, rfl, hd, hds⟩ := exists_of_isDigits hfraction
    rw [encode_append_point, List.cons_append]
    refine begins_encode c _ ?_
    rw [List.append_assoc, List.cons_append, List.cons_append]
    exact lead_fraction hc hcs hd hds hrest

theorem isString_cases {bs : Bytes} (h : Spelling.isString bs = true) :
    ∃ body, bs = 34 :: (body ++ [34]) ∧ 34 ∉ body := by
  unfold Spelling.isString at h
  split at h
  · rename_i rest
    obtain ⟨hlast, hbody⟩ := Bool.and_eq_true_iff.mp h
    obtain ⟨body, rfl⟩ := List.getLast?_eq_some_iff.mp (beq_iff_eq.mp hlast)
    exact ⟨body, rfl, by simpa using hbody⟩
  · cases h

theorem begins_string {bs rest : Bytes} (h : Spelling.isString bs = true) :
    Begins bs rest (.token .string) := by
  obtain ⟨body, rfl, hbody⟩ := isString_cases h
  have hquote : ∀ more : Bytes, pieces (34 :: more) = .char '"' :: pieces more :=
    pieces_ascii_cons (by decide)
  -- the closing quote does not continue a character of the body
  have hpieces : ∀ more : Bytes, pieces (34 :: (body ++ 34 :: more)) =
      .char '"' :: (pieces body ++ .char '"' :: pieces more) := by
    intro more
    rw [hquote, pieces_append body _ (by intro b hb; obtain rfl := Option.some.inj hb; rfl), hquote]
  have hwhole := hpieces []
  refine ⟨⟨'"', decode body ++ ['"'], ?_, ?_⟩, ?_⟩
  · rw [decode, hwhole]
    simp [decode, Piece.toChar]
  · rw [List.append_assoc, List.singleton_append]
    exact lead_string fun h => hbody (mem_of_mem_decode (b := 34) (by decide) h)
  · rw [hwhole, List.cons_append, List.append_assoc, List.singleton_append, hpieces]
    simp

theorem begins_word (c : Char) (cs : List Char) {type : TokenType} {rest : Bytes}
    (hc : beginsWord c = true) (hcs : cs.all continuesWord = true)
    (htype : (TokenType.ofWord? (encode (c :: cs))).getD .identifier = type)
    (hrest : Breaks (decode rest)) : Begins (encode (c :: cs)) rest (.token type) :=
  begins_encode c cs (htype ▸ lead_word hc hcs hrest)

theorem exists_of_isIdentifier {bs : Bytes} (h : Spelling.isIdentifier bs = true) :
    ∃ c cs, bs = encode (c :: cs) ∧ TokenType.ofWord? bs = none ∧ beginsWord c = true ∧
      cs.all continuesWord = true := by
  unfold Spelling.isIdentifier at h
  obtain ⟨hfree, h⟩ := Bool.and_eq_true_iff.mp h
  split at h
  · cases h
  · rename_i c cs hdecode
    obtain ⟨hc, hcs⟩ := Bool.and_eq_true_iff.mp h
    have hvalid : isValid bs = true := by
      refine List.all_eq_true.mpr fun p hp => ?_
      cases p with
      | char c => rfl
      | stray b =>
        have hmem : '\uFFFD' ∈ decode bs := List.mem_map.mpr ⟨_, hp, rfl⟩
        rw [hdecode] at hmem
        rcases List.mem_cons.mp hmem with rfl | hmem
        · exact absurd hc (by decide +kernel)
        · exact absurd (List.all_eq_true.mp hcs _ hmem) (by decide +kernel)
    refine ⟨c, cs, ?_, Option.isNone_iff_eq_none.mp hfree, hc, hcs⟩
    rw [← hdecode, encode_decode hvalid]

theorem begins_identifier {bs rest : Bytes} (h : Spelling.isIdentifier bs = true)
    (hrest : Breaks (decode rest)) : Begins bs rest (.token .identifier) := by
  obtain ⟨c, cs, rfl, hfree, hc, hcs⟩ := exists_of_isIdentifier h
  refine begins_word c cs hc hcs ?_ hrest
  rw [hfree]
  rfl

/-- **The spelling of a literal is one lexeme**, in front of what does not go on with it. -/
theorem begins_literal {type : TokenType} {bs rest : Bytes} (htype : type.isLiteral = true)
    (h : Spelling.isLiteral type bs = true) (hrest : Breaks (decode rest)) :
    Begins bs rest (.token type) := by
  have hword : ∀ (c : Char) (cs : List Char), bs = encode (c :: cs) → beginsWord c = true →
      cs.all continuesWord = true → (TokenType.ofWord? (encode (c :: cs))).getD .identifier = type →
      Begins bs rest (.token type) := by
    intro c cs hbs hc hcs hw
    rw [hbs]
    exact begins_word c cs hc hcs hw hrest
  cases type with
  | number => exact begins_number h hrest
  | string => exact begins_string h
  | trueWord =>
    exact hword 't' ['r', 'u', 'e'] (beq_iff_eq.mp h) (by decide) (by decide) rfl
  | falseWord =>
    exact hword 'f' ['a', 'l', 's', 'e'] (beq_iff_eq.mp h) (by decide) (by decide) rfl
  | nilWord =>
    exact hword 'n' ['i', 'l'] (beq_iff_eq.mp h) (by decide) (by decide) rfl
  | _ => cases htype

/-! ### Symbols -/

theorem decode_ascii_cons {b : UInt8} (hb : b.toNat < 0x80) (rest : Bytes) :
    decode (b :: rest) = Char.ofNat b.toNat :: decode rest := by
  rw [decode, pieces_ascii_cons hb, List.map_cons, decode]
  rfl

theorem breaks_ascii_cons {b : UInt8} (hb : b.toNat < 0x80) (rest : Bytes)
    (hc : continuesWord (Char.ofNat b.toNat) = false ∧ Char.ofNat b.toNat ≠ '.') :
    Breaks (decode (b :: rest)) := by
  rw [decode_ascii_cons hb]
  intro c h
  obtain rfl := Option.some.inj h
  exact hc

theorem begins_symbol (o : Operator) {rest : Bytes} (hrest : Apart (decode rest)) :
    Begins o.symbol rest (.token (.op o)) := by
  have hne : ∀ c, c ∉ blanks → ¬ (decode rest).head? = some c := fun c hc h => hc (hrest c h)
  cases o with
  | plus => exact begins_encode '+' [] rfl
  | minus => exact begins_encode '-' [] rfl
  | starStar => exact begins_encode '*' ['*'] rfl
  | percent => exact begins_encode '%' [] rfl
  | ampersand => exact begins_encode '&' [] rfl
  | pipe => exact begins_encode '|' [] rfl
  | caret => exact begins_encode '^' [] rfl
  | tilde => exact begins_encode '~' [] rfl
  | lessLess => exact begins_encode '<' ['<'] rfl
  | greaterGreater => exact begins_encode '>' ['>'] rfl
  | bangEqual => exact begins_encode '!' ['='] rfl
  | equalEqual => exact begins_encode '=' ['='] rfl
  | greaterEqual => exact begins_encode '>' ['='] rfl
  | lessEqual => exact begins_encode '<' ['='] rfl
  | star =>
    refine begins_encode '*' [] ?_
    show either (decode rest) '*' .starStar .star = _
    rw [either, if_neg (hne '*' (by decide))]
    rfl
  | bang =>
    refine begins_encode '!' [] ?_
    show either (decode rest) '=' .bangEqual .bang = _
    rw [either, if_neg (hne '=' (by decide))]
    rfl
  | less =>
    refine begins_encode '<' [] ?_
    show (if (decode rest).head? = some '=' then _ else either (decode rest) '<' .lessLess .less) = _
    rw [if_neg (hne '=' (by decide)), either, if_neg (hne '<' (by decide))]
    rfl
  | greater =>
    refine begins_encode '>' [] ?_
    show (if (decode rest).head? = some '=' then _
      else either (decode rest) '>' .greaterGreater .greater) = _
    rw [if_neg (hne '=' (by decide)), either, if_neg (hne '>' (by decide))]
    rfl
  | slash =>
    refine begins_encode '/' [] ?_
    show slash (decode rest) = _
    unfold slash
    split
    · exact absurd (hrest '/' (by simp [*])) (by decide)
    · exact absurd (hrest '*' (by simp [*])) (by decide)
    · rfl
  | and => exact begins_word 'a' ['n', 'd'] (by decide) (by decide) rfl hrest.breaks
  | or => exact begins_word 'o' ['r'] (by decide) (by decide) rfl hrest.breaks

theorem begins_prefix {o : Operator} (ho : o.isUnary = true) {rest : Bytes}
    (hrest : (decode rest).head? ≠ some '=') : Begins o.symbol rest (.token (.op o)) := by
  cases o with
  | minus => exact begins_encode '-' [] rfl
  | tilde => exact begins_encode '~' [] rfl
  | bang =>
    refine begins_encode '!' [] ?_
    show either (decode rest) '=' .bangEqual .bang = _
    rw [either, if_neg hrest]
    rfl
  | _ => cases ho

/-! ### Texts made of segments -/

/-- Each segment is one lexeme in front of those after it and the rest. -/
inductive Legible : List (Segment UInt8 Lexeme) → Bytes → Prop
  | nil {rest : Bytes} : Legible [] rest
  | cons {s : Segment UInt8 Lexeme} {ss : List (Segment UInt8 Lexeme)} {rest : Bytes} :
      Begins s.text (ss.flatMap Segment.text ++ rest) s.label → Legible ss rest →
      Legible (s :: ss) rest

theorem Legible.append {as bs : List (Segment UInt8 Lexeme)} {rest : Bytes}
    (ha : Legible as (bs.flatMap Segment.text ++ rest)) (hb : Legible bs rest) :
    Legible (as ++ bs) rest := by
  generalize hmore : bs.flatMap Segment.text ++ rest = more at ha
  induction ha with
  | nil => exact hb
  | cons h _ ih =>
    rw [List.cons_append]
    refine .cons ?_ (ih hmore)
    rwa [List.flatMap_append, List.append_assoc, hmore]

/-- **A legible text is cut where its segments join.** -/
theorem cut_of_legible {ss : List (Segment UInt8 Lexeme)} {rest : Bytes} (h : Legible ss rest) :
    Segment.cut leadPiece (pieces (ss.flatMap Segment.text ++ rest)) =
      ss.map (fun s => ⟨pieces s.text, s.label⟩) ++ Segment.cut leadPiece (pieces rest) := by
  induction h with
  | nil => rfl
  | cons h _ ih =>
    rw [List.flatMap_cons, List.append_assoc, cut_of_begins h, ih, List.map_cons, List.cons_append]

/-- A legible text that does not begin with `==` does not begin with `=`. -/
theorem Legible.head_ne {s : Segment UInt8 Lexeme} {ss : List (Segment UInt8 Lexeme)} {rest : Bytes}
    {type : TokenType} (h : Legible (s :: ss) rest) (hs : s.label = .token type)
    (htype : type ≠ .op .equalEqual) :
    (decode ((s :: ss).flatMap Segment.text ++ rest)).head? ≠ some '=' := by
  cases h with
  | cons h _ =>
    obtain ⟨c, cs, hdecode, hlead⟩ := h.found
    rw [List.flatMap_cons, List.append_assoc, decode, h.apart, List.map_append, ← decode, hdecode]
    rintro ⟨⟩
    rw [hs] at hlead
    unfold lead at hlead
    simp only at hlead
    split at hlead
    · exact htype (Lexeme.token.inj (Prod.mk.inj hlead).1).symm
    · cases hlead

end Fixity.Lexeme
