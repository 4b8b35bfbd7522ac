import Fixity.Proofs.Token.Lexeme
import Mathlib.Data.List.TakeWhile

/-!
# What begins at a character

`lead c cs` names what begins with the character `c` in front of `cs`.  `Describes` says what each name
promises of the text that is found: a lexeme is spelt as its type asks, a comment stops at its first
end, and what is rejected is never closed, or is a character with which nothing begins.  The names that
`lead` gives keep these promises (`finds_lead`), and so do those of all segments of a text
(`describes_of_segments`).
-/

namespace Fixity

open Utf8

/-- The byte string is a lexeme of the type.  Numbers, strings and names are spelt as leaves of a tree
are; the other types of the language have only one lexeme, their name. -/
def TokenType.HasLexeme (type : TokenType) (lexeme : Bytes) : Prop :=
  match type with
  | .number => Spelling.isNumber lexeme = true
  | .string => Spelling.isString lexeme = true
  | .identifier => Spelling.isIdentifier lexeme = true
  | .eof | .other _ _ => False
  | _ => lexeme = type.name

namespace TokenType.HasLexeme

variable {type : TokenType} {lexeme : Bytes}

theorem ne_eof (h : type.HasLexeme lexeme) : type ≠ .eof := by
  rintro rfl
  exact h

theorem name_cases (h : type.HasLexeme lexeme) :
    type = .number ∨ type = .string ∨ type = .identifier ∨ lexeme = type.name := by
  cases type with
  | number => exact Or.inl rfl
  | string => exact Or.inr (Or.inl rfl)
  | identifier => exact Or.inr (Or.inr (Or.inl rfl))
  | eof => exact h.elim
  | other name free => exact h.elim
  | _ => exact Or.inr (Or.inr (Or.inr h))

end TokenType.HasLexeme

namespace Lexeme

/-! ### What the names promise -/

def Unclosed (cs : List Char) : Prop := ¬ ['*', '/'] <:+: cs

/-- A comment up to the end of its line, or one that is closed by the first `*/` in it. -/
def IsComment (text rest : List Char) : Prop :=
  (∃ body, text = '/' :: '/' :: body ∧ '\n' ∉ body ∧ ∀ c ∈ rest.head?, c = '\n') ∨
    ∃ body, text = '/' :: '*' :: (body ++ ['*', '/']) ∧ Unclosed (body ++ ['*'])

/-- Neither white space nor a string begins with the character, and no lexeme stands there. -/
def Unexpected (c : Char) (rest : List Char) : Prop :=
  c ∉ blanks ∧ c ≠ '"' ∧ ∀ (type : TokenType) (text : List Char), text <+: c :: rest →
    ¬ type.HasLexeme (encode text)

/-- What the name of a segment says of its text in front of the rest. -/
def Describes (label : Lexeme) (text rest : List Char) : Prop :=
  match label with
  | .blank => ∃ c ∈ blanks, text = [c]
  | .comment => IsComment text rest
  | .token type => type.HasLexeme (encode text)
  | .rejected .unexpectedCharacter => ∃ c, text = [c] ∧ Unexpected c rest
  | .rejected .unterminatedString => ∃ body, text = '"' :: body ∧ '"' ∉ body ∧ rest = []
  | .rejected .unterminatedComment =>
    ∃ body, text = '/' :: '*' :: body ∧ Unclosed body ∧ rest = []

/-- What is found at a character is what its name says. -/
def Finds (c : Char) (cs : List Char) (found : Lexeme × Nat) : Prop :=
  found.1.Describes (c :: cs.take found.2) (cs.drop found.2)

/-! ### Spellings of characters -/

theorem isDigits_encode {c : Char} {cs : List Char} (h : ∀ x ∈ c :: cs, isDigit x = true) :
    Spelling.isDigits (encode (c :: cs)) = true := by
  have hbyte : ∀ x ∈ c :: cs, String.utf8EncodeChar x = [UInt8.ofNat x.toNat] := by
    intro x hx
    obtain ⟨-, hhi⟩ := isDigit_iff.mp (h x hx)
    exact utf8EncodeChar_one (by omega)
  refine isDigits_iff.mpr ⟨?_, fun b hb => ?_⟩
  · rw [encode, List.flatMap_cons, hbyte c (by simp)]
    simp
  · obtain ⟨x, hx, hb⟩ := List.mem_flatMap.mp hb
    obtain ⟨hlo, hhi⟩ := isDigit_iff.mp (h x hx)
    rw [hbyte x hx, List.mem_singleton] at hb
    rw [hb, toNat_ofNat_of_lt (by omega)]
    exact ⟨hlo, hhi⟩

theorem isNumber_of_isDigits {bs : Bytes} (h : Spelling.isDigits bs = true) :
    Spelling.isNumber bs = true := by
  have hwhole : bs.takeWhile (· != 46) = bs := by
    rw [← List.append_nil bs, List.takeWhile_append_of_pos (ne_point_of_isDigits h),
      List.takeWhile_nil]
  simp only [Spelling.isNumber, hwhole, List.drop_length, h]

theorem isNumber_of_fraction {whole fraction : Bytes} (hwhole : Spelling.isDigits whole = true)
    (hfraction : Spelling.isDigits fraction = true) :
    Spelling.isNumber (whole ++ 46 :: fraction) = true := by
  have htake : (whole ++ 46 :: fraction).takeWhile (· != 46) = whole := by
    rw [List.takeWhile_append_of_pos (ne_point_of_isDigits hwhole),
      List.takeWhile_cons_of_neg (by decide), List.append_nil]
  simp only [Spelling.isNumber, htake, List.drop_left, hwhole, hfraction, Bool.and_self]

theorem isString_encode {body : List Char} (h : '"' ∉ body) :
    Spelling.isString (encode ('"' :: (body ++ ['"']))) = true := by
  have hquote : (34 : UInt8) ∉ encode body :=
    fun hmem => h (mem_of_mem_encode (b := 34) (by decide) hmem)
  have hencode : encode ('"' :: (body ++ ['"'])) = 34 :: (encode body ++ [34]) := by
    rw [encode, List.flatMap_cons, List.flatMap_append]
    rfl
  rw [hencode, Spelling.isString, List.getLast?_concat, List.dropLast_concat]
  simpa using hquote

theorem isIdentifier_encode {c : Char} {cs : List Char} (hc : beginsWord c = true)
    (hcs : cs.all continuesWord = true) (hfree : TokenType.ofWord? (encode (c :: cs)) = none) :
    Spelling.isIdentifier (encode (c :: cs)) = true := by
  rw [Spelling.isIdentifier, hfree, decode_encode]
  exact Bool.and_eq_true_iff.mpr ⟨rfl, Bool.and_eq_true_iff.mpr ⟨hc, hcs⟩⟩

/-! ### Words, numbers and strings -/

theorem finds_word {c : Char} (hc : beginsWord c = true) (cs : List Char) :
    Finds c cs (word c cs) := by
  have htake : cs.take (cs.takeWhile continuesWord).length = cs.takeWhile continuesWord :=
    (List.prefix_iff_eq_take.mp (List.takeWhile_prefix continuesWord)).symm
  rw [Finds, word, htake]
  cases hw : TokenType.ofWord? (encode (c :: cs.takeWhile continuesWord)) with
  | none => exact isIdentifier_encode hc (List.all_takeWhile ..) hw
  | some type =>
    have hname : type.name = encode (c :: cs.takeWhile continuesWord) := by
      simpa using List.find?_some hw
    have hmem : type ∈ ([.op .and, .op .or, .trueWord, .falseWord, .nilWord] : List TokenType) :=
      List.mem_of_find?_eq_some hw
    simp only [List.mem_cons, List.not_mem_nil, or_false] at hmem
    rcases hmem with rfl | rfl | rfl | rfl | rfl <;> exact hname.symm

theorem finds_number {c : Char} (hc : isDigit c = true) (cs : List Char) :
    Finds c cs (number cs) := by
  have hsplit := List.takeWhile_append_dropWhile (p := isDigit) (l := cs)
  have hwhole : ∀ x ∈ c :: cs.takeWhile isDigit, isDigit x = true :=
    List.forall_mem_cons.mpr ⟨hc, fun _ => List.mem_takeWhile_imp⟩
  rw [number, drop_length_takeWhile]
  have hplain : Finds c cs (.token .number, (cs.takeWhile isDigit).length) := by
    rw [Finds, ← List.prefix_iff_eq_take.mp (List.takeWhile_prefix isDigit)]
    exact isNumber_of_isDigits (isDigits_encode hwhole)
  split
  · rename_i d rest hpoint
    split
    · rename_i hd
      have hfraction : ∀ x ∈ d :: rest.takeWhile isDigit, isDigit x = true :=
        List.forall_mem_cons.mpr ⟨hd, fun _ => List.mem_takeWhile_imp⟩
      have htake : cs.take ((cs.takeWhile isDigit).length + 2 + (rest.takeWhile isDigit).length) =
          cs.takeWhile isDigit ++ '.' :: d :: rest.takeWhile isDigit := by
        rw [← congrArg (List.take _) hsplit, hpoint, Nat.add_assoc, List.take_length_add_append,
          Nat.add_comm 2, List.take_succ_cons, List.take_succ_cons,
          ← List.prefix_iff_eq_take.mp (List.takeWhile_prefix isDigit)]
      rw [Finds, htake, ← List.cons_append]
      show Spelling.isNumber (encode _) = true
      rw [← encode_append_point]
      exact isNumber_of_fraction (isDigits_encode hwhole) (isDigits_encode hfraction)
    · exact hplain
  · exact hplain

theorem finds_quoted (cs : List Char) : Finds '"' cs (quoted cs) := by
  have hsplit := List.takeWhile_append_dropWhile (p := (· != '"')) (l := cs)
  have hbody : '"' ∉ cs.takeWhile (· != '"') := fun h => by
    simpa using List.mem_takeWhile_imp h
  rw [quoted]
  cases hrest : cs.dropWhile (· != '"') with
  | nil =>
    rw [hrest, List.append_nil] at hsplit
    rw [hsplit] at hbody ⊢
    simp only [Nat.lt_irrefl, if_false]
    exact ⟨cs, by simp, hbody, by simp⟩
  | cons q rest =>
    have hq := List.head?_dropWhile_not (· != '"') cs
    rw [hrest] at hq hsplit
    obtain rfl : q = '"' := by simpa using hq
    have hlt : (cs.takeWhile (· != '"')).length < cs.length := by
      have hlength := congrArg List.length hsplit
      rw [List.length_append, List.length_cons] at hlength
      omega
    simp only [hlt, if_true]
    have htake : cs.take ((cs.takeWhile (· != '"')).length + 1) =
        cs.takeWhile (· != '"') ++ ['"'] := by
      rw [← congrArg (List.take _) hsplit, List.take_length_add_append]
      rfl
    rw [Finds, htake]
    exact isString_encode hbody

/-! ### Comments -/

theorem unclosed_cons_cons {c d : Char} {cs : List Char} :
    Unclosed (c :: d :: cs) ↔ ¬(c = '*' ∧ d = '/') ∧ Unclosed (d :: cs) := by
  have hhead : ['*', '/'] <+: c :: d :: cs ↔ c = '*' ∧ d = '/' := by
    rw [List.cons_prefix_cons, List.cons_prefix_cons]
    simp [eq_comm]
  rw [Unclosed, Unclosed, List.infix_cons_iff, hhead, not_or]

theorem unclosed_of_toCommentEnd? {n : Nat} {cs : List Char} (h : toCommentEnd? n cs = none) :
    Unclosed cs := by
  fun_induction toCommentEnd? n cs with
  | case1 => exact fun hinfix => by simpa using hinfix.length_le
  | case2 => exact fun hinfix => by simpa using hinfix.length_le
  | case3 => cases h
  | case4 n c d cs hend ih => exact unclosed_cons_cons.mpr ⟨hend, ih h⟩

theorem toCommentEnd?_eq_some {n m : Nat} {cs : List Char} (h : toCommentEnd? n cs = some m) :
    ∃ body rest, cs = body ++ '*' :: '/' :: rest ∧ m = n + (body.length + 2) ∧
      Unclosed (body ++ ['*']) := by
  fun_induction toCommentEnd? n cs with
  | case1 => cases h
  | case2 => cases h
  | case3 n c d cs hend =>
    obtain ⟨rfl, rfl⟩ := hend
    exact ⟨[], cs, rfl, (Option.some.inj h).symm, fun hinfix => by simpa using hinfix.length_le⟩
  | case4 n c d cs hend ih =>
    obtain ⟨body, rest, hcs, rfl, hbody⟩ := ih h
    refine ⟨c :: body, rest, by rw [hcs, List.cons_append], ?_, ?_⟩
    · rw [List.length_cons]
      omega
    · -- the text after `c` still begins with `d`
      obtain ⟨more, hmore⟩ : ∃ more, body ++ ['*'] = d :: more := by
        cases body with
        | nil => exact ⟨[], by rw [(List.cons.inj hcs).1, List.nil_append]⟩
        | cons b body => exact ⟨body ++ ['*'], by rw [(List.cons.inj hcs).1, List.cons_append]⟩
      rw [List.cons_append, hmore]
      rw [hmore] at hbody
      exact unclosed_cons_cons.mpr ⟨hend, hbody⟩

theorem finds_slash (cs : List Char) : Finds '/' cs (slash cs) := by
  unfold slash
  split
  · rename_i cs
    have htake := List.prefix_iff_eq_take.mp (List.takeWhile_prefix (l := cs) (· != '\n'))
    have hbody : '\n' ∉ cs.takeWhile (· != '\n') := fun h => by
      simpa using List.mem_takeWhile_imp h
    rw [Finds, Nat.add_comm, List.take_succ_cons, List.drop_succ_cons, ← htake,
      drop_length_takeWhile]
    refine Or.inl ⟨_, rfl, hbody, fun c hc => ?_⟩
    have hnot := List.head?_dropWhile_not (· != '\n') cs
    rw [Option.mem_def.mp hc] at hnot
    simpa using hnot
  · rename_i cs
    split
    · rename_i n hend
      obtain ⟨body, rest, rfl, rfl, hbody⟩ := toCommentEnd?_eq_some hend
      have htake : (body ++ '*' :: '/' :: rest).take (body.length + 2) = body ++ ['*', '/'] :=
        List.take_length_add_append 2
      rw [Finds, Nat.zero_add, Nat.add_comm 1, List.take_succ_cons, htake]
      exact Or.inr ⟨body, rfl, hbody⟩
    · rename_i hend
      rw [Finds, Nat.add_comm, List.take_succ_cons, List.drop_succ_cons, List.take_length,
        List.drop_length]
      exact ⟨cs, rfl, unclosed_of_toCommentEnd? hend, rfl⟩
  · exact rfl

/-! ### Characters with which nothing begins -/

def symbolHeads : List Char :=
  ['(', ')', ',', '-', '+', '%', '&', '|', '^', '~', '*', '!', '<', '>', '/']

def beginsLexeme : List Char → Bool
  | [] => false
  | c :: cs => c == '=' && cs.head? == some '=' || symbolHeads.contains c || c == '"' ||
    isDigit c || beginsWord c

theorem beginsLexeme_of_isPrefix {text more : List Char} (h : beginsLexeme text = true)
    (hmore : text <+: more) : beginsLexeme more = true := by
  obtain ⟨rest, rfl⟩ := hmore
  cases text with
  | nil => cases h
  | cons c cs =>
    simp only [List.cons_append, beginsLexeme, Bool.or_eq_true, Bool.and_eq_true, or_assoc] at h ⊢
    refine h.imp_left fun ⟨heq, hhead⟩ => ⟨heq, ?_⟩
    cases cs with
    | nil => cases hhead
    | cons d ds => exact hhead

theorem beginsLexeme_of_hasLexeme {type : TokenType} {text : List Char}
    (h : type.HasLexeme (encode text)) : beginsLexeme text = true := by
  have hname : ∀ name : Bytes, encode text = name → beginsLexeme (decode name) = true →
      beginsLexeme text = true := by
    rintro _ rfl hbegins
    rwa [decode_encode] at hbegins
  cases type with
  | number =>
    rcases isNumber_cases h with h | ⟨whole, fraction, hwhole, h, -⟩
    · obtain ⟨c, cs, hcs, hc, -⟩ := exists_of_isDigits h
      refine hname _ hcs ?_
      simp [decode_encode, beginsLexeme, hc]
    · obtain ⟨c, cs, rfl, hc, -⟩ := exists_of_isDigits h
      refine hname _ hwhole ?_
      simp [decode_encode_append, beginsLexeme, hc]
  | string =>
    obtain ⟨body, hbody, -⟩ := isString_cases h
    refine hname _ hbody ?_
    simp [decode_ascii_cons, beginsLexeme]
  | identifier =>
    obtain ⟨c, cs, hcs, -, hc, -⟩ := exists_of_isIdentifier h
    refine hname _ hcs ?_
    simp [decode_encode, beginsLexeme, hc]
  | eof => exact h.elim
  | other name free => exact h.elim
  | op o => cases o <;> exact hname _ h (by decide +kernel)
  | _ => exact hname _ h (by decide +kernel)

theorem unexpected_of_not_beginsLexeme {c : Char} {rest : List Char} (hblank : c ∉ blanks)
    (h : beginsLexeme (c :: rest) = false) : Unexpected c rest := by
  refine ⟨hblank, ?_, fun type text htext hlexeme => ?_⟩
  · rintro rfl
    simp [beginsLexeme] at h
  · rw [beginsLexeme_of_isPrefix (beginsLexeme_of_hasLexeme hlexeme) htext] at h
    cases h

/-! ### All characters -/

theorem take_one_of_head? {cs : List Char} {d : Char} (h : cs.head? = some d) :
    cs.take 1 = [d] := by
  rw [List.take_one, h]
  rfl

theorem finds_either {c d : Char} {long short : Operator} (cs : List Char)
    (hlong : encode [c, d] = long.symbol) (hshort : encode [c] = short.symbol) :
    Finds c cs (either cs d long short) := by
  unfold either
  split
  · rw [Finds, take_one_of_head? ‹_›]
    exact hlong
  · exact hshort

/-- **What is found at a character is what its name says.** -/
theorem finds_lead (c : Char) (cs : List Char) : Finds c cs (lead c cs) := by
  have hone : ∀ (d : Char) (o : Operator), cs.head? = some d → encode [c, d] = o.symbol →
      Finds c cs (.token (.op o), 1) := by
    intro d o hd ho
    rw [Finds, take_one_of_head? hd]
    exact ho
  unfold lead
  split
  case h_1 | h_2 | h_3 | h_4 => exact ⟨_, by decide, rfl⟩
  case h_5 | h_6 | h_7 | h_8 | h_9 | h_10 | h_11 | h_12 | h_13 | h_14 => exact rfl
  case h_15 | h_16 => exact finds_either cs rfl rfl
  case h_17 =>
    split
    · exact hone '=' .equalEqual ‹_› rfl
    · rename_i hhead
      refine ⟨'=', rfl, unexpected_of_not_beginsLexeme (by decide) ?_⟩
      have hend : (cs.head? == some '=') = false := by simpa using hhead
      rw [List.drop_zero, beginsLexeme, hend]
      decide +kernel
  case h_18 =>
    split
    · exact hone '=' .lessEqual ‹_› rfl
    · exact finds_either cs rfl rfl
  case h_19 =>
    split
    · exact hone '=' .greaterEqual ‹_› rfl
    · exact finds_either cs rfl rfl
  case h_20 => exact finds_slash cs
  case h_21 => exact finds_quoted cs
  case h_22 =>
    split
    · exact finds_number ‹_› cs
    · split
      · exact finds_word ‹_› cs
      · rename_i hdigit hword
        refine ⟨c, rfl, unexpected_of_not_beginsLexeme ?_ ?_⟩
        · simp_all [blanks]
        · simp_all [beginsLexeme, symbolHeads]

/-- **Every segment of a text is what its name says.** -/
theorem describes_of_segments {src : List Char} {before after : List (Segment Char Lexeme)}
    {s : Segment Char Lexeme} (h : segments src = before ++ s :: after) :
    s.label.Describes s.text (after.flatMap Segment.text) := by
  obtain ⟨c, cs, rfl, rfl⟩ := Segment.exists_lead_of_cut h
  rw [Segment.flatMap_text_cut]
  exact finds_lead c cs

end Lexeme

end Fixity
