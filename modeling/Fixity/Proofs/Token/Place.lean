import Fixity.Proofs.Token.Lead

/-!
# Where tokens and errors stand

A scan is read off the segments of the text (`Scan.readOff_ofChars`).  They cover the text once; each is
what its name says; and every lexeme gives a token and every rejected stretch an error, in the order of
the text and placed by the text before it:

    placeAfter line before = (line + line ends in before, 1 + characters since the last of them)

The scan itself carries a place along, from character to character (`Pos.next`).  It is that of the
text read so far (`placeAfter_append`), whatever the segments that the line ends fall into.
-/

namespace Fixity

open Utf8 (encode)

/-- The place after a text whose first line has the given number: its line ends are counted, and the
characters since the last of them. -/
def placeAfter (line : Int64) (before : List Char) : Pos :=
  ⟨line + Int64.ofNat (before.count '\n'),
    1 + Int64.ofNat (before.reverse.takeWhile (· != '\n')).length⟩

theorem placeAfter_nil (line : Int64) : placeAfter line [] = ⟨line, 1⟩ := by
  simp [placeAfter]

/-- One character more moves the place like a character that is read. -/
theorem placeAfter_concat (line : Int64) (before : List Char) (c : Char) :
    placeAfter line (before ++ [c]) = (placeAfter line before).next c := by
  rw [placeAfter, List.count_append, List.reverse_append, List.reverse_singleton,
    List.singleton_append, Pos.next]
  by_cases hc : c = '\n'
  · rw [if_pos hc, hc, List.count_singleton_self, List.takeWhile_cons_of_neg (by decide),
      Int64.ofNat_add, ← Int64.add_assoc]
    rfl
  · have hcount : [c].count '\n' = 0 := List.count_eq_zero.mpr (by simpa using Ne.symm hc)
    rw [if_neg hc, hcount, Nat.add_zero, List.takeWhile_cons_of_pos (by simpa using hc),
      List.length_cons, Int64.ofNat_add, ← Int64.add_assoc]
    rfl

theorem placeAfter_append (line : Int64) (cs : List Char) : ∀ before : List Char,
    placeAfter line (before ++ cs) = (placeAfter line before).after cs := by
  induction cs with
  | nil =>
    intro before
    rw [List.append_nil]
    rfl
  | cons c cs ih =>
    intro before
    rw [List.append_cons, ih, placeAfter_concat, Pos.after, Pos.after, List.foldl_cons]

def Lexeme.located (before : List Char) :
    List (Segment Char Lexeme) → List (List Char × Segment Char Lexeme)
  | [] => []
  | s :: segs => (before, s) :: located (before ++ s.text) segs

namespace Scan

open Lexeme

def tokenAt? (line : Int64) (s : List Char × Segment Char Lexeme) : Option Token :=
  match s.2.label with
  | .token type =>
    let lexeme := encode s.2.text
    some ⟨type, lexeme, Literal.ofLexeme type lexeme, placeAfter line s.1⟩
  | _ => none

def errorAt? (line : Int64) (s : List Char × Segment Char Lexeme) : Option ScanError :=
  match s.2.label with
  | .rejected fault => some ⟨placeAfter line s.1, fault⟩
  | _ => none

theorem read_eq (line : Int64) (before : List Char) (s : Segment Char Lexeme) (ts : List Token)
    (es : List ScanError) :
    Progress.read ⟨ts, es, placeAfter line before⟩ s =
      ⟨(tokenAt? line (before, s)).toList ++ ts, (errorAt? line (before, s)).toList ++ es,
        placeAfter line (before ++ s.text)⟩ := by
  rw [placeAfter_append]
  cases hs : s.label <;> simp [Progress.read, tokenAt?, errorAt?, hs]

/-- **Reading segments** adds their tokens and their errors, and moves the place over their text. -/
theorem foldl_read_eq (line : Int64) (segs : List (Segment Char Lexeme)) :
    ∀ (before : List Char) (ts : List Token) (es : List ScanError),
      segs.foldl Progress.read ⟨ts, es, placeAfter line before⟩ =
        ⟨((located before segs).filterMap (tokenAt? line)).reverse ++ ts,
          ((located before segs).filterMap (errorAt? line)).reverse ++ es,
          placeAfter line (before ++ segs.flatMap Segment.text)⟩ := by
  induction segs with
  | nil => simp [located]
  | cons s segs ih =>
    intro before ts es
    have hcons : ∀ {α : Type} (f : List Char × Segment Char Lexeme → Option α) (as : List α),
        ((located before (s :: segs)).filterMap f).reverse ++ as =
          ((located (before ++ s.text) segs).filterMap f).reverse ++ ((f (before, s)).toList ++ as) := by
      intro α f as
      rw [located, List.filterMap_cons]
      cases f (before, s) <;> simp
    rw [List.foldl_cons, read_eq, ih, hcons, hcons, List.flatMap_cons, List.append_assoc]

theorem ofChars_eq (line : Int64) (src : List Char) :
    ofChars line src =
      ⟨⟨(located [] (segments src)).filterMap (tokenAt? line),
        ⟨.eof, [], .none, placeAfter line src⟩⟩,
        (located [] (segments src)).filterMap (errorAt? line)⟩ := by
  have hcover : [] ++ (segments src).flatMap Segment.text = src := Segment.flatMap_text_cut lead src
  rw [ofChars, ← placeAfter_nil line, foldl_read_eq, hcover]
  simp

/-- A segment with the text before it stands between the segments before and after it. -/
theorem exists_of_mem_located {segs : List (Segment Char Lexeme)} {before : List Char}
    {s : Segment Char Lexeme} : ∀ {start : List Char}, (before, s) ∈ located start segs →
      ∃ as bs, segs = as ++ s :: bs ∧ before = start ++ as.flatMap Segment.text := by
  induction segs with
  | nil =>
    intro start h
    cases h
  | cons s' segs ih =>
    intro start h
    rcases List.mem_cons.mp h with heq | h
    · obtain ⟨rfl, rfl⟩ := Prod.mk.inj heq
      exact ⟨[], segs, rfl, by simp⟩
    · obtain ⟨as, bs, rfl, rfl⟩ := ih h
      exact ⟨s' :: as, bs, rfl, by simp⟩

/-- Every token of a text is a lexeme among its segments, with the value of its lexeme and placed by the
text before it. -/
theorem exists_of_mem_tokens {line : Int64} {src : List Char} {t : Token}
    (h : t ∈ (ofChars line src).stream.tokens) : ∃ as bs text,
      segments src = as ++ ⟨text, .token t.type⟩ :: bs ∧ t.lexeme = encode text ∧
      t.literal = Literal.ofLexeme t.type t.lexeme ∧
      t.pos = placeAfter line (as.flatMap Segment.text) := by
  rw [ofChars_eq] at h
  obtain ⟨⟨before, text, label⟩, hs, ht⟩ := List.mem_filterMap.mp h
  obtain ⟨as, bs, hsplit, rfl⟩ := exists_of_mem_located hs
  cases label with
  | token type =>
    obtain rfl := Option.some.inj ht
    exact ⟨as, bs, text, hsplit, rfl, rfl, rfl⟩
  | _ => cases ht

/-- **The tokens of a text are lexemes of their types.** -/
theorem hasLexeme_of_mem {line : Int64} {src : List Char} {t : Token}
    (h : t ∈ (ofChars line src).stream.tokens) : t.type.HasLexeme t.lexeme := by
  obtain ⟨as, bs, text, hsplit, hlexeme, -⟩ := exists_of_mem_tokens h
  rw [hlexeme]
  exact describes_of_segments hsplit

/-- The scan of a text is read off its segments, which cover the text.  Each is what its name says;
each lexeme is a token and each rejected stretch an error, placed by the text before it; and after the
whole text stands the only token of type `eof`. -/
structure ReadOff (scan : Scan) (line : Int64) (src : List Char)
    (segs : List (Segment Char Lexeme)) : Prop where
  covers : segs.flatMap Segment.text = src
  describes : ∀ as s bs, segs = as ++ s :: bs →
    s.label.Describes s.text (bs.flatMap Segment.text)
  tokens : scan.stream.tokens = (located [] segs).filterMap (tokenAt? line)
  errors : scan.errors = (located [] segs).filterMap (errorAt? line)
  last : scan.stream.last = ⟨.eof, [], .none, placeAfter line src⟩
  onlyLast : ∀ t ∈ scan.stream.tokens, t.type ≠ .eof

/-- **Nothing is lost, and places are exact**: every scan is read off the segments of its text. -/
theorem readOff_ofChars (line : Int64) (src : List Char) :
    ∃ segs, (ofChars line src).ReadOff line src segs := by
  refine ⟨segments src, Segment.flatMap_text_cut lead src, fun as s bs => describes_of_segments,
    ?_, ?_, ?_, fun t ht => (hasLexeme_of_mem ht).ne_eof⟩ <;>
  rw [ofChars_eq]

example : (ofChars 1 ['"', '\n', '"', ' ', '$']).errors = [⟨⟨2, 3⟩, .unexpectedCharacter⟩] := by
  decide +kernel

end Scan

end Fixity
