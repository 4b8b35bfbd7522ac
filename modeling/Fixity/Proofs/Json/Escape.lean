import Fixity.Proofs.Json.Digits
import Fixity.Proofs.Text.Utf8

/-!
# Strings as they are read back

Writing a string and reading it follow two different conventions.  A string with special bytes is
written like quoted text, where every character that is not printable has an escape.
The reader knows the escapes of JSON and takes any other backslash as itself.

`Json.reread s` is what becomes of `s` when it is written and read (`readRaw?_rawOf`,
`unescape_rawOf`).  A character that is not read as itself leaves its whole escape behind, which is
longer than the character, so that `reread s = s` exactly when every character is read as itself
(`reread_eq_iff`).
-/

namespace Fixity.Json

open Utf8 Text

/-! ### Raw text and its content -/

def contentOf (raw : Bytes) : Bytes := (Segment.cut unescapeLead raw).flatMap (·.label)

theorem contentOf_cons (b : UInt8) (rest : Bytes) :
    contentOf (b :: rest) =
      (unescapeLead b rest).1 ++ contentOf (rest.drop (unescapeLead b rest).2) := by
  rw [contentOf, Segment.cut_cons, List.flatMap_cons, contentOf]

theorem contentOf_byte {b : UInt8} (h : b ≠ 92) (rest : Bytes) :
    contentOf (b :: rest) = b :: contentOf rest := by
  have hlead : unescapeLead b rest = ([b], 0) := by
    unfold unescapeLead
    rw [if_neg h]
  rw [contentOf_cons, hlead]
  rfl

theorem unescape_eq (raw : Bytes) : unescape raw = contentOf raw := by
  have hplain : (92 : UInt8) ∉ raw → contentOf raw = raw := by
    intro h
    induction raw with
    | nil => rfl
    | cons b raw ih =>
      rw [List.mem_cons, not_or] at h
      rw [contentOf_byte (Ne.symm h.1), ih h.2]
  rw [unescape]
  split
  case isTrue => rfl
  case isFalse h => exact (hplain (by simpa using h)).symm

/-- The raw text `raw` does not end a string, and its content is `s`, whatever follows. -/
structure Reads (raw s : Bytes) : Prop where
  stays : ∀ read rest, readRaw? read (raw ++ rest) = readRaw? (raw.reverse ++ read) rest
  content : ∀ rest, contentOf (raw ++ rest) = s ++ contentOf rest

theorem Reads.nil : Reads [] [] := ⟨fun _ _ => rfl, fun _ => rfl⟩

theorem Reads.append {raw raw' s s' : Bytes} (h : Reads raw s) (h' : Reads raw' s') :
    Reads (raw ++ raw') (s ++ s') := by
  refine ⟨fun read rest => ?_, fun rest => ?_⟩
  · rw [List.append_assoc, h.stays, h'.stays, List.reverse_append, List.append_assoc]
  · rw [List.append_assoc, h.content, h'.content, List.append_assoc]

theorem Reads.flatMap {α : Type} {f g : α → Bytes} {xs : List α} (h : ∀ x ∈ xs, Reads (f x) (g x)) :
    Reads (xs.flatMap f) (xs.flatMap g) := by
  induction xs with
  | nil => exact Reads.nil
  | cons x xs ih =>
    rw [List.flatMap_cons, List.flatMap_cons]
    exact (h x List.mem_cons_self).append (ih fun y hy => h y (List.mem_cons_of_mem _ hy))

theorem Reads.byte {b : UInt8} (hquote : b ≠ 34) (hslash : b ≠ 92) : Reads [b] [b] := by
  refine ⟨fun read rest => ?_, fun rest => contentOf_byte hslash rest⟩
  rw [List.singleton_append, readRaw?]
  · rfl
  · exact hquote
  · intro _ _ hb
    exact absurd hb hslash

theorem Reads.bytes {bs : Bytes} (h : ∀ b ∈ bs, b ≠ 34 ∧ b ≠ 92) : Reads bs bs := by
  have hflat : ∀ bs : Bytes, bs.flatMap (fun b => [b]) = bs := by simp
  have hreads := Reads.flatMap fun b hb => Reads.byte (h b hb).1 (h b hb).2
  rwa [hflat] at hreads

theorem Reads.escape {b : UInt8} {s : Bytes} (h : ∀ rest, unescapeLead 92 (b :: rest) = (s, 1)) :
    Reads [92, b] s := by
  refine ⟨fun read rest => ?_, fun rest => ?_⟩
  · rw [List.cons_append, List.singleton_append, readRaw?]
    rfl
  · rw [List.cons_append, List.singleton_append, contentOf_cons, h]
    rfl

theorem reads_ofHex (width n : Nat) : Reads (Bytes.ofHex width n) (Bytes.ofHex width n) := by
  refine Reads.bytes fun b hb => ?_
  have hhex := Bytes.isHex_of_mem_ofHex width n b hb
  constructor
  · rintro rfl
    exact absurd hhex (by decide)
  · rintro rfl
    exact absurd hhex (by decide)

theorem Reads.unit {n : Nat} (h : n < 65536) (hs : isSurrogate n = false) :
    Reads (92 :: 117 :: Bytes.ofHex 4 n) (String.utf8EncodeChar (Char.ofNat n)) := by
  refine ⟨fun read rest => ?_, fun rest => ?_⟩
  · rw [List.cons_append, List.cons_append, readRaw?, (reads_ofHex 4 n).stays, List.reverse_cons,
      List.reverse_cons, List.append_assoc, List.append_assoc]
    rfl
  · have hunit : unescapeUnit (Bytes.ofHex 4 n ++ rest) =
        (String.utf8EncodeChar (Char.ofNat n), 4) := by
      rw [unescapeUnit, hex4?_ofHex h]
      simp only [hs, Bool.not_false, if_true]
    have hlead : unescapeLead 92 (117 :: (Bytes.ofHex 4 n ++ rest)) =
        (String.utf8EncodeChar (Char.ofNat n), 5) := by
      simp only [unescapeLead, if_true, hunit]
    have hdrop : (117 :: (Bytes.ofHex 4 n ++ rest)).drop 5 = rest := by
      rw [Bytes.ofHex_four h]
      rfl
    rw [List.cons_append, List.cons_append, contentOf_cons, hlead, hdrop]

/-- An escape that the reader does not know: it is taken as it stands. -/
theorem Reads.unknown {b : UInt8} (width n : Nat)
    (h : ∀ rest, unescapeLead 92 (b :: rest) = ([92, b], 1)) :
    Reads (92 :: b :: Bytes.ofHex width n) (92 :: b :: Bytes.ofHex width n) :=
  (Reads.escape h).append (reads_ofHex width n)

/-! ### Characters as they are read back -/

/-- The controls with an escape that the reader knows. -/
def knownControls : List Char := ['\x08', '\x0c', '\n', '\r', '\t']

/-- The character is read as itself where it has to be written with escapes. -/
def Survives (c : Char) : Prop :=
  isPrintable c = true ∨ c ∈ knownControls ∨
    (0x80 ≤ c.toNat ∧ c.toNat ≤ 0xFFFF ∧ isPrintable c = false)

instance : DecidablePred Survives := fun c => by unfold Survives; infer_instance

def rereadPiece : Piece → Bytes
  | .char c => if Survives c then String.utf8EncodeChar c else escapeChar '"' c
  | .stray b => escapePiece (.stray b)

def reread (s : Bytes) : Bytes := if s.any isSpecial then (pieces s).flatMap rereadPiece else s

theorem char_eq_of_toNat {c : Char} {n : Nat} (h : c.toNat = n) : c = Char.ofNat n := by
  rw [← h, Char.ofNat_toNat]

theorem not_survives {c : Char} (hp : isPrintable c = false) (hc : c ∉ knownControls)
    (hn : c.toNat < 0x80 ∨ 0xFFFF < c.toNat) : ¬Survives c := by
  rintro (h | h | ⟨hlow, hhigh, -⟩)
  · rw [hp] at h
    cases h
  · exact hc h
  · omega

/-- The characters with a letter of their own: five of the seven letters are known to the reader. -/
theorem reads_controlLetter {c : Char} {letter : Bytes} (hp : isPrintable c = false)
    (h : controlLetter? c = some letter) :
    (Survives c ∧ Reads (92 :: letter) (String.utf8EncodeChar c)) ∨
      (¬Survives c ∧ Reads (92 :: letter) (92 :: letter) ∧
        (String.utf8EncodeChar c).length < (92 :: letter).length) := by
  unfold controlLetter? at h
  split at h
  case h_1 hn | h_5 hn =>
    obtain rfl := char_eq_of_toNat hn
    obtain rfl := Option.some.inj h
    exact Or.inr ⟨not_survives hp (by decide) (by decide), Reads.escape fun _ => rfl, by decide⟩
  case h_2 hn | h_3 hn | h_4 hn | h_6 hn | h_7 hn =>
    obtain rfl := char_eq_of_toNat hn
    obtain rfl := Option.some.inj h
    exact Or.inl ⟨Or.inr (Or.inl (by decide)), Reads.escape fun _ => rfl⟩
  case h_8 => cases h

theorem controlLetter?_isSome_of_mem {c : Char} (h : c ∈ knownControls) :
    (controlLetter? c).isSome = true := by
  simp only [knownControls, List.mem_cons, List.not_mem_nil, or_false] at h
  rcases h with rfl | rfl | rfl | rfl | rfl <;> rfl

/-- **A character is read as itself, or its escape is read**, which is longer. -/
theorem reads_escapeChar (c : Char) :
    (Survives c ∧ Reads (escapeChar '"' c) (String.utf8EncodeChar c)) ∨
      (¬Survives c ∧ Reads (escapeChar '"' c) (escapeChar '"' c) ∧
        (String.utf8EncodeChar c).length < (escapeChar '"' c).length) := by
  by_cases hmark : c = '"' ∨ c = '\\'
  · left
    rcases hmark with rfl | rfl
    · exact ⟨Or.inl (by decide +kernel), Reads.escape fun _ => rfl⟩
    · exact ⟨Or.inl (by decide +kernel), Reads.escape fun _ => rfl⟩
  rw [escapeChar, if_neg hmark]
  by_cases hp : isPrintable c = true
  · left
    rw [if_pos hp]
    refine ⟨Or.inl hp, Reads.bytes fun b hb => ⟨?_, ?_⟩⟩
    · rintro rfl
      exact hmark (Or.inl (char_eq_of_toNat (toNat_of_mem_utf8EncodeChar hb (by decide))))
    · rintro rfl
      exact hmark (Or.inr (char_eq_of_toNat (toNat_of_mem_utf8EncodeChar hb (by decide))))
  rw [if_neg hp]
  rw [Bool.not_eq_true] at hp
  cases hl : controlLetter? c with
  | some letter => exact reads_controlLetter hp hl
  | none =>
    have hknown : c ∉ knownControls := by
      intro hc
      have hsome := controlLetter?_isSome_of_mem hc
      rw [hl] at hsome
      cases hsome
    show (Survives c ∧ Reads (if _ then _ else _) _) ∨ _
    rcases Nat.lt_or_ge c.toNat 0x80 with h1 | h1
    · right
      have hlen := Bytes.le_length_ofHex 2 c.toNat
      simp only [if_pos h1]
      refine ⟨not_survives hp hknown (Or.inl h1), Reads.unknown 2 c.toNat fun _ => rfl, ?_⟩
      rw [utf8EncodeChar_one h1, List.length_append, List.length_singleton]
      omega
    rcases Nat.lt_or_ge c.toNat 0x10000 with h2 | h2
    · left
      have hsur : isSurrogate c.toNat = false := by
        have hvalid := isValidChar_toNat c
        simp only [Nat.isValidChar] at hvalid
        rw [isSurrogate, Bool.and_eq_false_iff]
        simp only [decide_eq_false_iff_not]
        omega
      have hunit := Reads.unit h2 hsur
      rw [Char.ofNat_toNat] at hunit
      simp only [if_neg (Nat.not_lt.mpr h1), if_pos h2]
      exact ⟨Or.inr (Or.inr ⟨h1, by omega, hp⟩), hunit⟩
    · right
      have hlen := Bytes.le_length_ofHex 8 c.toNat
      have hle := length_utf8EncodeChar_le c
      simp only [if_neg (Nat.not_lt.mpr h1), if_neg (Nat.not_lt.mpr h2)]
      refine ⟨not_survives hp hknown (Or.inr (by omega)), Reads.unknown 8 c.toNat fun _ => rfl, ?_⟩
      rw [List.length_append]
      omega

theorem reads_escapePiece (p : Piece) : Reads (escapePiece p) (rereadPiece p) := by
  cases p with
  | stray b => exact Reads.unknown 2 b.toNat fun _ => rfl
  | char c =>
    rw [rereadPiece]
    rcases reads_escapeChar c with ⟨hs, hr⟩ | ⟨hs, hr, -⟩
    · rw [if_pos hs]
      exact hr
    · rw [if_neg hs]
      exact hr

def PieceSurvives : Piece → Prop
  | .char c => Survives c
  | .stray _ => False

theorem rereadPiece_of_survives {p : Piece} (h : PieceSurvives p) : rereadPiece p = p.bytes := by
  cases p with
  | char c => exact if_pos h
  | stray b => exact h.elim

theorem flatMap_rereadPiece {ps : List Piece} (h : ∀ p ∈ ps, PieceSurvives p) :
    ps.flatMap rereadPiece = ps.flatMap Piece.bytes := by
  rw [List.flatMap_def, List.flatMap_def,
    List.map_congr_left fun p hp => rereadPiece_of_survives (h p hp)]

theorem length_lt_rereadPiece {p : Piece} (h : ¬PieceSurvives p) :
    p.bytes.length < (rereadPiece p).length := by
  cases p with
  | stray b =>
    show 1 < (escapePiece (.stray b)).length
    have hlen := Bytes.le_length_ofHex 2 b.toNat
    rw [escapePiece, List.length_append]
    omega
  | char c =>
    rcases reads_escapeChar c with ⟨hs, -⟩ | ⟨hs, -, hlt⟩
    · exact absurd hs h
    · rw [rereadPiece, if_neg hs]
      exact hlt

theorem length_bytes_lt {ps : List Piece} (h : ¬∀ p ∈ ps, PieceSurvives p) :
    (ps.flatMap Piece.bytes).length < (ps.flatMap rereadPiece).length := by
  induction ps with
  | nil => exact absurd (fun _ hp => by cases hp) h
  | cons p ps ih =>
    rw [List.flatMap_cons, List.flatMap_cons, List.length_append, List.length_append]
    rw [List.forall_mem_cons] at h
    by_cases hp : PieceSurvives p
    · have hlt := ih fun hps => h ⟨hp, hps⟩
      rw [rereadPiece_of_survives hp]
      omega
    · have hlt := length_lt_rereadPiece hp
      by_cases hps : ∀ p ∈ ps, PieceSurvives p
      · rw [flatMap_rereadPiece hps]
        omega
      · have hrest := ih hps
        omega

theorem pieceSurvives_iff (s : Bytes) :
    (∀ p ∈ pieces s, PieceSurvives p) ↔ isValid s = true ∧ ∀ c ∈ decode s, Survives c := by
  rw [isValid, List.all_eq_true, decode, List.forall_mem_map]
  constructor
  · intro h
    refine ⟨fun p hp => ?_, fun p hp => ?_⟩
    · cases p with
      | char c => rfl
      | stray b => exact (h _ hp).elim
    · cases p with
      | char c => exact h _ hp
      | stray b => exact (h _ hp).elim
  · rintro ⟨hchar, hs⟩ p hp
    cases p with
    | char c => exact hs _ hp
    | stray b => exact absurd (hchar _ hp) (by simp [Piece.isChar])

/-- The string needs no escape, or it has no stray byte and all its characters are read as
themselves. -/
def Intact (s : Bytes) : Prop :=
  (∀ b ∈ s, isSpecial b = false) ∨ (isValid s = true ∧ ∀ c ∈ decode s, Survives c)

instance : DecidablePred Intact := fun s =>
  decidable_of_iff (s.all (fun b => !isSpecial b) = true ∨
      (isValid s = true ∧ (decode s).all (fun c => decide (Survives c)) = true)) (by
    simp only [Intact, List.all_eq_true, Bool.not_eq_true', decide_eq_true_eq])

/-- **The strings that are read as they were**, exactly. -/
theorem reread_eq_iff (s : Bytes) : reread s = s ↔ Intact s := by
  rw [reread, Intact, ← pieceSurvives_iff]
  by_cases hspecial : s.any isSpecial = true
  · have hsome : ¬∀ b ∈ s, isSpecial b = false := by
      intro h
      obtain ⟨b, hb, hb'⟩ := List.any_eq_true.mp hspecial
      rw [h b hb] at hb'
      cases hb'
    rw [if_pos hspecial, or_iff_right hsome]
    constructor
    · intro h
      refine Classical.byContradiction fun hps => ?_
      have hlt := length_bytes_lt hps
      rw [h, flatMap_bytes_pieces] at hlt
      omega
    · intro h
      rw [flatMap_rereadPiece h, flatMap_bytes_pieces]
  · have hnone : ∀ b ∈ s, isSpecial b = false := by
      intro b hb
      rw [List.any_eq_true] at hspecial
      exact Bool.eq_false_iff.mpr fun hb' => hspecial ⟨b, hb, hb'⟩
    rw [if_neg hspecial]
    exact ⟨fun _ => Or.inl hnone, fun _ => rfl⟩

/-! ### A written string -/

def rawOf (s : Bytes) : Bytes :=
  if s.any isSpecial then (pieces s).flatMap escapePiece else s

theorem writeString_eq (s : Bytes) : writeString s = 34 :: (rawOf s ++ [34]) := by
  rw [writeString, rawOf]
  split
  · rfl
  · rfl

theorem reads_rawOf (s : Bytes) : Reads (rawOf s) (reread s) := by
  rw [rawOf, reread]
  split
  case isTrue => exact Reads.flatMap fun p _ => reads_escapePiece p
  case isFalse h =>
    refine Reads.bytes fun b hb => ⟨?_, ?_⟩
    · rintro rfl
      exact h (List.any_eq_true.mpr ⟨_, hb, by decide⟩)
    · rintro rfl
      exact h (List.any_eq_true.mpr ⟨_, hb, by decide⟩)

theorem readRaw?_rawOf (s rest : Bytes) :
    readRaw? [] (rawOf s ++ 34 :: rest) = some (rawOf s, rest) := by
  rw [(reads_rawOf s).stays, List.append_nil, readRaw?, List.reverse_reverse]

/-- **What is read where a string was written.** -/
theorem unescape_rawOf (s : Bytes) : unescape (rawOf s) = reread s := by
  have hcontent := (reads_rawOf s).content []
  rw [List.append_nil] at hcontent
  rw [unescape_eq, hcontent]
  exact List.append_nil _

end Fixity.Json
