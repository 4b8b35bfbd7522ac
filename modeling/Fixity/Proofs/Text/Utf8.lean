import Fixity.Proofs.Segment
import Fixity.Text.Utf8

/-!
# UTF-8 is read as it was written

* `pieces_encode_append`: written characters are read back, whatever follows them; so
  `decode (encode cs) = cs`.
* `flatMap_bytes_pieces`: the pieces of a byte string hold all its bytes, stray ones too, so pieces
  determine the byte string although characters do not.
* `encode_decode`: without stray bytes, characters determine it as well.
* `pieces_append`: two byte strings are read apart unless the second begins with a byte that
  continues an encoding.
-/

namespace Fixity.Utf8

theorem toNat_lt (b : UInt8) : b.toNat < 256 := b.toNat_lt

theorem isValidChar_toNat (c : Char) : c.toNat.isValidChar := c.valid

theorem toNat_lt_max (c : Char) : c.toNat < 0x110000 := by
  rcases isValidChar_toNat c with h | h <;> omega

theorem scalar?_toNat {least : Nat} (c : Char) (h : least ≤ c.toNat) :
    scalar? least c.toNat = some c := by
  rw [scalar?, if_pos ⟨h, isValidChar_toNat c⟩, Char.ofNat_toNat]

theorem toNat_charOfNat {n : Nat} (h : n.isValidChar) : (Char.ofNat n).toNat = n := by
  rw [Char.ofNat, dif_pos h]
  rfl

theorem scalar?_eq_some {least n : Nat} {c : Char} (h : scalar? least n = some c) :
    least ≤ n ∧ c.toNat = n := by
  unfold scalar? at h
  split at h
  case isTrue hn =>
    obtain rfl := Option.some.inj h
    exact ⟨hn.1, toNat_charOfNat hn.2⟩
  case isFalse => simp at h

/-! ### Bytes of a character -/

theorem utf8EncodeChar_one {c : Char} (h : c.toNat < 0x80) :
    String.utf8EncodeChar c = [UInt8.ofNat c.toNat] := by
  have hval : c.val.toNat = c.toNat := rfl
  simp only [String.utf8EncodeChar, hval]
  rw [if_pos (by omega)]

theorem utf8EncodeChar_two {c : Char} (hlow : 0x80 ≤ c.toNat) (h : c.toNat < 0x800) :
    String.utf8EncodeChar c =
      [UInt8.ofNat (c.toNat / 64 + 0xC0), UInt8.ofNat (c.toNat % 64 + 0x80)] := by
  have hval : c.val.toNat = c.toNat := rfl
  simp only [String.utf8EncodeChar, hval]
  rw [if_neg (by omega), if_pos (by omega), Nat.mod_eq_of_lt (by omega : c.toNat / 64 < 0x20)]

theorem utf8EncodeChar_three {c : Char} (hlow : 0x800 ≤ c.toNat) (h : c.toNat < 0x10000) :
    String.utf8EncodeChar c =
      [UInt8.ofNat (c.toNat / 4096 + 0xE0), UInt8.ofNat (c.toNat / 64 % 64 + 0x80),
        UInt8.ofNat (c.toNat % 64 + 0x80)] := by
  have hval : c.val.toNat = c.toNat := rfl
  simp only [String.utf8EncodeChar, hval]
  rw [if_neg (by omega), if_neg (by omega), if_pos (by omega),
    Nat.mod_eq_of_lt (by omega : c.toNat / 4096 < 0x10)]

theorem utf8EncodeChar_four {c : Char} (hlow : 0x10000 ≤ c.toNat) :
    String.utf8EncodeChar c =
      [UInt8.ofNat (c.toNat / 262144 + 0xF0), UInt8.ofNat (c.toNat / 4096 % 64 + 0x80),
        UInt8.ofNat (c.toNat / 64 % 64 + 0x80), UInt8.ofNat (c.toNat % 64 + 0x80)] := by
  have hmax := toNat_lt_max c
  have hval : c.val.toNat = c.toNat := rfl
  simp only [String.utf8EncodeChar, hval]
  rw [if_neg (by omega), if_neg (by omega), if_neg (by omega),
    Nat.mod_eq_of_lt (by omega : c.toNat / 262144 < 0x08)]

theorem isContinuation_ofNat (n : Nat) : isContinuation (UInt8.ofNat (n % 64 + 0x80)) = true := by
  rw [isContinuation, UInt8.toNat_ofNat']
  simp only [beq_iff_eq]
  omega

theorem toNat_ofNat_of_lt {n : Nat} (h : n < 256) : (UInt8.ofNat n).toNat = n := by
  rw [UInt8.toNat_ofNat', Nat.mod_eq_of_lt (by omega)]

/-- **What is written for a character is read as that character**, whatever follows it. -/
theorem lead_utf8EncodeChar (c : Char) (rest : Bytes) : ∃ b bs,
    String.utf8EncodeChar c = b :: bs ∧ lead b (bs ++ rest) = (.char c, bs.length) := by
  have hmax := toNat_lt_max c
  rcases Nat.lt_or_ge c.toNat 0x80 with h1 | h1
  · refine ⟨_, _, utf8EncodeChar_one h1, ?_⟩
    simp only [lead, encoded?]
    rw [toNat_ofNat_of_lt (by omega), if_pos h1, Char.ofNat_toNat]
    rfl
  rcases Nat.lt_or_ge c.toNat 0x800 with h2 | h2
  · refine ⟨_, _, utf8EncodeChar_two h1 h2, ?_⟩
    have hn : (c.toNat / 64 + 0xC0) % 32 * 64 + (c.toNat % 64 + 0x80) % 64 = c.toNat := by omega
    simp only [lead, encoded?, List.cons_append, List.nil_append]
    rw [toNat_ofNat_of_lt (by omega), if_neg (by omega), if_neg (by omega), if_pos (by omega),
      if_pos (isContinuation_ofNat _), toNat_ofNat_of_lt (by omega), hn, scalar?_toNat c h1]
    rfl
  rcases Nat.lt_or_ge c.toNat 0x10000 with h3 | h3
  · refine ⟨_, _, utf8EncodeChar_three h2 h3, ?_⟩
    have hn : (c.toNat / 4096 + 0xE0) % 16 * 4096 + (c.toNat / 64 % 64 + 0x80) % 64 * 64 +
        (c.toNat % 64 + 0x80) % 64 = c.toNat := by omega
    simp only [lead, encoded?, List.cons_append, List.nil_append]
    rw [toNat_ofNat_of_lt (by omega), if_neg (by omega), if_neg (by omega), if_neg (by omega),
      if_pos (by omega), isContinuation_ofNat, isContinuation_ofNat, toNat_ofNat_of_lt (by omega),
      toNat_ofNat_of_lt (by omega), hn, scalar?_toNat c h2]
    rfl
  · refine ⟨_, _, utf8EncodeChar_four h3, ?_⟩
    have hn : (c.toNat / 262144 + 0xF0) % 8 * 262144 + (c.toNat / 4096 % 64 + 0x80) % 64 * 4096 +
        (c.toNat / 64 % 64 + 0x80) % 64 * 64 + (c.toNat % 64 + 0x80) % 64 = c.toNat := by omega
    simp only [lead, encoded?, List.cons_append, List.nil_append]
    rw [toNat_ofNat_of_lt (by omega), if_neg (by omega), if_neg (by omega), if_neg (by omega),
      if_neg (by omega), if_pos (by omega), isContinuation_ofNat, isContinuation_ofNat,
      isContinuation_ofNat, toNat_ofNat_of_lt (by omega), toNat_ofNat_of_lt (by omega),
      toNat_ofNat_of_lt (by omega), hn, scalar?_toNat c h3]
    rfl

/-- A byte below 128 in the encoding of a character is that character. -/
theorem toNat_of_mem_utf8EncodeChar {c : Char} {b : UInt8} (h : b ∈ String.utf8EncodeChar c)
    (hb : b.toNat < 0x80) : c.toNat = b.toNat := by
  have hmax := toNat_lt_max c
  -- every byte of a longer encoding is at least 128
  have hhigh : ∀ {n : Nat}, b = UInt8.ofNat (n + 0x80) → n + 0x80 < 256 → False := by
    intro n hn hlt
    rw [hn, toNat_ofNat_of_lt hlt] at hb
    omega
  rcases Nat.lt_or_ge c.toNat 0x80 with h1 | h1
  · rw [utf8EncodeChar_one h1, List.mem_singleton] at h
    rw [h, toNat_ofNat_of_lt (by omega)]
  rcases Nat.lt_or_ge c.toNat 0x800 with h2 | h2
  · rw [utf8EncodeChar_two h1 h2] at h
    simp only [List.mem_cons, List.not_mem_nil, or_false] at h
    rcases h with h | h
    · exact (@hhigh (c.toNat / 64 + 0x40) h (by omega)).elim
    · exact (hhigh h (by omega)).elim
  rcases Nat.lt_or_ge c.toNat 0x10000 with h3 | h3
  · rw [utf8EncodeChar_three h2 h3] at h
    simp only [List.mem_cons, List.not_mem_nil, or_false] at h
    rcases h with h | h | h
    · exact (@hhigh (c.toNat / 4096 + 0x60) h (by omega)).elim
    · exact (hhigh h (by omega)).elim
    · exact (hhigh h (by omega)).elim
  · rw [utf8EncodeChar_four h3] at h
    simp only [List.mem_cons, List.not_mem_nil, or_false] at h
    rcases h with h | h | h | h
    · exact (@hhigh (c.toNat / 262144 + 0x70) h (by omega)).elim
    · exact (hhigh h (by omega)).elim
    · exact (hhigh h (by omega)).elim
    · exact (hhigh h (by omega)).elim

theorem length_utf8EncodeChar_le (c : Char) : (String.utf8EncodeChar c).length ≤ 4 := by
  rcases Nat.lt_or_ge c.toNat 0x80 with h1 | h1
  · simp [utf8EncodeChar_one h1]
  rcases Nat.lt_or_ge c.toNat 0x800 with h2 | h2
  · simp [utf8EncodeChar_two h1 h2]
  rcases Nat.lt_or_ge c.toNat 0x10000 with h3 | h3
  · simp [utf8EncodeChar_three h2 h3]
  · simp [utf8EncodeChar_four h3]

theorem ofNat_eq_of_toNat {b : UInt8} {n : Nat} (h : n = b.toNat) : UInt8.ofNat n = b := by
  rw [h, UInt8.ofNat_toNat]

theorem toNat_of_isContinuation {b : UInt8} (h : isContinuation b = true) :
    b.toNat / 64 = 2 := by
  simpa [isContinuation] using h

/-- What is read as a character was written for it. -/
theorem utf8EncodeChar_of_encoded? {b : UInt8} {rest : Bytes} {c : Char} {n : Nat}
    (h : encoded? b rest = some (c, n)) :
    String.utf8EncodeChar c = b :: rest.take n ∧ n ≤ rest.length := by
  have hb := toNat_lt b
  simp only [encoded?] at h
  split at h
  case isTrue h1 =>
    obtain ⟨rfl, rfl⟩ : Char.ofNat b.toNat = c ∧ 0 = n := by simpa using h
    have hv : b.toNat.isValidChar := Or.inl (by omega)
    have hc : (Char.ofNat b.toNat).toNat = b.toNat := by
      rw [Char.ofNat, dif_pos hv]
      rfl
    rw [utf8EncodeChar_one (by omega), hc, UInt8.ofNat_toNat]
    exact ⟨rfl, Nat.zero_le _⟩
  case isFalse h1 =>
  split at h
  case isTrue => simp at h
  case isFalse h2 =>
  split at h
  case isTrue h3 =>
    split at h
    case h_1 d ds =>
      split at h
      case isTrue hd =>
        obtain ⟨c', hs, he⟩ := Option.map_eq_some_iff.mp h
        obtain ⟨rfl, rfl⟩ := Prod.mk.inj he
        obtain ⟨hlow, hc⟩ := scalar?_eq_some hs
        have hd' := toNat_of_isContinuation hd
        rw [utf8EncodeChar_two (by omega) (by omega), ofNat_eq_of_toNat (b := b) (by omega),
          ofNat_eq_of_toNat (b := d) (by omega)]
        exact ⟨rfl, by simp⟩
      case isFalse => simp at h
    case h_2 => simp at h
  case isFalse h3 =>
  split at h
  case isTrue h4 =>
    split at h
    case h_1 d e ds =>
      split at h
      case isTrue hde =>
        rw [Bool.and_eq_true] at hde
        obtain ⟨c', hs, he⟩ := Option.map_eq_some_iff.mp h
        obtain ⟨rfl, rfl⟩ := Prod.mk.inj he
        obtain ⟨hlow, hc⟩ := scalar?_eq_some hs
        have hd' := toNat_of_isContinuation hde.1
        have he' := toNat_of_isContinuation hde.2
        rw [utf8EncodeChar_three (by omega) (by omega), ofNat_eq_of_toNat (b := b) (by omega),
          ofNat_eq_of_toNat (b := d) (by omega), ofNat_eq_of_toNat (b := e) (by omega)]
        exact ⟨rfl, by simp⟩
      case isFalse => simp at h
    case h_2 => simp at h
  case isFalse h4 =>
  split at h
  case isTrue h5 =>
    split at h
    case h_1 d e f ds =>
      split at h
      case isTrue hdef =>
        rw [Bool.and_eq_true, Bool.and_eq_true] at hdef
        obtain ⟨c', hs, he⟩ := Option.map_eq_some_iff.mp h
        obtain ⟨rfl, rfl⟩ := Prod.mk.inj he
        obtain ⟨hlow, hc⟩ := scalar?_eq_some hs
        have hd' := toNat_of_isContinuation hdef.1.1
        have he' := toNat_of_isContinuation hdef.1.2
        have hf' := toNat_of_isContinuation hdef.2
        rw [utf8EncodeChar_four (by omega), ofNat_eq_of_toNat (b := b) (by omega),
          ofNat_eq_of_toNat (b := d) (by omega), ofNat_eq_of_toNat (b := e) (by omega),
          ofNat_eq_of_toNat (b := f) (by omega)]
        exact ⟨rfl, by simp⟩
      case isFalse => simp at h
    case h_2 => simp at h
  case isFalse => simp at h

/-! ### Pieces -/

def Piece.bytes : Piece → Bytes
  | .char c => String.utf8EncodeChar c
  | .stray b => [b]

@[simp] theorem pieces_nil : pieces [] = [] := rfl

theorem pieces_cons (b : UInt8) (bs : Bytes) :
    pieces (b :: bs) = (lead b bs).1 :: pieces (bs.drop (lead b bs).2) := by
  rw [pieces, Segment.cut_cons, List.map_cons, pieces]

theorem lead_of_encoded? {b : UInt8} {bs : Bytes} {c : Char} {n : Nat}
    (h : encoded? b bs = some (c, n)) : lead b bs = (.char c, n) := by
  simp only [lead, h]

theorem lead_of_stray {b : UInt8} {bs : Bytes} (h : encoded? b bs = none) :
    lead b bs = (.stray b, 0) := by
  simp only [lead, h]

theorem pieces_utf8EncodeChar_append (c : Char) (rest : Bytes) :
    pieces (String.utf8EncodeChar c ++ rest) = .char c :: pieces rest := by
  obtain ⟨b, bs, hc, hlead⟩ := lead_utf8EncodeChar c rest
  rw [hc, List.cons_append, pieces_cons, hlead, List.drop_left]

/-- **Written characters are read back**, in front of anything. -/
theorem pieces_encode_append (cs : List Char) (rest : Bytes) :
    pieces (encode cs ++ rest) = cs.map .char ++ pieces rest := by
  induction cs with
  | nil => rfl
  | cons c cs ih =>
    rw [encode, List.flatMap_cons, List.append_assoc, pieces_utf8EncodeChar_append]
    rw [encode] at ih
    rw [ih, List.map_cons, List.cons_append]

theorem pieces_ascii_cons {b : UInt8} (hb : b.toNat < 0x80) (rest : Bytes) :
    pieces (b :: rest) = .char (Char.ofNat b.toNat) :: pieces rest := by
  have hlead : encoded? b rest = some (Char.ofNat b.toNat, 0) := by
    simp only [encoded?]
    rw [if_pos hb]
  rw [pieces_cons, lead_of_encoded? hlead, List.drop_zero]

theorem encode_ascii {bs : Bytes} (h : ∀ b ∈ bs, b.toNat < 0x80) :
    encode (bs.map fun b => Char.ofNat b.toNat) = bs := by
  induction bs with
  | nil => rfl
  | cons b bs ih =>
    have hb : b.toNat < 0x80 := h b (by simp)
    have hchar : (Char.ofNat b.toNat).toNat = b.toNat := toNat_charOfNat (Or.inl (by omega))
    rw [encode] at ih
    rw [encode, List.map_cons, List.flatMap_cons, ih fun b hb => h b (List.mem_cons_of_mem _ hb),
      utf8EncodeChar_one (by omega), hchar, ofNat_eq_of_toNat rfl]
    rfl

/-- **No byte is lost**: the bytes of the pieces are the byte string. -/
theorem flatMap_bytes_pieces (bs : Bytes) : (pieces bs).flatMap Piece.bytes = bs := by
  induction hn : bs.length using Nat.strongRecOn generalizing bs with
  | ind n ih =>
    cases bs with
    | nil => rfl
    | cons b bs =>
      subst hn
      have hshort : ∀ k : Nat, (bs.drop k).length < (b :: bs).length := by
        intro k
        rw [List.length_drop, List.length_cons]
        omega
      rw [pieces_cons, List.flatMap_cons, ih _ (hshort _) _ rfl]
      cases he : encoded? b bs with
      | none =>
        rw [lead_of_stray he]
        rfl
      | some found =>
        obtain ⟨c, k⟩ := found
        rw [lead_of_encoded? he]
        simp only [Piece.bytes, (utf8EncodeChar_of_encoded? he).1, List.cons_append,
          List.take_append_drop]

theorem pieces_injective {as bs : Bytes} (h : pieces as = pieces bs) : as = bs := by
  rw [← flatMap_bytes_pieces as, h, flatMap_bytes_pieces]

/-- What a byte begins does not depend on what follows, unless a continuation byte does. -/
theorem lead_append (b : UInt8) (bs : Bytes) {rest : Bytes}
    (hrest : ∀ r ∈ rest.head?, isContinuation r = false) :
    lead b (bs ++ rest) = lead b bs ∧ (lead b bs).2 ≤ bs.length := by
  have hlen : ∀ {k}, encoded? b bs = some k → k.2 ≤ bs.length := by
    intro k hk
    exact (utf8EncodeChar_of_encoded? hk).2
  have hsame : encoded? b (bs ++ rest) = encoded? b bs := by
    -- where bytes are missing, the first byte of `rest` would have to continue the character
    simp only [encoded?]
    split
    · rfl
    split
    · rfl
    split
    · rcases bs with _ | ⟨c, bs⟩
      · cases rest with
        | nil => rfl
        | cons r rest => simp [hrest r rfl]
      · rfl
    split
    · rcases bs with _ | ⟨c, _ | ⟨d, bs⟩⟩
      · rcases rest with _ | ⟨r, _ | ⟨r', rest⟩⟩
        · rfl
        · rfl
        · simp [hrest r rfl]
      · cases rest with
        | nil => rfl
        | cons r rest => simp [hrest r rfl]
      · rfl
    split
    · rcases bs with _ | ⟨c, _ | ⟨d, _ | ⟨e, bs⟩⟩⟩
      · rcases rest with _ | ⟨r, _ | ⟨r', _ | ⟨r'', rest⟩⟩⟩
        · rfl
        · rfl
        · rfl
        · simp [hrest r rfl]
      · rcases rest with _ | ⟨r, _ | ⟨r', rest⟩⟩
        · rfl
        · rfl
        · simp [hrest r rfl]
      · cases rest with
        | nil => rfl
        | cons r rest => simp [hrest r rfl]
      · rfl
    · rfl
  rw [lead, lead, hsame]
  refine ⟨rfl, ?_⟩
  cases he : encoded? b bs with
  | none => exact Nat.zero_le _
  | some found => exact hlen he

/-- Byte strings are read apart when the second does not begin with a continuation byte. -/
theorem pieces_append (bs rest : Bytes) (hrest : ∀ r ∈ rest.head?, isContinuation r = false) :
    pieces (bs ++ rest) = pieces bs ++ pieces rest := by
  induction hn : bs.length using Nat.strongRecOn generalizing bs with
  | ind n ih =>
    cases bs with
    | nil => rfl
    | cons b bs =>
      subst hn
      obtain ⟨hlead, hle⟩ := lead_append b bs hrest
      rw [List.cons_append, pieces_cons, pieces_cons, hlead, List.drop_append_of_le_length hle,
        ih _ (by rw [List.length_drop, List.length_cons]; omega) _ rfl, List.cons_append]

/-! ### Characters -/

@[simp] theorem decode_nil : decode [] = [] := rfl

theorem decode_encode_append (cs : List Char) (rest : Bytes) :
    decode (encode cs ++ rest) = cs ++ decode rest := by
  rw [decode, pieces_encode_append, List.map_append, List.map_map]
  have hid : Piece.toChar ∘ Piece.char = id := rfl
  rw [hid, List.map_id, decode]

/-- **Reading undoes writing.** -/
theorem decode_encode (cs : List Char) : decode (encode cs) = cs := by
  have h := decode_encode_append cs []
  rwa [List.append_nil, decode_nil, List.append_nil] at h

theorem encode_injective : Function.Injective encode := Function.LeftInverse.injective decode_encode

theorem isValid_encode (cs : List Char) : isValid (encode cs) = true := by
  have h := pieces_encode_append cs []
  rw [List.append_nil, pieces_nil, List.append_nil] at h
  rw [isValid, h]
  simp [Piece.isChar]

/-- **Writing undoes reading where no byte is stray.** -/
theorem encode_decode {bs : Bytes} (h : isValid bs = true) : encode (decode bs) = bs := by
  have hall : ∀ p ∈ pieces bs, String.utf8EncodeChar p.toChar = p.bytes := by
    intro p hp
    have hc := List.all_eq_true.mp h p hp
    cases p with
    | char c => rfl
    | stray b => simp [Piece.isChar] at hc
  calc encode (decode bs) = (pieces bs).flatMap Piece.bytes := by
        rw [encode, decode, List.flatMap_map, List.flatMap_def, List.flatMap_def,
          List.map_congr_left hall]
    _ = bs := flatMap_bytes_pieces bs

/-- An ASCII byte that is written stands for its character. -/
theorem mem_of_mem_encode {cs : List Char} {b : UInt8} (hb : b.toNat < 0x80) (h : b ∈ encode cs) :
    Char.ofNat b.toNat ∈ cs := by
  obtain ⟨c, hc, h⟩ := List.mem_flatMap.mp h
  rwa [← toNat_of_mem_utf8EncodeChar h hb, Char.ofNat_toNat]

/-- An ASCII character that is read is one of the bytes, for a stray byte is read as U+FFFD. -/
theorem mem_of_mem_decode {bs : Bytes} {b : UInt8} (hb : b.toNat < 0x80)
    (h : Char.ofNat b.toNat ∈ decode bs) : b ∈ bs := by
  have htoNat : (Char.ofNat b.toNat).toNat = b.toNat := toNat_charOfNat (Or.inl (by omega))
  obtain ⟨p, hp, hchar⟩ := List.mem_map.mp h
  rw [← flatMap_bytes_pieces bs]
  refine List.mem_flatMap.mpr ⟨p, hp, ?_⟩
  cases p with
  | stray b' =>
    have hstray : (0xFFFD : Nat) = b.toNat := htoNat ▸ congrArg Char.toNat hchar
    omega
  | char c =>
    obtain rfl : c = Char.ofNat b.toNat := hchar
    rw [Piece.bytes, utf8EncodeChar_one (by omega), htoNat, UInt8.ofNat_toNat]
    exact List.mem_singleton_self b

end Fixity.Utf8
