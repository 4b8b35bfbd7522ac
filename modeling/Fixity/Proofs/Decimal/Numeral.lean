import Fixity.Decimal.Numeral
import Fixity.Proofs.Decimal.Overflow
import Fixity.Proofs.Token.Lexeme

/-!
# Numbers in source texts as numerals

A number in a source text consists of digits with an optional fraction.  As a numeral it is read for
the decimal that it writes (`read?_of_isNumber`), so the only way for it to be refused is that the
decimal is too large (`read?_eq_none_iff`).
-/

namespace Fixity.Double

/-- The number that the digits of a decimal write without its point. -/
def digitsOf (lexeme : Bytes) : Nat :=
  ofDigits 10 ((lexeme.filter (· != 46)).map fun b => Char.ofNat b.toNat)

/-- How many digits of a decimal stand after its point. -/
def placesOf (lexeme : Bytes) : Nat := (lexeme.dropWhile (· != 46)).length - 1

/-- The decimal is too large: it is rounded beyond the largest finite number. -/
def Overflows (lexeme : Bytes) : Prop := overflowBound * 10 ^ placesOf lexeme ≤ digitsOf lexeme

instance : DecidablePred Overflows := fun lexeme =>
  inferInstanceAs (Decidable (overflowBound * 10 ^ placesOf lexeme ≤ digitsOf lexeme))

/-! ### Characters of decimals -/

def decimalChars : List Char := ['0', '1', '2', '3', '4', '5', '6', '7', '8', '9']

theorem forall_of_all {P : Char → Prop} [DecidablePred P] {cs : List Char}
    (h : cs.all (fun c => decide (P c)) = true) : ∀ c ∈ cs, P c :=
  fun c hc => of_decide_eq_true (List.all_eq_true.mp h c hc)

theorem isSome_digitValue? : ∀ c ∈ decimalChars, (digitValue? 10 c).isSome = true :=
  forall_of_all (by decide)

theorem mem_decimalChars {bs : Bytes} (h : Spelling.isDigits bs = true) :
    ∀ c ∈ bs.map (fun b => Char.ofNat b.toNat), c ∈ decimalChars := by
  have hbyte : ∀ n, 48 ≤ n → n ≤ 57 → Char.ofNat n ∈ decimalChars := by
    have hall : ∀ n < 58, 48 ≤ n → Char.ofNat n ∈ decimalChars := by decide
    intro n hlow hhigh
    exact hall n (by omega) hlow
  rw [List.forall_mem_map]
  intro b hb
  rw [Spelling.isDigits, Bool.and_eq_true, List.all_eq_true] at h
  have hb' := h.2 b hb
  rw [Bool.and_eq_true, decide_eq_true_eq, decide_eq_true_eq] at hb'
  exact hbyte b.toNat (UInt8.le_iff_toNat_le.mp hb'.1) (UInt8.le_iff_toNat_le.mp hb'.2)

theorem ne_nil_of_isDigits {bs : Bytes} (h : Spelling.isDigits bs = true) : bs ≠ [] := by
  rintro rfl
  cases h

/-! ### Reading decimals -/

theorem underscoresFit_of_not_mem (base : Nat) {cs : List Char} (h : '_' ∉ cs) (afterDigit : Bool) :
    underscoresFit base afterDigit cs = true := by
  induction cs generalizing afterDigit with
  | nil => rfl
  | cons c cs ih =>
    rw [List.mem_cons, not_or] at h
    rw [underscoresFit]
    · exact ih h.2 _
    · exact fun hc => h.1 hc.symm

theorem takeWhile_decimal {ws : List Char} (tail : List Char) (hws : ∀ c ∈ ws, c ∈ decimalChars)
    (htail : ∀ c ∈ tail.head?, (digitValue? 10 c).isSome = false) :
    (ws ++ tail).takeWhile (fun c => (digitValue? 10 c).isSome) = ws ∧
      (ws ++ tail).dropWhile (fun c => (digitValue? 10 c).isSome) = tail := by
  have hdigits : ∀ c ∈ ws, (digitValue? 10 c).isSome = true :=
    fun c hc => isSome_digitValue? c (hws c hc)
  have hstop : tail.takeWhile (fun c => (digitValue? 10 c).isSome) = [] ∧
      tail.dropWhile (fun c => (digitValue? 10 c).isSome) = tail := by
    cases tail with
    | nil => exact ⟨rfl, rfl⟩
    | cons c cs => simp [htail c rfl]
  rw [List.takeWhile_append_of_pos hdigits, List.dropWhile_append_of_pos hdigits, hstop.1, hstop.2,
    List.append_nil]
  exact ⟨rfl, rfl⟩

theorem readParts?_whole {ws : List Char} (hws : ∀ c ∈ ws, c ∈ decimalChars) (hne : ws ≠ []) :
    readParts? 10 'e' ws = some ⟨ws, [], none⟩ := by
  have hend := takeWhile_decimal [] hws (fun c hc => by cases hc)
  rw [List.append_nil] at hend
  simp only [readParts?, hend.1, hend.2]
  simp [hne]

theorem readParts?_fraction {ws fs : List Char} (hws : ∀ c ∈ ws, c ∈ decimalChars)
    (hfs : ∀ c ∈ fs, c ∈ decimalChars) (hne : ws ≠ []) :
    readParts? 10 'e' (ws ++ '.' :: fs) = some ⟨ws, fs, none⟩ := by
  have hwhole := takeWhile_decimal ('.' :: fs) hws (fun c hc => by
    obtain rfl := Option.some.inj hc
    decide)
  have hend := takeWhile_decimal [] hfs (fun c hc => by cases hc)
  rw [List.append_nil] at hend
  simp only [readParts?, hwhole.1, hwhole.2, hend.1, hend.2]
  simp [hne]

/-- A text of digits and points that begins with a digit is read as a decimal. -/
theorem read?_eq_readDecimal? {bs : Bytes} {c : Char} {cs : List Char}
    (hbs : bs.map (fun b => Char.ofNat b.toNat) = c :: cs) (hc : c ∈ decimalChars)
    (hcs : ∀ c ∈ cs, c ∈ '.' :: decimalChars) : read? bs = readDecimal? (c :: cs) := by
  have hsign : ∀ c ∈ decimalChars, c ≠ '+' ∧ c ≠ '-' ∧ c.toLower ≠ 'i' ∧ c.toLower ≠ 'n' :=
    forall_of_all (by decide)
  have hbase : ∀ c ∈ '.' :: decimalChars, c ≠ 'x' ∧ c ≠ 'X' := forall_of_all (by decide)
  obtain ⟨hplus, hminus, hinf, hnan⟩ := hsign c hc
  have hword : ∀ w ws, c.toLower ≠ w → (c :: cs).map Char.toLower ≠ w :: ws :=
    fun w ws hw h => hw (List.cons.inj h).1
  have hnotInf : ¬((c :: cs).map Char.toLower = "inf".toList ∨
      (c :: cs).map Char.toLower = "infinity".toList) :=
    fun h => h.elim (hword 'i' _ hinf) (hword 'i' _ hinf)
  have hnotNan : ¬((c :: cs).map Char.toLower = "nan".toList ∧ (none : Option Bool) = none) :=
    fun h => hword 'n' _ hnan h.1
  have hunsigned : ∀ bits, signed ((none : Option Bool).getD false) bits = bits := fun _ => rfl
  unfold read?
  rw [hbs]
  dsimp only
  split
  case h_1 heq => exact absurd (List.cons.inj heq).1 hplus
  case h_2 heq => exact absurd (List.cons.inj heq).1 hminus
  case h_3 =>
  dsimp only
  rw [if_neg hnotInf, if_neg hnotNan]
  split
  case h_1 heq =>
    have hx : 'x' ∈ cs := by
      rw [(List.cons.inj heq).2]
      exact List.mem_cons_self
    exact absurd rfl (hbase _ (hcs _ hx)).1
  case h_2 heq =>
    have hx : 'X' ∈ cs := by
      rw [(List.cons.inj heq).2]
      exact List.mem_cons_self
    exact absurd rfl (hbase _ (hcs _ hx)).2
  case h_3 =>
    cases readDecimal? (c :: cs) with
    | none => rfl
    | some bits => rw [Option.map_some, hunsigned]

theorem read?_of_parts {bs : Bytes} {c : Char} {cs : List Char} {p : Parts}
    (hbs : bs.map (fun b => Char.ofNat b.toNat) = c :: cs) (hc : c ∈ decimalChars)
    (hcs : ∀ c ∈ cs, c ∈ '.' :: decimalChars) (hp : readParts? 10 'e' (c :: cs) = some p)
    (he : p.exponent = none) :
    read? bs = ofDecimal? (ofDigits 10 (p.whole ++ p.fraction)) (-(p.fraction.length : Int)) := by
  have hplain : ∀ c ∈ '.' :: decimalChars, c ≠ '_' := forall_of_all (by decide)
  have hnone : '_' ∉ c :: cs := by
    rw [List.mem_cons, not_or]
    refine ⟨fun h => hplain c (List.mem_cons_of_mem _ hc) h.symm, fun h => hplain _ (hcs _ h) rfl⟩
  have hfilter : (c :: cs).filter (· != '_') = c :: cs := by
    rw [List.filter_eq_self]
    intro c' hc'
    rw [bne_iff_ne]
    rintro rfl
    exact hnone hc'
  rw [read?_eq_readDecimal? hbs hc hcs, readDecimal?,
    if_pos (underscoresFit_of_not_mem 10 hnone false), hfilter, hp]
  simp only [Option.bind_some, he, Option.getD_none, Int.zero_sub]

theorem digitsOf_whole {whole : Bytes} (h : Spelling.isDigits whole = true) :
    digitsOf whole = ofDigits 10 (whole.map fun b => Char.ofNat b.toNat) ∧ placesOf whole = 0 := by
  have hpoint := Lexeme.ne_point_of_isDigits h
  have hdrop : (whole ++ []).dropWhile (· != 46) = [] := List.dropWhile_append_of_pos hpoint
  rw [List.append_nil] at hdrop
  rw [digitsOf, placesOf, List.filter_eq_self.mpr hpoint, hdrop]
  exact ⟨rfl, rfl⟩

theorem digitsOf_fraction {whole fraction : Bytes} (hw : Spelling.isDigits whole = true)
    (hf : Spelling.isDigits fraction = true) :
    digitsOf (whole ++ 46 :: fraction) =
        ofDigits 10 (whole.map (fun b => Char.ofNat b.toNat) ++
          fraction.map fun b => Char.ofNat b.toNat) ∧
      placesOf (whole ++ 46 :: fraction) = fraction.length := by
  have hwhole := Lexeme.ne_point_of_isDigits hw
  have hfraction := Lexeme.ne_point_of_isDigits hf
  constructor
  · rw [digitsOf, List.filter_append, List.filter_eq_self.mpr hwhole, List.filter_cons_of_neg (by decide),
      List.filter_eq_self.mpr hfraction, List.map_append]
  · rw [placesOf, List.dropWhile_append_of_pos hwhole, List.dropWhile_cons_of_neg (by decide),
      List.length_cons, Nat.add_sub_cancel]

/-- **A number in a source text is read for the decimal that it writes.** -/
theorem read?_of_isNumber {lexeme : Bytes} (h : Spelling.isNumber lexeme = true) :
    read? lexeme = ofDecimal? (digitsOf lexeme) (-(placesOf lexeme : Int)) := by
  rcases Lexeme.isNumber_cases h with hw | ⟨whole, fraction, rfl, hw, hf⟩
  · have hws := mem_decimalChars hw
    obtain ⟨hdigits, hplaces⟩ := digitsOf_whole hw
    obtain ⟨b, bs, rfl⟩ := List.exists_cons_of_ne_nil (ne_nil_of_isDigits hw)
    rw [List.map_cons, List.forall_mem_cons] at hws
    have hparts := readParts?_whole (List.forall_mem_cons.mpr hws) (List.cons_ne_nil _ _)
    rw [read?_of_parts (List.map_cons ..) hws.1 (fun c hc => List.mem_cons_of_mem _ (hws.2 c hc))
      hparts rfl, hdigits, hplaces, List.append_nil]
    rfl
  · have hws := mem_decimalChars hw
    have hfs := mem_decimalChars hf
    obtain ⟨hdigits, hplaces⟩ := digitsOf_fraction hw hf
    obtain ⟨b, bs, rfl⟩ := List.exists_cons_of_ne_nil (ne_nil_of_isDigits hw)
    rw [List.map_cons, List.forall_mem_cons] at hws
    have hparts := readParts?_fraction (List.forall_mem_cons.mpr hws) hfs (List.cons_ne_nil _ _)
    have hmap : (b :: bs ++ 46 :: fraction).map (fun b => Char.ofNat b.toNat) =
        Char.ofNat b.toNat :: (bs.map (fun b => Char.ofNat b.toNat) ++
          '.' :: fraction.map fun b => Char.ofNat b.toNat) := by
      rw [List.map_append, List.map_cons, List.map_cons]
      rfl
    have htail : ∀ c ∈ bs.map (fun b => Char.ofNat b.toNat) ++
        '.' :: fraction.map (fun b => Char.ofNat b.toNat), c ∈ '.' :: decimalChars := by
      intro c hc
      rcases List.mem_append.mp hc with hc | hc
      · exact List.mem_cons_of_mem _ (hws.2 c hc)
      rcases List.mem_cons.mp hc with rfl | hc
      · exact List.mem_cons_self
      · exact List.mem_cons_of_mem _ (hfs c hc)
    rw [read?_of_parts hmap hws.1 htail hparts rfl, hdigits, hplaces, List.length_map]
    rfl

/-- **Which numbers are refused.** -/
theorem read?_eq_none_iff {lexeme : Bytes} (h : Spelling.isNumber lexeme = true) :
    read? lexeme = none ↔ Overflows lexeme := by
  rw [read?_of_isNumber h, ofDecimal?_eq_none_iff, Overflows]

end Fixity.Double
