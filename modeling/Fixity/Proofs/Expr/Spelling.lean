import Fixity.Proofs.Expr.Built
import Fixity.Proofs.Token.Lead

/-!
# How leaves are spelt

`Spelling.Of type lexeme` says which byte strings spell a leaf of a type, rule by rule.  The checks
that the functions which make leaves run on a lexeme decide it (`isLiteral_iff`,
`isIdentifier_iff`).
-/

namespace Fixity.Spelling

open Lexeme Utf8

def Digits (bs : Bytes) : Prop := bs ≠ [] ∧ ∀ b ∈ bs, 48 ≤ b.toNat ∧ b.toNat ≤ 57

def reservedWords : List Bytes := ["and", "or", "true", "false", "nil"]

/-- The byte string spells a leaf of the type. -/
inductive Of : TokenType → Bytes → Prop
  | whole {ds : Bytes} : Digits ds → Of .number ds
  | fraction {ds fs : Bytes} : Digits ds → Digits fs → Of .number (ds ++ 46 :: fs)
  /-- Any bytes between two quotes, but no quote. -/
  | string {body : Bytes} : 34 ∉ body → Of .string (34 :: (body ++ [34]))
  | trueWord : Of .trueWord "true"
  | falseWord : Of .falseWord "false"
  | nilWord : Of .nilWord "nil"
  /-- Letters, digits and `_`, of which the first is no digit. -/
  | name {c : Char} {cs : List Char} : c = '_' ∨ Text.isLetter c = true →
      (∀ x ∈ cs, (x = '_' ∨ Text.isLetter x = true) ∨ Text.isDigitChar x = true) →
      encode (c :: cs) ∉ reservedWords → Of .identifier (encode (c :: cs))

theorem isNumber_iff {bs : Bytes} : isNumber bs = true ↔ Of .number bs := by
  constructor
  · intro h
    rcases isNumber_cases h with hwhole | ⟨whole, fraction, rfl, hwhole, hfraction⟩
    · exact .whole (isDigits_iff.mp hwhole)
    · exact .fraction (isDigits_iff.mp hwhole) (isDigits_iff.mp hfraction)
  · intro h
    cases h with
    | whole hds => exact isNumber_of_isDigits (isDigits_iff.mpr hds)
    | fraction hds hfs => exact isNumber_of_fraction (isDigits_iff.mpr hds) (isDigits_iff.mpr hfs)

theorem isString_iff {bs : Bytes} : isString bs = true ↔ Of .string bs := by
  constructor
  · intro h
    obtain ⟨body, rfl, hbody⟩ := isString_cases h
    exact .string hbody
  · intro h
    cases h with
    | @string body hbody =>
      rw [isString, List.getLast?_concat, List.dropLast_concat]
      simpa using hbody

/-- **The check of a literal decides how literals are spelt.** -/
theorem isLiteral_iff {type : TokenType} {lexeme : Bytes} (h : type.isLiteral = true) :
    isLiteral type lexeme = true ↔ Of type lexeme := by
  have hword : ∀ name : Bytes, type.name = name → (Of type lexeme ↔ lexeme = name) →
      ((lexeme == type.name) = true ↔ Of type lexeme) := by
    intro name hname hof
    rw [hof, beq_iff_eq, hname]
  rcases Expr.type_of_isLiteral h with rfl | rfl | rfl | rfl | rfl
  · exact isNumber_iff
  · exact isString_iff
  · refine hword "true" rfl ⟨fun h => ?_, fun h => h ▸ .trueWord⟩
    cases h
    rfl
  · refine hword "false" rfl ⟨fun h => ?_, fun h => h ▸ .falseWord⟩
    cases h
    rfl
  · refine hword "nil" rfl ⟨fun h => ?_, fun h => h ▸ .nilWord⟩
    cases h
    rfl

theorem ofWord?_eq_none_iff {bs : Bytes} : TokenType.ofWord? bs = none ↔ bs ∉ reservedWords := by
  have hnames : reservedWords =
      ([.op .and, .op .or, .trueWord, .falseWord, .nilWord] : List TokenType).map (·.name) := rfl
  rw [TokenType.ofWord?, List.find?_eq_none, hnames, List.mem_map, not_exists]
  simp only [decide_eq_true_eq, not_and]

/-- **The check of a name decides how names are spelt.** -/
theorem isIdentifier_iff {bs : Bytes} : isIdentifier bs = true ↔ Of .identifier bs := by
  constructor
  · intro h
    obtain ⟨c, cs, rfl, hfree, hc, hcs⟩ := exists_of_isIdentifier h
    refine .name (by simpa [beginsWord] using hc) (fun x hx => ?_) (ofWord?_eq_none_iff.mp hfree)
    simpa [continuesWord, beginsWord] using List.all_eq_true.mp hcs x hx
  · intro h
    generalize htype : TokenType.identifier = type at h
    cases h with
    | @name c cs hc hcs hfree =>
      refine isIdentifier_encode (by simpa [beginsWord] using hc) ?_ (ofWord?_eq_none_iff.mpr hfree)
      refine List.all_eq_true.mpr fun x hx => ?_
      simpa [continuesWord, beginsWord] using hcs x hx
    | _ => cases htype

end Fixity.Spelling
