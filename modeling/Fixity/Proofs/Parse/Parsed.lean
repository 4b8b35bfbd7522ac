import Fixity.Proofs.Document.RoundTrip
import Fixity.Proofs.RoundTrip

/-!
# Parsed trees

A tree that was parsed from a text is built, has only operators of the table, and all its tokens were
scanned (`parsed_of_parseAt`).  Of its lexemes only those of strings can hold a quote, a backslash or a
control byte (`Parsed.plain_lexeme`).
-/

namespace Fixity.Expr

open Lexeme Utf8

variable {T : Table}

structure Parsed (T : Table) (e : Expr) : Prop where
  built : Built e
  hasEntry : ∀ n ∈ e.nodes, n.HasEntry T
  validStrings : e.ValidStrings
  scanned : ∀ n ∈ e.nodes, n.token.Scanned

theorem parsed_of_parseAt {line : Int64} {src : Bytes} {e : Expr}
    (h : Expr.parseAt T line src = .ok e) : e.Parsed T := by
  obtain ⟨-, hrun⟩ := parseAt_eq_ok.mp h
  have hscanned : ∀ t ∈ (Scan.ofBytes line src).stream.tokens, t.Scanned :=
    fun t ht => Scan.scanned_of_mem ht
  exact
    { built := Parser.run_kept Parser.kept_built rfl hscanned hrun
      hasEntry := Parser.run_kept Parser.kept_hasEntry rfl hscanned hrun
      validStrings := Parser.run_kept Parser.kept_validStrings rfl hscanned hrun
      scanned := Parser.run_kept Parser.kept_tokens rfl hscanned hrun }

theorem parsed_of_parse {src : Bytes} {e : Expr} (h : Expr.parse T src = .ok e) : e.Parsed T :=
  parsed_of_parseAt h

/-! ### Lexemes without special bytes -/

theorem isSpecial_iff {b : UInt8} :
    Json.isSpecial b = true ↔ b.toNat = 34 ∨ b.toNat = 92 ∨ b.toNat < 32 := by
  simp [Json.isSpecial, ← UInt8.toNat_inj, UInt8.lt_iff_toNat_lt, or_assoc]

theorem plain_digits {bs : Bytes} (h : Spelling.isDigits bs = true) :
    ∀ b ∈ bs, Json.isSpecial b = false := by
  obtain ⟨-, hdigits⟩ := isDigits_iff.mp h
  intro b hb
  have hdigit := hdigits b hb
  rw [← Bool.not_eq_true, isSpecial_iff]
  omega

theorem plain_number {bs : Bytes} (h : Spelling.isNumber bs = true) :
    ∀ b ∈ bs, Json.isSpecial b = false := by
  rcases isNumber_cases h with h | ⟨whole, fraction, rfl, hwhole, hfraction⟩
  · exact plain_digits h
  · intro b hb
    rcases List.mem_append.mp hb with hb | hb
    · exact plain_digits hwhole b hb
    · rcases List.mem_cons.mp hb with rfl | hb
      · decide
      · exact plain_digits hfraction b hb

/-- A special byte is a character of its own, and a name has only letters, digits and `_`. -/
theorem plain_identifier {bs : Bytes} (h : Spelling.isIdentifier bs = true) :
    ∀ b ∈ bs, Json.isSpecial b = false := by
  obtain ⟨c, cs, rfl, -, hc, hcs⟩ := exists_of_isIdentifier h
  intro b hb
  obtain ⟨x, hx, hb⟩ := List.mem_flatMap.mp hb
  have hword : continuesWord x = true := by
    rcases List.mem_cons.mp hx with rfl | hx
    · exact continuesWord_iff.mpr (Or.inl hc)
    · exact List.all_eq_true.mp hcs x hx
  rw [← Bool.not_eq_true, isSpecial_iff]
  intro hspecial
  have hbyte : x.toNat = b.toNat := toNat_of_mem_utf8EncodeChar hb (by omega)
  have hlow : x.toNat < 128 := by omega
  rw [continuesWord_iff, beginsWord_iff, Text.isLetter_iff_of_ascii hlow,
    Text.isDigitChar_iff_of_ascii hlow] at hword
  omega

/-- **Only strings have lexemes with special bytes.** -/
theorem Parsed.plain_lexeme {e : Expr} (h : e.Parsed T) :
    ∀ n ∈ e.nodes, n.token.type ≠ .string → ∀ b ∈ n.token.lexeme, Json.isSpecial b = false := by
  intro n hn hstring
  have hbuilt := h.built.of_mem_nodes n hn
  rcases (h.scanned n hn).name with hnumber | hstring' | hname | hlexeme
  · exact plain_number (hbuilt.isNumber hnumber)
  · exact absurd hstring' hstring
  · exact plain_identifier (hbuilt.isIdentifier hname)
  · rw [hlexeme]
    simpa using (Document.plain_name (Document.name_mem_reservedNames hbuilt)).1

end Fixity.Expr
