import Fixity.Proofs.Token.Place
import Mathlib.Data.List.Forall2

/-!
# The tokens of a text

A scan gives one token for each segment that is a lexeme, in the order of the text
(`tokens_ofChars`), and one error for each segment that is rejected.  A token of a scan has the value
of its lexeme, and all but numbers, strings and names have the name of their type as lexeme
(`scanned_of_mem`).
-/

namespace Fixity

/-- The token that a text gives for a lexeme of a type, wherever the lexeme stands. -/
def Token.Spells (t : Token) (type : TokenType) (lexeme : Bytes) : Prop :=
  t.type = type ∧ t.lexeme = lexeme ∧ t.literal = Literal.ofLexeme type lexeme

structure Token.Scanned (t : Token) : Prop where
  spells : t.Spells t.type t.lexeme
  ne_eof : t.type ≠ .eof
  name : t.type = .number ∨ t.type = .string ∨ t.type = .identifier ∨ t.lexeme = t.type.name
  valid : Utf8.isValid t.lexeme = true

def Lexeme.spelled? (s : Segment Char Lexeme) : Option (TokenType × Bytes) :=
  match s.label with
  | .token type => some (type, Utf8.encode s.text)
  | _ => none

namespace Scan

open Lexeme

theorem spells_located (line : Int64) (segs : List (Segment Char Lexeme)) : ∀ before : List Char,
    List.Forall₂ (fun t l => t.Spells l.1 l.2)
      ((located before segs).filterMap (tokenAt? line)) (segs.filterMap spelled?) := by
  induction segs with
  | nil => exact fun _ => .nil
  | cons s segs ih =>
    intro before
    rw [located]
    cases hs : s.label with
    | token type =>
      rw [List.filterMap_cons_some (by simp [tokenAt?, hs]; rfl),
        List.filterMap_cons_some (by simp [spelled?, hs]; rfl)]
      exact .cons ⟨rfl, rfl, rfl⟩ (ih _)
    | _ =>
      rw [List.filterMap_cons_none (by simp [tokenAt?, hs]),
        List.filterMap_cons_none (by simp [spelled?, hs])]
      exact ih _

/-- **The tokens of a text are its lexemes, in the order of the text.** -/
theorem tokens_ofChars (line : Int64) (src : List Char) :
    List.Forall₂ (fun t l => t.Spells l.1 l.2) (ofChars line src).stream.tokens
      ((segments src).filterMap spelled?) := by
  rw [ofChars_eq]
  exact spells_located line _ _

theorem errors_ofChars (line : Int64) {src : List Char}
    (h : ∀ s ∈ segments src, ∀ fault, s.label ≠ .rejected fault) :
    (ofChars line src).errors = [] := by
  rw [ofChars_eq]
  refine List.filterMap_eq_nil_iff.mpr fun ⟨before, s⟩ hs => ?_
  obtain ⟨as, bs, hsplit, -⟩ := exists_of_mem_located hs
  have hlabel := h s (by simp [hsplit])
  unfold errorAt?
  split
  · rename_i fault hfault
    exact absurd hfault (hlabel fault)
  · rfl

/-- **What a scan gives are scanned tokens.** -/
theorem scanned_of_mem {line : Int64} {src : List Char} {t : Token}
    (h : t ∈ (ofChars line src).stream.tokens) : t.Scanned := by
  obtain ⟨-, -, text, -, hlexeme, hliteral, -⟩ := exists_of_mem_tokens h
  have hhas := hasLexeme_of_mem h
  exact
    { spells := ⟨rfl, rfl, hliteral⟩
      ne_eof := hhas.ne_eof
      name := hhas.name_cases
      valid := by rw [hlexeme]; exact Utf8.isValid_encode _ }

end Scan

end Fixity
