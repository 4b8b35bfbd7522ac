import Fixity.Proofs.Expr.Built
import Fixity.Proofs.Token.Place

/-!
# Leaves and the lexemes they are scanned from

`Spelling` checks the lexeme of a leaf on its bytes, and the scanner finds it by what the text goes on
with.  Both take the same lexemes (`leaves_spelt_alike`): what is scanned makes a leaf, and the lexeme
of a leaf, scanned alone, is one token again.
-/

namespace Fixity

open Utf8

theorem TokenType.HasLexeme.isLiteral {type : TokenType} {lexeme : Bytes}
    (h : type.HasLexeme lexeme) (htype : type.isLiteral = true) :
    Spelling.isLiteral type lexeme = true := by
  rcases Expr.type_of_isLiteral htype with rfl | rfl | rfl | rfl | rfl
  case inl => exact h
  case inr.inl => exact h
  all_goals exact beq_iff_eq.mpr h

namespace Lexeme

/-- A byte string that is one lexeme in front of nothing is one segment. -/
theorem segments_of_begins {bs : Bytes} {label : Lexeme} (h : Begins bs [] label) :
    segments (decode bs) = [⟨decode bs, label⟩] := by
  obtain ⟨c, cs, hdecode, hlead⟩ := h.found
  have hcut := Segment.cut_of_lead lead hlead
  rwa [decode_nil, List.append_nil, ← hdecode, ← segments] at hcut

end Lexeme

namespace Scan

open Lexeme

theorem ofBytes_of_begins {bs : Bytes} {type : TokenType} (line : Int64)
    (h : Begins bs [] (.token type)) (hvalid : isValid bs = true) :
    ofBytes line bs =
      ⟨⟨[⟨type, bs, Literal.ofLexeme type bs, ⟨line, 1⟩⟩],
        ⟨.eof, [], .none, placeAfter line (decode bs)⟩⟩, []⟩ := by
  rw [ofBytes, ofChars_eq, segments_of_begins h, ← placeAfter_nil line]
  simp only [located, List.filterMap_cons, List.filterMap_nil, tokenAt?, errorAt?,
    encode_decode hvalid]

theorem begins_of_leaf {t : Token} {e : Expr}
    (h : Expr.newLiteral (some t) = .ok e ∨ Expr.newIdent (some t) = .ok e) :
    Begins t.lexeme [] (.token t.type) := by
  rcases h with h | h
  · obtain ⟨_, ⟨⟩, htype, -, hspelt, -⟩ := Expr.newLiteral_eq_ok.mp h
    exact begins_literal htype hspelt apart_nil.breaks
  · obtain ⟨_, ⟨⟩, htype, hspelt, -⟩ := Expr.newIdent_eq_ok.mp h
    rw [htype]
    exact begins_identifier hspelt apart_nil.breaks

/-- **Leaves are spelt as they are scanned.**  Every literal and every name that a text gives makes a
leaf.  And the lexeme of every leaf, if it is a text, gives one token of the leaf's type when it is
scanned alone, and no error. -/
theorem leaves_spelt_alike :
    (∀ line src, ∀ t ∈ (ofChars line src).stream.tokens,
      (t.type.isLiteral = true → Expr.newLiteral (some t) = .ok (.literal t)) ∧
      (t.type = .identifier → Expr.newIdent (some t) = .ok (.ident t))) ∧
    ∀ (line : Int64) (t : Token) (e : Expr), isValid t.lexeme = true →
      Expr.newLiteral (some t) = .ok e ∨ Expr.newIdent (some t) = .ok e →
      ofBytes line t.lexeme =
        ⟨⟨[⟨t.type, t.lexeme, Literal.ofLexeme t.type t.lexeme, ⟨line, 1⟩⟩],
          ⟨.eof, [], .none, placeAfter line (decode t.lexeme)⟩⟩, []⟩ := by
  refine ⟨fun line src t ht => ⟨fun htype => ?_, fun htype => ?_⟩,
    fun line t e hvalid hleaf => ofBytes_of_begins line (begins_of_leaf hleaf) hvalid⟩
  · exact Expr.newLiteral_of_isLiteral htype ((hasLexeme_of_mem ht).isLiteral htype)
  · have hlexeme := hasLexeme_of_mem ht
    rw [htype] at hlexeme
    exact Expr.newIdent_eq_ok.mpr ⟨t, rfl, htype, hlexeme, rfl⟩

/-- A string with a line end in it and a name, scanned and spelt. -/
theorem string_and_name_spelt_alike :
    (let t : Token := ⟨.string, [34, 10, 34], .string [10], ⟨3, 1⟩⟩;
      Expr.newLiteral (some t) = .ok (.literal t) ∧
        ofBytes 3 [34, 10, 34] = ⟨⟨[t], ⟨.eof, [], .none, ⟨4, 2⟩⟩⟩, []⟩) ∧
    (let t : Token := ⟨.identifier, encode ['ö', '1'], .none, ⟨3, 1⟩⟩;
      Expr.newIdent (some t) = .ok (.ident t) ∧
        ofBytes 3 (encode ['ö', '1']) = ⟨⟨[t], ⟨.eof, [], .none, ⟨3, 3⟩⟩⟩, []⟩) := by
  have hstring := (leaves_spelt_alike.1 3 ['"', '\n', '"']
    ⟨.string, [34, 10, 34], .string [10], ⟨3, 1⟩⟩ (by decide +kernel)).1 rfl
  have hname := (leaves_spelt_alike.1 3 ['ö', '1']
    ⟨.identifier, encode ['ö', '1'], .none, ⟨3, 1⟩⟩ (by decide +kernel)).2 rfl
  have hplace : placeAfter 3 (decode (encode ['ö', '1'])) = ⟨3, 3⟩ := by decide +kernel
  refine ⟨⟨hstring, leaves_spelt_alike.2 3 _ _ (by decide +kernel) (Or.inl hstring)⟩, hname, ?_⟩
  have halone := leaves_spelt_alike.2 3 _ _ (by decide +kernel) (Or.inr hname)
  rwa [hplace] at halone

end Scan

end Fixity
