import Fixity.Text.Printable
import Fixity.Text.Utf8

/-!
# Quoted text

A byte string written between double quotes so that every byte can be seen.  Printable characters
stand for themselves, the seven common controls have letters, and everything else is written in
hexadecimal: `\x` with two digits, `\u` with four or `\U` with eight.  A stray byte is written
`\x` with two digits too.
-/

namespace Fixity.Text

/-- The letter after the backslash for the controls that have one. -/
def controlLetter? (c : Char) : Option Bytes :=
  match c.toNat with
  | 7 => some "a"
  | 8 => some "b"
  | 9 => some "t"
  | 10 => some "n"
  | 11 => some "v"
  | 12 => some "f"
  | 13 => some "r"
  | _ => none

/-- A character as it stands between two marks `mark`. -/
def escapeChar (mark c : Char) : Bytes :=
  if c = mark ∨ c = '\\' then "\\" ++ String.utf8EncodeChar c
  else if isPrintable c then String.utf8EncodeChar c
  else match controlLetter? c with
    | some letter => "\\" ++ letter
    | none =>
      if c.toNat < 0x80 then "\\x" ++ Bytes.ofHex 2 c.toNat
      else if c.toNat < 0x10000 then "\\u" ++ Bytes.ofHex 4 c.toNat
      else "\\U" ++ Bytes.ofHex 8 c.toNat

def escapePiece : Utf8.Piece → Bytes
  | .char c => escapeChar '"' c
  | .stray b => "\\x" ++ Bytes.ofHex 2 b.toNat

def quote (bs : Bytes) : Bytes := "\"" ++ (Utf8.pieces bs).flatMap escapePiece ++ "\""

def quoteChar (c : Char) : Bytes := "'" ++ escapeChar '\'' c ++ "'"

end Fixity.Text
