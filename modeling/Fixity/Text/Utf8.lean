import Fixity.Bytes
import Fixity.Segment

/-!
# UTF-8

A byte string is read as a sequence of pieces.  Each piece is a code point, or a single stray byte
that does not begin a well-formed encoding.  Overlong forms, surrogates and values above U+10FFFF
are not well formed, so

    decode (encode cs) = cs

and a byte string is `encode` of something exactly when it has no stray byte.
-/

namespace Fixity.Utf8

/-- What is read at one place of a byte string. -/
inductive Piece where
  | char (c : Char)
  | stray (b : UInt8)
deriving DecidableEq, Repr

/-- The character a reader sees: a stray byte looks like U+FFFD. -/
def Piece.toChar : Piece → Char
  | .char c => c
  | .stray _ => '\uFFFD'

def Piece.isChar : Piece → Bool
  | .char _ => true
  | .stray _ => false

/-- A byte that continues an encoding, 10xxxxxx. -/
def isContinuation (b : UInt8) : Bool := b.toNat / 64 == 2

/-- The code point `n`, if it is one and is at least `least`. -/
def scalar? (least n : Nat) : Option Char :=
  if least ≤ n ∧ n.isValidChar then some (Char.ofNat n) else none

/-- The code point written by a first byte and the bytes after it, with the number of those that
belong to it. -/
def encoded? (b : UInt8) (rest : Bytes) : Option (Char × Nat) :=
  let n := b.toNat
  if n < 0x80 then some (Char.ofNat n, 0)
  else if n < 0xC0 then none
  else if n < 0xE0 then
    match rest with
    | c :: _ =>
      if isContinuation c then
        (scalar? 0x80 (n % 32 * 64 + c.toNat % 64)).map (·, 1)
      else none
    | _ => none
  else if n < 0xF0 then
    match rest with
    | c :: d :: _ =>
      if isContinuation c && isContinuation d then
        (scalar? 0x800 (n % 16 * 4096 + c.toNat % 64 * 64 + d.toNat % 64)).map (·, 2)
      else none
    | _ => none
  else if n < 0xF8 then
    match rest with
    | c :: d :: e :: _ =>
      if isContinuation c && isContinuation d && isContinuation e then
        (scalar? 0x10000
          (n % 8 * 262144 + c.toNat % 64 * 4096 + d.toNat % 64 * 64 + e.toNat % 64)).map (·, 3)
      else none
    | _ => none
  else none

/-- The piece that begins with `b`, and how many bytes after `b` belong to it. -/
def lead (b : UInt8) (rest : Bytes) : Piece × Nat :=
  match encoded? b rest with
  | some (c, n) => (.char c, n)
  | none => (.stray b, 0)

def pieces (bs : Bytes) : List Piece := (Segment.cut lead bs).map (·.label)

/-- The characters of a byte string, U+FFFD for each stray byte. -/
def decode (bs : Bytes) : List Char := (pieces bs).map Piece.toChar

def encode (cs : List Char) : Bytes := cs.flatMap String.utf8EncodeChar

/-- There is no stray byte. -/
def isValid (bs : Bytes) : Bool := (pieces bs).all Piece.isChar

def text? (bs : Bytes) : Option String :=
  if isValid bs then some (String.ofList (decode bs)) else none

end Fixity.Utf8
