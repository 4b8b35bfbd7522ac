import Fixity.Segment
import Fixity.Text.Utf8

/-!
# Undoing escapes

What a backslash begins in a JSON string is replaced by what it stands for.  Reading is lenient:
where a backslash begins nothing known, it stands for itself.
-/

namespace Fixity.Json

def hexValue? (b : UInt8) : Option Nat :=
  if 48 ≤ b && b ≤ 57 then some (b.toNat - 48)
  else if 97 ≤ b && b ≤ 102 then some (b.toNat - 87)
  else if 65 ≤ b && b ≤ 70 then some (b.toNat - 55)
  else none

def hex4? : Bytes → Option Nat
  | a :: b :: c :: d :: _ => do
    return (← hexValue? a) * 4096 + (← hexValue? b) * 256 + (← hexValue? c) * 16 + (← hexValue? d)
  | _ => none

/-- Half of a pair that stands for one code point. -/
def isSurrogate (n : Nat) : Bool := 0xD800 ≤ n && n < 0xE000

/-- The code point of a pair of surrogates, U+FFFD when they do not form a pair. -/
def ofSurrogates (high low : Nat) : Char :=
  if high < 0xDC00 ∧ 0xDC00 ≤ low ∧ low < 0xE000 then
    Char.ofNat ((high - 0xD800) * 0x400 + (low - 0xDC00) + 0x10000)
  else '\uFFFD'

/-- What `\u` stands for in front of `rest`, and how many bytes of `rest` belong to it. -/
def unescapeUnit (rest : Bytes) : Bytes × Nat :=
  match hex4? rest with
  | none => ("\\u", 0)
  | some n =>
    if !isSurrogate n then (String.utf8EncodeChar (Char.ofNat n), 4)
    else
      match rest.drop 4 with
      | 92 :: 117 :: more =>
        match hex4? more with
        | some low => (String.utf8EncodeChar (ofSurrogates n low), 10)
        | none => ("\\u" ++ rest.take 4, 4)
      | _ => ("\\u" ++ rest.take 4, 4)

def unescapeLead (b : UInt8) (rest : Bytes) : Bytes × Nat :=
  if b = 92 then
    match rest with
    | [] => ([], 0)
    -- a quote, a backslash and a slash stand for themselves
    | 34 :: _ => ([34], 1)
    | 92 :: _ => ([92], 1)
    | 47 :: _ => ([47], 1)
    -- the letters b, f, n, r and t stand for controls
    | 98 :: _ => ([8], 1)
    | 102 :: _ => ([12], 1)
    | 110 :: _ => ([10], 1)
    | 114 :: _ => ([13], 1)
    | 116 :: _ => ([9], 1)
    -- the letter u begins a code unit
    | 117 :: rest =>
      let found := unescapeUnit rest
      (found.1, found.2 + 1)
    | c :: _ => ([92, c], 1)
  else ([b], 0)

def unescape (raw : Bytes) : Bytes :=
  if raw.contains 92 then (Segment.cut unescapeLead raw).flatMap (·.label) else raw

end Fixity.Json
