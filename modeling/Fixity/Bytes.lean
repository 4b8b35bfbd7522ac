/-!
# Byte strings

Every text the library reads or writes is a string of bytes: file contents, lexemes, messages and
documents may hold bytes that are not text in any encoding.  A string literal stands for its UTF-8
bytes, so messages are put together as

    ("[line " ++ Bytes.ofNat n ++ "] Error" : Bytes)
-/

namespace Fixity

abbrev Bytes := List UInt8

namespace Bytes

/-- The UTF-8 bytes of a text. -/
def of (s : String) : Bytes := s.toList.flatMap String.utf8EncodeChar

instance : Coe String Bytes := ⟨Bytes.of⟩

def ofNat (n : Nat) : Bytes := (Nat.toDigits 10 n).flatMap String.utf8EncodeChar

/-- The decimal digits of an integer, after a minus sign when it is negative. -/
def ofInt : Int → Bytes
  | .ofNat n => ofNat n
  | .negSucc n => "-" ++ ofNat (n + 1)

/-- The hexadecimal digits of a number in lower case, at least `width` of them. -/
def ofHex (width n : Nat) : Bytes :=
  let digits := (Nat.toDigits 16 n).flatMap String.utf8EncodeChar
  List.replicate (width - digits.length) 48 ++ digits

/-- `a` stands before `b` in the order of byte strings: bytewise, a beginning before the whole. -/
def before (a b : Bytes) : Bool := decide (a < b)

/-- What is left of `bs` after `start`, when it begins with it. -/
def after? (start bs : Bytes) : Option Bytes :=
  if start.isPrefixOf bs then some (bs.drop start.length) else none

/-- `bs` without one `tail` at its end. -/
def dropTail (tail bs : Bytes) : Bytes :=
  if tail.isSuffixOf bs then bs.take (bs.length - tail.length) else bs

/-- The stretches of `bs` between the bytes equal to `sep`; there is one more than there are such
bytes. -/
def splitAt (sep : UInt8) (bs : Bytes) : List Bytes :=
  let start : List Bytes × Bytes := ([], [])
  let (done, last) := bs.foldl (fun (done, last) b =>
    if b == sep then (last.reverse :: done, []) else (done, b :: last)) start
  (last.reverse :: done).reverse

def join (sep : Bytes) (pieces : List Bytes) : Bytes := (pieces.intersperse sep).flatten

end Bytes

end Fixity
