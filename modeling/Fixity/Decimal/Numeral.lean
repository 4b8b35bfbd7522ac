import Fixity.Bytes
import Fixity.Decimal.Double

/-!
# Numerals

The spellings of floating-point numbers: decimal with an optional fraction and exponent,
hexadecimal with a binary exponent, infinity and the number that is none.  An underscore may stand
between two digits or after the `0x` of a hexadecimal numeral.

    -1_000.5e-3    0x1.8p3    +Infinity    nan
-/

namespace Fixity.Double

def digitValue? (base : Nat) (c : Char) : Option Nat :=
  let n := c.toNat
  let v? :=
    if '0' ≤ c ∧ c ≤ '9' then some (n - 48)
    else if 'a' ≤ c ∧ c ≤ 'f' then some (n - 87)
    else if 'A' ≤ c ∧ c ≤ 'F' then some (n - 55)
    else none
  v?.filter (· < base)

def ofDigits (base : Nat) (cs : List Char) : Nat :=
  cs.foldl (fun n c => n * base + (digitValue? base c).getD 0) 0

/-- Every underscore stands between two digits, where what comes before the text counts as one if
`afterDigit`. -/
def underscoresFit (base : Nat) (afterDigit : Bool) : List Char → Bool
  | [] => true
  | '_' :: cs =>
    afterDigit && (match cs with
      | c :: _ => (digitValue? base c).isSome
      | [] => false) && underscoresFit base false cs
  | c :: cs => underscoresFit base (digitValue? base c).isSome cs

/-- A numeral taken apart: digits before and after the point and the exponent. -/
structure Parts where
  whole : List Char
  fraction : List Char
  exponent : Option Int

def readExponent? (cs : List Char) : Option Int :=
  let (negative, digits) := match cs with
    | '+' :: rest => (false, rest)
    | '-' :: rest => (true, rest)
    | rest => (false, rest)
  if (digits.head?.bind (digitValue? 10)).isSome ∧ digits.all (fun c => (digitValue? 10 c).isSome)
  then
    let n : Int := ofDigits 10 digits
    some (if negative then -n else n)
  else none

def readParts? (base : Nat) (mark : Char) (cs : List Char) : Option Parts :=
  let isDigit (c : Char) := (digitValue? base c).isSome
  let whole := cs.takeWhile isDigit
  let rest := cs.dropWhile isDigit
  let (fraction, rest) := match rest with
    | '.' :: rest => (rest.takeWhile isDigit, rest.dropWhile isDigit)
    | rest => ([], rest)
  if whole.isEmpty && fraction.isEmpty then none
  else match rest with
    | [] => some ⟨whole, fraction, none⟩
    | c :: rest =>
      if c = mark ∨ c = mark.toUpper then
        (readExponent? rest).map fun e => ⟨whole, fraction, some e⟩
      else none

def readDecimal? (cs : List Char) : Option UInt64 :=
  if underscoresFit 10 false cs then
    (readParts? 10 'e' (cs.filter (· != '_'))).bind fun p =>
      ofDecimal? (ofDigits 10 (p.whole ++ p.fraction)) (p.exponent.getD 0 - p.fraction.length)
  else none

/-- Reads a hexadecimal numeral without sign and base.  Its exponent is not optional. -/
def readHexadecimal? (cs : List Char) : Option UInt64 :=
  if underscoresFit 16 true cs then
    (readParts? 16 'p' (cs.filter (· != '_'))).bind fun p => p.exponent.bind fun e =>
      ofBinary? (ofDigits 16 (p.whole ++ p.fraction)) (e - 4 * p.fraction.length)
  else none

/-- Reads a numeral; nothing when it is misspelt or too large. -/
def read? (bs : Bytes) : Option UInt64 :=
  let cs := bs.map fun b => Char.ofNat b.toNat
  let (sign, cs) := match cs with
    | '+' :: rest => (some false, rest)
    | '-' :: rest => (some true, rest)
    | rest => (none, rest)
  let word := cs.map Char.toLower
  if word = "inf".toList ∨ word = "infinity".toList then some (signed (sign.getD false) infinity)
  else if word = "nan".toList ∧ sign = none then some notANumber
  else
    let magnitude? := match cs with
      | '0' :: 'x' :: c :: rest => readHexadecimal? (c :: rest)
      | '0' :: 'X' :: c :: rest => readHexadecimal? (c :: rest)
      | _ => readDecimal? cs
    magnitude?.map (signed (sign.getD false))

end Fixity.Double
